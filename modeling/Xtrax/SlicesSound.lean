import Xtrax.Results
import Xtrax.SlicesWalk

/-!
# Backward slices are sound and closed

When the walk ends, the operations it visited are closed under dataflow (`Settled`), by whichever
route each was reached.  That a slice lies in any other slice it depends on needs more: a call in
a region has all its results followed, since the operations around it are visited first
(`Enclosed`).
-/

namespace Xtrax.Slices

open Except List Option Worklist

variable {m : Module} {op : Op} {index : Nat} {u w t : Walk} {v : Value}
  {paths : List (String × String)} {slices : List (String × List Nat)} {f : Func} {e : ProbeError}

/-! ### One pass -/

/-- The value is what a call's result is in the function it calls. -/
def ReturnOf (m : Module) (op : Op) (index : Nat) (v : Value) : Prop :=
  ∃ symName f, op.callee = some symName ∧ resolveFunc m.funcs symName = some f ∧
    f.returns[index]? = some v

theorem ReturnOf.isSome (h : ReturnOf m op index v) : op.callee.isSome = true := by
  obtain ⟨symName, f, hcallee, -, -⟩ := h
  rw [hcallee]
  rfl

theorem ReturnOf.mem_returns (h : ReturnOf m op index v) : ∃ f ∈ m.funcs, v ∈ f.returns := by
  obtain ⟨symName, f, -, hf, hv⟩ := h
  exact ⟨f, Module.mem_of_resolveFunc hf, mem_of_getElem? hv⟩

/-- A result of `op` was followed on the way from `u` to `t`. -/
structure Follows (m : Module) (op : Op) (index : Nat) (u t : Walk) : Prop where
  visited : t.visited = u.visited
  followed : ∀ r, r ∈ t.followed ↔ r ∈ u.followed ∨ (op.callee.isSome = true ∧ r = (op.id, index))
  stack : ∀ v ∈ u.stack, v ∈ t.stack
  returned : (op.id, index) ∉ u.followed → ∀ v, ReturnOf m op index v → v ∈ t.stack
  origin : ∀ v ∈ t.stack, v ∈ u.stack ∨ ReturnOf m op index v
  measure : t.measure m ≤ u.measure m

theorem callResults_nodup (m : Module) : (m.callResults.map fun r => r).Nodup := by
  rw [List.map_id', Module.callResults, List.nodup_flatMap]
  refine ⟨fun op _ => ?_, ?_⟩
  · refine List.nodup_range.map fun i j h => ?_
    exact (Prod.mk.inj h).2
  · have hids : m.allOps.Pairwise fun a b => a.id ≠ b.id := List.pairwise_map.mp m.ids_nodup
    refine (hids.sublist List.filter_sublist).imp fun {a b} hne r ha hb => ?_
    obtain ⟨i, -, rfl⟩ := List.mem_map.mp ha
    obtain ⟨j, -, hj⟩ := List.mem_map.mp hb
    exact hne (Prod.mk.inj hj).1.symm

theorem mem_callResults (hop : op ∈ m.allOps) (hcall : op.callee.isSome = true)
    (hindex : index < op.numResults) : (op.id, index) ∈ m.callResults := by
  refine mem_flatMap.mpr ⟨op, mem_filter.mpr ⟨hop, hcall⟩, ?_⟩
  exact mem_map.mpr ⟨index, mem_range.mpr hindex, rfl⟩

theorem follow_ok (hop : op ∈ m.allOps) (hindex : index < op.numResults) :
    ∃ t, u.follow m op index = .ok t ∧ Follows m op index u t := by
  unfold Walk.follow
  cases hcallee : op.callee with
  | none =>
    refine ⟨u, rfl, rfl, fun r => ?_, fun _ h => h, fun _ v hv => ?_, fun _ h => .inl h,
      Nat.le_refl _⟩
    · rw [hcallee]
      simp
    · have hsome := hv.isSome
      rw [hcallee] at hsome
      exact absurd hsome Bool.false_ne_true
  | some symName =>
    by_cases hfollowed : (op.id, index) ∈ u.followed
    · refine ⟨u, if_pos hfollowed, rfl, fun r => ⟨.inl, ?_⟩, fun _ h => h,
        fun hnew => absurd hfollowed hnew, fun _ h => .inl h, Nat.le_refl _⟩
      rintro (h | ⟨-, rfl⟩)
      · exact h
      · exact hfollowed
    · obtain ⟨f, hf, hreturns⟩ := m.calls_resolve op hop symName hcallee
      have hlt : index < f.returns.length := hreturns ▸ hindex
      have hget : f.returns[index]? = some f.returns[index] := getElem?_eq_getElem hlt
      have hresults : op.callee.isSome = true := by rw [hcallee]; rfl
      refine ⟨{ u with
          followed := (op.id, index) :: u.followed
          stack := f.returns[index] :: u.stack },
        by simp only [if_neg hfollowed, hf, hget], rfl, fun r => ?_,
        fun v hv => mem_cons_of_mem _ hv, fun _ v hv => ?_, fun v hv => ?_, ?_⟩
      · rw [mem_cons, or_comm, and_iff_right hresults]
      · obtain ⟨symName', f', hcallee', hf', hv'⟩ := hv
        obtain rfl := some.inj (hcallee.symm.trans hcallee')
        obtain rfl := some.inj (hf.symm.trans hf')
        exact some.inj (hget.symm.trans hv') ▸ mem_cons_self ..
      · refine (mem_cons.mp hv).elim (fun he => .inr ?_) .inl
        exact ⟨symName, f, hcallee, hf, he ▸ hget⟩
      · have hmark : remaining (fun r : OpId × Nat => r) (fun _ => 1) m.callResults
            ((op.id, index) :: u.followed) + 1 =
            remaining (fun r : OpId × Nat => r) (fun _ => 1) m.callResults u.followed :=
          remaining_mark (callResults_nodup m) (mem_callResults hop hresults hindex) hfollowed
        simp only [Walk.measure, length_cons]
        omega

/-- What a pass does with a stack that is not empty. -/
inductive Passes (m : Module) (w t : Walk) : Prop
  | argument (index : Nat) (rest : List Value) : w.stack = .blockArgument index :: rest →
      t = { w with stack := rest } → Passes m w t
  | result (op : Op) (index : Nat) (rest : List Value) (u : Walk) :
      w.stack = .result op.id index :: rest → op ∈ m.allOps →
      Visits m op { w with stack := rest } u → Follows m op index u t → Passes m w t

/-! ### What is owed for a value -/

/-- The value is an argument, or its operation was visited and, of a call, the result followed. -/
def Handled (m : Module) (w : Walk) : Value → Prop
  | .blockArgument _ => True
  | .result owner index => owner ∈ w.visited ∧
      ∀ op ∈ m.allOps, op.id = owner → op.callee.isSome = true → (owner, index) ∈ w.followed

/-- The value waits, or is handled. -/
def Covered (m : Module) (w : Walk) (v : Value) : Prop := v ∈ w.stack ∨ Handled m w v

/-- What visits and marks owe, is on the stack or was handled. -/
structure Settled (m : Module) (w : Walk) : Prop where
  listed : ∀ id ∈ w.visited, id ∈ m.allOps.map Op.id
  valid : ∀ v ∈ w.stack, ValidIn m.funcs v
  nested : ∀ op ∈ m.allOps, op.id ∈ w.visited → ∀ o ∈ allOpsInRegionTree op, o.id ∈ w.visited
  operands : ∀ op ∈ m.allOps, op.id ∈ w.visited → ∀ v ∈ op.operands, Covered m w v
  callee : ∀ op ∈ m.allOps, ∀ index v, (op.id, index) ∈ w.followed → ReturnOf m op index v →
    Covered m w v

theorem settled_start (hv : ValidIn m.funcs v) : Settled m { stack := [v] } where
  listed _ h := absurd h not_mem_nil
  valid _ h := mem_singleton.mp h ▸ hv
  nested _ _ h := absurd h not_mem_nil
  operands _ _ h := absurd h not_mem_nil
  callee _ _ _ _ h := absurd h not_mem_nil

theorem step_ok (hw : Settled m w) (hmore : w.stack ≠ []) :
    ∃ t, w.step m = .ok t ∧ Passes m w t ∧ t.measure m < w.measure m := by
  unfold Walk.step
  cases hstack : w.stack with
  | nil => exact absurd hstack hmore
  | cons v rest =>
    have hpop : Walk.measure m { w with stack := rest } < w.measure m := by
      simp only [Walk.measure, hstack, length_cons]
      omega
    cases v with
    | blockArgument index => exact ⟨_, rfl, .argument index rest hstack rfl, hpop⟩
    | result owner index =>
      have hvalid : ValidIn m.funcs (.result owner index) :=
        hw.valid _ (hstack ▸ mem_cons_self ..)
      obtain ⟨op, hop, rfl, hindex⟩ := hvalid
      have hvisits : Visits m op { w with stack := rest } (Walk.visit { w with stack := rest } op) :=
        visits_visit hop fun h o ho => hw.nested op hop h o ho
      obtain ⟨t, ht, hfollows⟩ := follow_ok (u := Walk.visit { w with stack := rest } op) hop hindex
      refine ⟨t, by simp only [Module.op?_eq_some hop rfl]; exact ht,
        .result op index rest _ hstack hop hvisits hfollows, ?_⟩
      have hfollowed : (Walk.visit { w with stack := rest } op).followed = w.followed :=
        hvisits.followed
      have hcost := hvisits.cost
      have hmeasure := hfollows.measure
      simp only [Walk.measure, Walk.cost, hfollowed] at hcost hmeasure hpop ⊢
      omega

/-! ### What a pass keeps -/

theorem Passes.visited (h : Passes m w t) : ∀ id ∈ w.visited, id ∈ t.visited := by
  intro id hid
  cases h with
  | argument _ _ _ ht => rwa [ht]
  | result op index rest u _ _ hvisits hfollows =>
    rw [hfollows.visited]
    exact (hvisits.visited id).mpr (.inl hid)

theorem Passes.followed (h : Passes m w t) : ∀ r ∈ w.followed, r ∈ t.followed := by
  intro r hr
  cases h with
  | argument _ _ _ ht => rwa [ht]
  | result op index rest u _ _ hvisits hfollows =>
    refine (hfollows.followed r).mpr (.inl ?_)
    rwa [hvisits.followed]

theorem Handled.mono (hvisited : ∀ id ∈ w.visited, id ∈ t.visited)
    (hfollowed : ∀ r ∈ w.followed, r ∈ t.followed) (h : Handled m w v) : Handled m t v := by
  cases v with
  | blockArgument _ => trivial
  | result owner index =>
    exact ⟨hvisited _ h.1, fun op hop hid hcall => hfollowed _ (h.2 op hop hid hcall)⟩

theorem Passes.covered (h : Passes m w t) (hv : Covered m w v) : Covered m t v := by
  rcases hv with hv | hv
  · cases h with
    | argument index rest hstack ht =>
      rw [hstack] at hv
      rcases mem_cons.mp hv with rfl | hv
      · exact .inr trivial
      · exact .inl (ht ▸ hv)
    | result op index rest u hstack hop hvisits hfollows =>
      rw [hstack] at hv
      rcases mem_cons.mp hv with rfl | hv
      · refine .inr ⟨?_, fun o ho hid hcall => ?_⟩
        · rw [hfollows.visited]
          exact (hvisits.visited op.id).mpr (.inr (.inl rfl))
        · obtain rfl := Module.eq_of_id ho hop hid
          exact (hfollows.followed _).mpr (.inr ⟨hcall, rfl⟩)
      · exact .inl (hfollows.stack v (hvisits.stack v hv))
  · exact .inr (hv.mono h.visited h.followed)

theorem Visits.fresh (h : Visits m op w u) (hop : op ∈ m.allOps) {o : Op} (ho : o ∈ m.allOps)
    (hu : o.id ∈ u.visited) (hw : o.id ∉ w.visited) : o ∈ op :: allOpsInRegionTree op := by
  rcases (h.visited o.id).mp hu with hold | hid | hin
  · exact absurd hold hw
  · exact Module.eq_of_id ho hop hid ▸ mem_cons_self ..
  · obtain ⟨n, hn, hid⟩ := mem_map.mp hin
    rw [← Module.eq_of_id (Module.nested_mem hop hn) ho hid]
    exact mem_cons_of_mem _ hn

theorem validIn_results {o : Op} (ho : o ∈ m.allOps) (hv : v ∈ o.results) : ValidIn m.funcs v := by
  obtain ⟨index, hlt, rfl⟩ := mem_results.mp hv
  exact ⟨o, ho, rfl, hlt⟩

/-- **The step lemma.** -/
theorem Settled.step (hw : Settled m w) (h : Passes m w t) : Settled m t := by
  have hcovered : ∀ v, Covered m w v → Covered m t v := fun v hv => h.covered hv
  cases h with
  | argument index rest hstack ht =>
    subst ht
    exact ⟨hw.listed, fun v hv => hw.valid v (hstack ▸ mem_cons_of_mem _ hv), hw.nested,
      fun op hop hid v hv => hcovered v (hw.operands op hop hid v hv),
      fun op hop index v hr hv => hcovered v (hw.callee op hop index v hr hv)⟩
  | result op index rest u hstack hop hvisits hfollows =>
    have hrest : ∀ v ∈ rest, v ∈ w.stack := fun v hv => hstack ▸ mem_cons_of_mem _ hv
    refine ⟨fun id hid => ?_, fun v hv => ?_, fun o ho hid n hn => ?_, fun o ho hid v hv => ?_,
      fun o ho i v hr hv => ?_⟩
    · rw [hfollows.visited] at hid
      rcases (hvisits.visited id).mp hid with hold | rfl | hin
      · exact hw.listed id hold
      · exact mem_map_of_mem hop
      · obtain ⟨n, hn, rfl⟩ := mem_map.mp hin
        exact mem_map_of_mem (Module.nested_mem hop hn)
    · rcases hfollows.origin v hv with hv | hv
      · rcases hvisits.origin v hv with hv | hv | ⟨o, ho, hv | ⟨-, hv⟩⟩
        · exact hw.valid v (hrest v hv)
        · exact m.operands_valid op hop v hv
        · exact m.operands_valid o (Module.nested_mem hop ho) v hv
        · exact validIn_results (Module.nested_mem hop ho) hv
      · obtain ⟨f, hf, hmem⟩ := hv.mem_returns
        exact Module.returns_valid hf hmem
    · rw [hfollows.visited] at hid ⊢
      by_cases hold : o.id ∈ w.visited
      · exact (hvisits.visited n.id).mpr (.inl (hw.nested o ho hold n hn))
      · have hnested : n ∈ allOpsInRegionTree op := by
          rcases mem_cons.mp (hvisits.fresh hop ho hid hold) with rfl | hin
          · exact hn
          · exact mem_tree_trans hn op hin
        exact (hvisits.visited n.id).mpr (.inr (.inr (mem_map_of_mem hnested)))
    · by_cases hold : o.id ∈ w.visited
      · exact hcovered v (hw.operands o ho hold v hv)
      · rw [hfollows.visited] at hid
        have hfresh := hvisits.fresh hop ho hid hold
        exact .inl (hfollows.stack v (hvisits.operands o hfresh hold v hv))
    · by_cases hold : (o.id, i) ∈ w.followed
      · exact hcovered v (hw.callee o ho i v hold hv)
      · have hnew : (o.id, i) ∉ u.followed := by rwa [hvisits.followed]
        obtain ⟨-, hr⟩ := ((hfollows.followed _).mp hr).resolve_left hnew
        obtain ⟨hid, rfl⟩ := Prod.mk.inj hr
        obtain rfl := Module.eq_of_id ho hop hid
        exact .inl (hfollows.returned hnew v hv)

theorem backwardSliceOps_ends {I : Walk → Prop} (hv : ValidIn m.funcs v)
    (hstart : I { stack := [v] }) (hstep : ∀ w t, Settled m w → I w → Passes m w t → I t) :
    ∃ t, backwardSliceOps m v = .ok (some t.visited) ∧ Settled m t ∧ I t ∧ t.stack = [] ∧
      Handled m t v := by
  have hbody : ∀ w : Walk, Settled m w ∧ I w ∧ Covered m w v → (!w.stack.isEmpty) = true →
      ∃ t, w.step m = .ok t ∧ (Settled m t ∧ I t ∧ Covered m t v) ∧ t.measure m < w.measure m := by
    rintro w ⟨hw, hI, hcovered⟩ hmore
    have hne : w.stack ≠ [] := fun h => by simp [h] at hmore
    obtain ⟨t, ht, hpass, hlt⟩ := step_ok hw hne
    exact ⟨t, ht, ⟨hw.step hpass, hstep w t hw hI hpass, hpass.covered hcovered⟩, hlt⟩
  obtain ⟨t, ht, ⟨hsettled, hI, hcovered⟩, hdone⟩ := whileLoop_returns hbody
    ⟨settled_start hv, hstart, .inl (mem_singleton_self v)⟩ (Nat.le_refl _)
  have hempty : t.stack = [] := by simpa using hdone
  refine ⟨t, ?_, hsettled, hI, hempty, hcovered.resolve_left ?_⟩
  · rw [backwardSliceOps]
    simp only [ht]
    rfl
  · rw [hempty]
    exact not_mem_nil

/-! ### Closure under dataflow -/

/-- The node's part of what the walk is to reach is reached. -/
def Reached (m : Module) (w : Walk) : Node → Prop
  | .value v => Handled m w v
  | .op op => op ∈ m.allOps ∧ op.id ∈ w.visited

theorem reached_flows (hw : Settled m w) (hdone : w.stack = []) {a b : Node}
    (ha : Reached m w a) (h : Flows m a b) : Reached m w b := by
  have hhandled : ∀ v, Covered m w v → Handled m w v := by
    intro v hv
    refine hv.resolve_left ?_
    rw [hdone]
    exact not_mem_nil
  cases h with
  | owner hop => exact ⟨hop, ha.1⟩
  | operand hv => exact hhandled _ (hw.operands _ ha.1 ha.2 _ hv)
  | region hnested => exact ⟨Module.nested_mem ha.1 hnested, hw.nested _ ha.1 ha.2 _ hnested⟩
  | callee hop hcallee hf hv =>
    have hreturn : ReturnOf m _ _ _ := ⟨_, _, hcallee, hf, hv⟩
    exact hhandled _ (hw.callee _ hop _ _ (ha.2 _ hop rfl hreturn.isSome) hreturn)

theorem reached_of_flows (hw : Settled m w) (hdone : w.stack = []) (hv : Handled m w v) {n : Node}
    (h : Relation.ReflTransGen (Flows m) (.value v) n) : Reached m w n :=
  closed_of_reached (C := Reached m w) (a := .value v)
    (fun _ _ ha hstep => reached_flows hw hdone ha hstep) hv h

/-! ### Slices lie in one another -/

/-- Of a region, nothing is reached before the operation around it, and its calls have all their
results followed. -/
structure Enclosed (m : Module) (w : Walk) : Prop where
  visited : ∀ outer ∈ m.allOps, ∀ o ∈ allOpsInRegionTree outer, o.id ∈ w.visited →
    outer.id ∈ w.visited
  stack : ∀ outer ∈ m.allOps, ∀ o ∈ allOpsInRegionTree outer, ∀ index,
    .result o.id index ∈ w.stack → outer.id ∈ w.visited
  results : ∀ outer ∈ m.allOps, ∀ o ∈ allOpsInRegionTree outer, o.id ∈ w.visited →
    o.callee.isSome = true → ∀ v ∈ o.results, Covered m w v

theorem enclosed_start (hf : f ∈ m.funcs) (hv : v ∈ f.returns) : Enclosed m { stack := [v] } where
  visited _ _ _ _ h := absurd h not_mem_nil
  stack outer houter o ho index h := by
    rw [← mem_singleton.mp h] at hv
    exact absurd ho (Module.returns_visible hf hv houter)
  results _ _ _ _ h := absurd h not_mem_nil

theorem Enclosed.step (hs : Settled m w) (hw : Enclosed m w) (h : Passes m w t) : Enclosed m t := by
  have hcovered : ∀ v, Covered m w v → Covered m t v := fun v hv => h.covered hv
  have hmono : ∀ id ∈ w.visited, id ∈ t.visited := h.visited
  cases h with
  | argument index rest hstack ht =>
    subst ht
    exact ⟨hw.visited,
      fun outer houter o ho i hi => hw.stack outer houter o ho i (hstack ▸ .tail _ hi),
      fun outer houter o ho hid hcall v hv =>
        hcovered v (hw.results outer houter o ho hid hcall v hv)⟩
  | result op index rest u hstack hop hvisits hfollows =>
    -- What encloses the operation on top was visited before it.
    have haround : ∀ outer ∈ m.allOps, op ∈ allOpsInRegionTree outer → outer.id ∈ w.visited :=
      fun outer houter hin => hw.stack outer houter op hin index (hstack ▸ mem_cons_self ..)
    have hvisited : ∀ outer ∈ m.allOps, ∀ o ∈ allOpsInRegionTree outer, o.id ∈ t.visited →
        outer.id ∈ t.visited := by
      intro outer houter o ho hid
      by_cases hold : o.id ∈ w.visited
      · exact hmono _ (hw.visited outer houter o ho hold)
      · rw [hfollows.visited] at hid
        rcases mem_cons.mp (hvisits.fresh hop (Module.nested_mem houter ho) hid hold) with rfl | hin
        · exact hmono _ (haround outer houter ho)
        · rw [hfollows.visited]
          rcases m.laminar outer houter op hop o ho hin with rfl | hinside | haround'
          · exact (hvisits.visited _).mpr (.inr (.inl rfl))
          · exact (hvisits.visited _).mpr (.inr (.inr (mem_map_of_mem hinside)))
          · exact (hvisits.visited _).mpr (.inl (haround outer houter haround'))
    have htree : ∀ o ∈ allOpsInRegionTree op, o.id ∈ t.visited := by
      intro o ho
      rw [hfollows.visited]
      exact (hvisits.visited _).mpr (.inr (.inr (mem_map_of_mem ho)))
    refine ⟨hvisited, fun outer houter o ho i hi => ?_, fun outer houter o ho hid hcall v hv => ?_⟩
    · have homem : o ∈ m.allOps := Module.nested_mem houter ho
      rcases hfollows.origin _ hi with hi | hi
      · rcases hvisits.origin _ hi with hi | hi | ⟨n, hn, hi | ⟨-, hi⟩⟩
        · exact hmono _ (hw.stack outer houter o ho i (hstack ▸ .tail _ hi))
        · exact hmono _ (haround outer houter (m.operands_visible outer houter o ho op hop i hi))
        · have hin : n ∈ allOpsInRegionTree outer :=
            m.operands_visible outer houter o ho n (Module.nested_mem hop hn) i hi
          exact hvisited outer houter n hin (htree n hn)
        · obtain ⟨j, -, hj⟩ := mem_results.mp hi
          obtain rfl := Module.eq_of_id homem (Module.nested_mem hop hn) (Value.result.inj hj).1
          exact hvisited outer houter o ho (htree o hn)
      · obtain ⟨f, hf, hmem⟩ := hi.mem_returns
        exact absurd ho (Module.returns_visible hf hmem houter)
    · by_cases hold : o.id ∈ w.visited
      · exact hcovered v (hw.results outer houter o ho hold hcall v hv)
      · rw [hfollows.visited] at hid
        rcases mem_cons.mp (hvisits.fresh hop (Module.nested_mem houter ho) hid hold) with rfl | hin
        · exact absurd (hs.nested outer houter (haround outer houter ho) o ho) hold
        · exact .inl (hfollows.stack v (hvisits.results o hin hold hcall v hv))

/-- The walk stays in what another one, that ended, reached. -/
structure Within (m : Module) (ended w : Walk) : Prop where
  visited : ∀ id ∈ w.visited, id ∈ ended.visited
  stack : ∀ v ∈ w.stack, Handled m ended v

theorem Within.step {ended : Walk} (hs : Settled m ended) (he : Enclosed m ended)
    (hdone : ended.stack = []) (hw : Within m ended w) (h : Passes m w t) : Within m ended t := by
  have hhandled : ∀ v, Covered m ended v → Handled m ended v := by
    intro v hv
    refine hv.resolve_left ?_
    rw [hdone]
    exact not_mem_nil
  cases h with
  | argument index rest hstack ht =>
    subst ht
    exact ⟨hw.visited, fun v hv => hw.stack v (hstack ▸ .tail _ hv)⟩
  | result op index rest u hstack hop hvisits hfollows =>
    have htop : Handled m ended (.result op.id index) :=
      hw.stack _ (hstack ▸ mem_cons_self ..)
    have htree : ∀ o ∈ allOpsInRegionTree op, o.id ∈ ended.visited := hs.nested op hop htop.1
    refine ⟨fun id hid => ?_, fun v hv => ?_⟩
    · rw [hfollows.visited] at hid
      rcases (hvisits.visited id).mp hid with hold | rfl | hin
      · exact hw.visited id hold
      · exact htop.1
      · obtain ⟨o, ho, rfl⟩ := mem_map.mp hin
        exact htree o ho
    · rcases hfollows.origin v hv with hv | hv
      · rcases hvisits.origin v hv with hv | hv | ⟨o, ho, hv | ⟨hcall, hv⟩⟩
        · exact hw.stack v (hstack ▸ .tail _ hv)
        · exact hhandled v (hs.operands op hop htop.1 v hv)
        · exact hhandled v (hs.operands o (Module.nested_mem hop ho) (htree o ho) v hv)
        · exact hhandled v (he.results op hop o ho (htree o ho) hcall v hv)
      · exact hhandled v (hs.callee op hop index v (htop.2 op hop rfl hv.isSome) hv)

/-- The slice of a value lies in that of any value that depends on it, for values that functions
return. -/
theorem slice_subset {f g : Func} (hf : f ∈ m.funcs) (hg : g ∈ m.funcs) {v u : Value}
    (hv : v ∈ f.returns) (hu : u ∈ g.returns) (h : DependsOn m v u) :
    ∃ ops sub, backwardSliceOps m v = .ok (some ops) ∧ backwardSliceOps m u = .ok (some sub) ∧
      sub ⊆ ops := by
  obtain ⟨ended, hended, hs, he, hdone, hhandled⟩ := backwardSliceOps_ends
    (Module.returns_valid hf hv) (enclosed_start hf hv) fun w t hs hI hpass => hI.step hs hpass
  have hreached : Reached m ended (.value u) := reached_of_flows hs hdone hhandled h
  have hstart : Within m ended { stack := [u] } :=
    ⟨fun _ h => absurd h not_mem_nil, fun _ h => mem_singleton.mp h ▸ hreached⟩
  obtain ⟨t, ht, -, hwithin, -, -⟩ := backwardSliceOps_ends (Module.returns_valid hg hu) hstart
    fun w t _ hI hpass => hI.step hs he hdone hpass
  exact ⟨ended.visited, t.visited, hended, ht, hwithin.visited⟩

/-- **Whatever can influence a value is in its slice.** -/
theorem backwardSliceOps_sound (hv : ValidIn m.funcs v) :
    ∃ ops, backwardSliceOps m v = .ok (some ops) ∧ (∀ id ∈ ops, id ∈ m.allOps.map Op.id) ∧
      ∀ op, Influences m v op → op ∈ m.allOps ∧ op.id ∈ ops := by
  obtain ⟨ended, hended, hs, -, hdone, hhandled⟩ :=
    backwardSliceOps_ends (I := fun _ => True) hv trivial fun _ _ _ _ _ => trivial
  refine ⟨ended.visited, hended, hs.listed, fun op hop => ?_⟩
  have hreached : Reached m ended (.op op) := reached_of_flows hs hdone hhandled hop
  exact hreached

/-! ### Checks of probes -/

theorem indicesOf_ok {ops : List OpId} (h : ∀ id ∈ ops, id ∈ m.allOps.map Op.id) :
    ∃ indices, indicesOf m ops = .ok indices := by
  induction ops with
  | nil => exact ⟨[], rfl⟩
  | cons id rest ih =>
    obtain ⟨indices, hindices⟩ := ih fun id hid => h id (mem_cons_of_mem _ hid)
    obtain ⟨op, hop, hid⟩ := mem_map.mp (h id (mem_cons_self ..))
    cases hfind : m.allOps.findIdx? fun op => op.id = id with
    | none =>
      have hnone := findIdx?_eq_none_iff.mp hfind op hop
      exact absurd hid (of_decide_eq_false hnone)
    | some index => exact ⟨index :: indices, by rw [indicesOf, hfind, hindices]; rfl⟩

theorem mem_indicesOf {ops : List OpId} {indices : List Nat}
    (h : indicesOf m ops = .ok indices) (i : Nat) : i ∈ indices ↔
      ∃ id ∈ ops, (m.allOps.findIdx? fun op => op.id = id) = some i := by
  induction ops generalizing indices with
  | nil =>
    obtain rfl := ok.inj h
    simp
  | cons id rest ih =>
    rw [indicesOf] at h
    cases hfind : m.allOps.findIdx? fun op => op.id = id with
    | none =>
      rw [hfind] at h
      exact nomatch h
    | some index =>
      rw [hfind] at h
      cases hrest : indicesOf m rest with
      | error e =>
        rw [hrest] at h
        exact nomatch h
      | ok found =>
        rw [hrest] at h
        obtain rfl := ok.inj h
        rw [mem_cons, ih hrest, exists_mem_cons_iff, hfind, some_inj, eq_comm]

theorem sliceIndices_ok (hv : ValidIn m.funcs v) :
    ∃ ops indices, backwardSliceOps m v = .ok (some ops) ∧ indicesOf m ops = .ok indices ∧
      sliceIndices m v = .ok indices := by
  obtain ⟨ops, hops, hlisted, -⟩ := backwardSliceOps_sound hv
  obtain ⟨indices, hindices⟩ := indicesOf_ok hlisted
  exact ⟨ops, indices, hops, hindices, by rw [sliceIndices, hops]; exact hindices⟩

theorem sliceIndices_subset (hf : f ∈ m.funcs) {v u : Value} (hv : v ∈ f.returns)
    (hu : u ∈ f.returns) (h : DependsOn m v u) {sv su : List Nat} (hsv : sliceIndices m v = .ok sv)
    (hsu : sliceIndices m u = .ok su) : su ⊆ sv := by
  obtain ⟨ops, sub, hops, hsub, hle⟩ := slice_subset hf hf hv hu h
  rw [sliceIndices, hops] at hsv
  rw [sliceIndices, hsub] at hsu
  intro i hi
  obtain ⟨id, hid, hfind⟩ := (mem_indicesOf hsu i).mp hi
  exact (mem_indicesOf hsv i).mpr ⟨id, hle hid, hfind⟩

theorem entryFunc_mem (h : m.entryFunc = some f) : f ∈ m.funcs := by
  unfold Module.entryFunc at h
  cases hfuncs : m.funcs with
  | nil =>
    rw [hfuncs] at h
    exact nomatch h
  | cons g rest =>
    rw [hfuncs] at h
    cases rest with
    | nil => exact some.inj h ▸ mem_cons_self ..
    | cons g' rest =>
      rcases or_eq_some_iff.mp h with h | ⟨-, h⟩
      · exact mem_of_find?_eq_some h
      · exact some.inj h ▸ mem_cons_self ..

theorem probeOperand_ok {name target : String} (h : probeOperand f name target = .ok v) :
    ∃ index, f.resultInfos.idxOf? target = some index ∧ f.returns[index]? = some v := by
  unfold probeOperand at h
  cases hindex : f.resultInfos.idxOf? target with
  | none =>
    rw [hindex] at h
    exact nomatch h
  | some index =>
    rw [hindex] at h
    cases hget : f.returns[index]? with
    | none =>
      simp only [hget] at h
      exact nomatch h
    | some u =>
      simp only [hget] at h
      exact ⟨index, rfl, hget.trans (congrArg some (ok.inj h))⟩

theorem computeSlices_lookup (h : computeSlices m f paths = .ok slices) {name : String}
    {slice : List Nat} (hslice : slices.lookup name = some slice) :
    ∃ target index v, paths.lookup name = some target ∧
      f.resultInfos.idxOf? target = some index ∧ f.returns[index]? = some v ∧
      sliceIndices m v = .ok slice := by
  induction paths generalizing slices with
  | nil =>
    obtain rfl := Except.ok.inj h
    exact nomatch hslice
  | cons entry rest ih =>
    obtain ⟨key, target⟩ := entry
    rw [computeSlices] at h
    cases hoperand : probeOperand f key target with
    | error e =>
      rw [hoperand] at h
      exact nomatch h
    | ok v =>
      rw [hoperand] at h
      cases hindices : sliceIndices m v with
      | error e =>
        simp only [bind, Except.bind, hindices] at h
        exact nomatch h
      | ok indices =>
        cases hrest : computeSlices m f rest with
        | error e =>
          simp only [bind, Except.bind, hindices, hrest] at h
          exact nomatch h
        | ok later =>
          simp only [bind, Except.bind, hindices, hrest] at h
          obtain rfl := Except.ok.inj h
          rw [lookup_cons] at hslice ⊢
          by_cases hname : name = key
          · obtain rfl := hname
            rw [beq_self_eq_true] at hslice ⊢
            obtain ⟨index, hidx, hget⟩ := probeOperand_ok hoperand
            exact ⟨target, index, v, rfl, hidx, hget, some.inj hslice ▸ hindices⟩
          · rw [beq_false_of_ne hname] at hslice ⊢
            exact ih hrest hslice

theorem computeSlices_names (h : computeSlices m f paths = .ok slices) :
    slices.map Prod.fst = paths.map Prod.fst := by
  induction paths generalizing slices with
  | nil =>
    obtain rfl := ok.inj h
    rfl
  | cons entry rest ih =>
    obtain ⟨v, -, h⟩ := Results.bind_eq_ok.mp h
    obtain ⟨slice, -, h⟩ := Results.bind_eq_ok.mp h
    obtain ⟨later, hlater, h⟩ := Results.bind_eq_ok.mp h
    obtain rfl := ok.inj h
    rw [map_cons, map_cons, ih hlater]

theorem probeOperand_error {name target : String} (h : probeOperand f name target = .error e) :
    (e = .noResult name target ∧ target ∉ f.resultInfos) ∨
      ∃ index, e = .noOperand index ∧ f.returns.length ≤ index := by
  unfold probeOperand at h
  split at h
  · rename_i hindex
    exact .inl ⟨(error.inj h).symm, idxOf?_eq_none_iff.mp hindex⟩
  · split at h
    · rename_i hget
      exact .inr ⟨_, (error.inj h).symm, getElem?_eq_none_iff.mp hget⟩
    · cases h

theorem computeSlices_error (hf : f ∈ m.funcs) (h : computeSlices m f paths = .error e) :
    (∃ name target, e = .noResult name target ∧ (name, target) ∈ paths ∧
      target ∉ f.resultInfos) ∨ ∃ index, e = .noOperand index ∧ f.returns.length ≤ index := by
  induction paths with
  | nil => cases h
  | cons entry rest ih =>
    obtain ⟨key, target⟩ := entry
    rw [computeSlices] at h
    cases hoperand : probeOperand f key target with
    | error e' =>
      rw [hoperand] at h
      obtain rfl := Except.error.inj h
      refine (probeOperand_error hoperand).imp_left fun hnone => ?_
      exact ⟨key, target, hnone.1, mem_cons_self, hnone.2⟩
    | ok v =>
      obtain ⟨index, -, hget⟩ := probeOperand_ok hoperand
      obtain ⟨-, indices, -, -, hindices⟩ :=
        sliceIndices_ok (Module.returns_valid hf (mem_of_getElem? hget))
      simp only [hoperand, bind, Except.bind, hindices] at h
      cases hrest : computeSlices m f rest with
      | error e' =>
        rw [hrest] at h
        obtain rfl := Except.error.inj h
        refine (ih hrest).imp_left fun hnone => ?_
        obtain ⟨name, target', he, hmem, hnot⟩ := hnone
        exact ⟨name, target', he, mem_cons_of_mem _ hmem, hnot⟩
      | ok later =>
        rw [hrest] at h
        cases h

/-- The edge that is rejected is declared: a name of it has no slice, or the slices are not in each
other. -/
theorem checkEdges_error {edges : List (String × String)} (h : checkEdges slices edges = .error e) :
    (∃ pred probe, e = .missing pred probe ∧ (pred, probe) ∈ edges ∧
      (slices.lookup pred = none ∨ slices.lookup probe = none)) ∨
      ∃ pred probe predSlice probeSlice, e = .dependency pred probe predSlice probeSlice ∧
        (pred, probe) ∈ edges ∧ slices.lookup pred = some predSlice ∧
        slices.lookup probe = some probeSlice ∧ ¬predSlice ⊆ probeSlice := by
  induction edges with
  | nil => exact nomatch h
  | cons edge rest ih =>
    obtain ⟨pred, probe⟩ := edge
    unfold checkEdges at h
    split at h
    · rename_i predSlice probeSlice hpred hprobe
      split at h
      · rcases ih h with ⟨p, q, he, hmem, hnone⟩ | ⟨p, q, sp, sq, he, hmem, hslices⟩
        · exact .inl ⟨p, q, he, mem_cons_of_mem _ hmem, hnone⟩
        · exact .inr ⟨p, q, sp, sq, he, mem_cons_of_mem _ hmem, hslices⟩
      · rename_i hsubset
        exact .inr ⟨pred, probe, predSlice, probeSlice, (error.inj h).symm, mem_cons_self, hpred,
          hprobe, hsubset⟩
    · rename_i hmissing
      refine .inl ⟨pred, probe, (error.inj h).symm, mem_cons_self, ?_⟩
      cases hpred : slices.lookup pred with
      | none => exact .inl rfl
      | some sp =>
        cases hprobe : slices.lookup probe with
        | none => exact .inr rfl
        | some sq => exact (hmissing sp sq hpred hprobe).elim

/-- The edge is declared. -/
def Declared (probeDeps : List (String × List String)) (pred probe : String) : Prop :=
  ∃ entry ∈ probeDeps, entry.1 = probe ∧ pred ∈ entry.2

/-- What may be raised: there is no entry function, a path or an edge names what is not there, or a
declared edge is no dependency. -/
def Justified (m : Module) (probeDeps : List (String × List String))
    (paths : List (String × String)) : ProbeError → Prop
  | .noEntry => m.entryFunc = none
  | .noResult name target => (name, target) ∈ paths ∧
      ∀ f, m.entryFunc = some f → target ∉ f.resultInfos
  | .noOperand index => ∃ f, m.entryFunc = some f ∧ f.returns.length ≤ index
  | .missing pred probe => Declared probeDeps pred probe ∧
      (pred ∉ paths.map Prod.fst ∨ probe ∉ paths.map Prod.fst)
  | .slice _ | .unfinished | .noIndex _ => False
  | .dependency pred probe _ _ => Declared probeDeps pred probe ∧
      ∃ v u, probeValue m paths probe = some v ∧ probeValue m paths pred = some u ∧
        ¬DependsOn m v u

theorem computeProbeSlices_lookup (h : computeProbeSlices m paths = .ok slices) {name : String}
    {slice : List Nat} (hslice : slices.lookup name = some slice) :
    ∃ f v, f ∈ m.funcs ∧ probeValue m paths name = some v ∧ v ∈ f.returns ∧
      m.entryFunc = some f ∧ sliceIndices m v = .ok slice := by
  unfold computeProbeSlices at h
  cases hentry : m.entryFunc with
  | none =>
    rw [hentry] at h
    exact nomatch h
  | some f =>
    rw [hentry] at h
    obtain ⟨target, index, v, htarget, hindex, hget, hv⟩ := computeSlices_lookup h hslice
    refine ⟨f, v, entryFunc_mem hentry, ?_, mem_of_getElem? hget, rfl, hv⟩
    simp only [probeValue, hentry, htarget, hindex, bind, Option.bind, hget]

theorem computeProbeSlices_names (h : computeProbeSlices m paths = .ok slices) :
    slices.map Prod.fst = paths.map Prod.fst := by
  unfold computeProbeSlices at h
  split at h
  · cases h
  · exact computeSlices_names h

theorem computeProbeSlices_sound (h : computeProbeSlices m paths = .ok slices) {name : String}
    {slice : List Nat} (hslice : slices.lookup name = some slice) {v : Value}
    (hv : probeValue m paths name = some v) {op : Op} (hop : Influences m v op) :
    ∃ i ∈ slice, m.allOps[i]? = some op := by
  obtain ⟨f, v', hf, hv', hmem, -, hindices⟩ := computeProbeSlices_lookup h hslice
  obtain rfl := some.inj (hv.symm.trans hv')
  obtain ⟨ops, hops, -, hsound⟩ := backwardSliceOps_sound (Module.returns_valid hf hmem)
  rw [sliceIndices, hops] at hindices
  obtain ⟨hlisted, hid⟩ := hsound op hop
  cases hfind : m.allOps.findIdx? fun o => o.id = op.id with
  | none => exact absurd rfl (of_decide_eq_false (findIdx?_eq_none_iff.mp hfind op hlisted))
  | some i =>
    obtain ⟨hi, hsame, -⟩ := findIdx?_eq_some_iff_getElem.mp hfind
    refine ⟨i, (mem_indicesOf hindices i).mpr ⟨op.id, hid, hfind⟩, ?_⟩
    rw [getElem?_eq_getElem hi,
      Module.eq_of_id (getElem_mem hi) hlisted (of_decide_eq_true hsame)]

theorem computeProbeSlices_subset (h : computeProbeSlices m paths = .ok slices)
    {pred probe : String} {sp sq : List Nat} (hp : slices.lookup pred = some sp)
    (hq : slices.lookup probe = some sq) {v u : Value} (hv : probeValue m paths probe = some v)
    (hu : probeValue m paths pred = some u) (hdepends : DependsOn m v u) : sp ⊆ sq := by
  obtain ⟨f, v', hf, hv', hmem, hentry, hsq⟩ := computeProbeSlices_lookup h hq
  obtain ⟨g, u', -, hu', hmem', hentry', hsp⟩ := computeProbeSlices_lookup h hp
  obtain rfl := some.inj (hv.symm.trans hv')
  obtain rfl := some.inj (hu.symm.trans hu')
  obtain rfl := some.inj (hentry.symm.trans hentry')
  exact sliceIndices_subset hf hmem hmem' hdepends hsq hsp

theorem not_mem_of_lookup (h : slices.map Prod.fst = paths.map Prod.fst) {name : String}
    (hnone : slices.lookup name = none) : name ∉ paths.map Prod.fst := by
  rw [← h]
  intro hmem
  obtain ⟨slice, hslice, rfl⟩ := mem_map.mp hmem
  have := lookup_eq_none_iff.mp hnone slice hslice
  simp at this

theorem validateProbeDeps_justified {probeDeps : List (String × List String)}
    (h : validateProbeDeps m probeDeps paths = .error e) : Justified m probeDeps paths e := by
  unfold validateProbeDeps at h
  cases hslices : computeProbeSlices m paths with
  | error e' =>
    rw [hslices] at h
    obtain rfl := error.inj h
    unfold computeProbeSlices at hslices
    cases hentry : m.entryFunc with
    | none =>
      rw [hentry] at hslices
      obtain rfl := error.inj hslices
      exact hentry
    | some f =>
      rw [hentry] at hslices
      rcases computeSlices_error (entryFunc_mem hentry) hslices with
        ⟨name, target, rfl, hmem, hnot⟩ | ⟨index, rfl, hle⟩
      · exact ⟨hmem, fun g hg => some.inj (hentry.symm.trans hg) ▸ hnot⟩
      · exact ⟨f, hentry, hle⟩
  | ok slices =>
    rw [hslices] at h
    have hdeclared : ∀ pred probe, (pred, probe) ∈ (probeDeps.flatMap fun entry =>
        entry.2.map fun pred => (pred, entry.1)) → Declared probeDeps pred probe := by
      intro pred probe hmem
      obtain ⟨entry, hentry, hmem⟩ := mem_flatMap.mp hmem
      obtain ⟨p, hp, heq⟩ := mem_map.mp hmem
      obtain ⟨rfl, rfl⟩ := Prod.mk.inj heq
      exact ⟨entry, hentry, rfl, hp⟩
    have hnames := computeProbeSlices_names hslices
    rcases checkEdges_error h with ⟨pred, probe, rfl, hmem, hnone⟩ |
      ⟨pred, probe, sp, sq, rfl, hmem, hp, hq, hnot⟩
    · exact ⟨hdeclared _ _ hmem, hnone.imp (not_mem_of_lookup hnames) (not_mem_of_lookup hnames)⟩
    · obtain ⟨-, u, -, hu, -⟩ := computeProbeSlices_lookup hslices hp
      obtain ⟨-, v, -, hv, -⟩ := computeProbeSlices_lookup hslices hq
      exact ⟨hdeclared _ _ hmem, v, u, hv, hu, fun hdepends =>
        hnot (computeProbeSlices_subset hslices hp hq hv hu hdepends)⟩

/-- **Backward slices are sound and closed.**  A slice has what can influence its value, for a value
alone and for each of the probes with a path; slices of probes are nested as the probes depend on
each other; and what `validate_probe_deps` raises is about what is not there, or about a declared
edge that is no dependency. -/
theorem slices_sound (m : Module) :
    (∀ v, ValidIn m.funcs v → ∃ ops, backwardSliceOps m v = .ok (some ops) ∧
      ∀ op, Influences m v op → op.id ∈ ops) ∧
    (∀ paths slices, computeProbeSlices m paths = .ok slices →
      slices.map Prod.fst = paths.map Prod.fst ∧
      (∀ name slice v, slices.lookup name = some slice → probeValue m paths name = some v →
        ∀ op, Influences m v op → ∃ i ∈ slice, m.allOps[i]? = some op) ∧
      ∀ pred probe u v sp sq, probeValue m paths pred = some u → probeValue m paths probe = some v →
        DependsOn m v u → slices.lookup pred = some sp → slices.lookup probe = some sq →
        sp ⊆ sq) ∧
    ∀ probeDeps paths e, validateProbeDeps m probeDeps paths = .error e →
      Justified m probeDeps paths e := by
  refine ⟨fun v hv => ?_, fun paths slices h => ⟨computeProbeSlices_names h, ?_, ?_⟩,
    fun probeDeps paths e h => validateProbeDeps_justified h⟩
  · obtain ⟨ops, hops, -, hsound⟩ := backwardSliceOps_sound hv
    exact ⟨ops, hops, fun op hop => (hsound op hop).2⟩
  · exact fun name slice v hslice hv op hop => computeProbeSlices_sound h hslice hv hop
  · exact fun pred probe u v sp sq hu hv hdepends hp hq =>
      computeProbeSlices_subset h hp hq hv hu hdepends

/-- A call, and a loop that uses its result in its body. -/
def sampleModule : Module where
  funcs := [
    { symName := "main", resultInfos := ["result.a", "result.b"], body := [
        .mk 0 (some "g") [.blockArgument 0] 1 [],
        .mk 1 none [.result 0 0] 1 [[[
          .mk 2 none [.result 0 0, .blockArgument 0] 1 [],
          .mk 3 none [.result 2 0] 0 []]]],
        .mk 4 none [.result 0 0, .result 1 0] 0 []] },
    { symName := "g", body := [
        .mk 5 none [.blockArgument 0] 1 [],
        .mk 6 none [.result 5 0] 0 []] }]
  ids_nodup := by decide
  operands_valid := by
    simp [allModuleOps, Func.allOps, allOpsInRegionTree, opsOfRegions, opsOfRegion, opsOfBlock,
      Op.operands, ValidIn, Op.id, Op.numResults]
  operands_visible := by
    simp [allModuleOps, Func.allOps, allOpsInRegionTree, opsOfRegions, opsOfRegion, opsOfBlock,
      Op.operands, Op.id]
  body_ne_nil := by simp
  calls_resolve := by
    simp [allModuleOps, Func.allOps, allOpsInRegionTree, opsOfRegions, opsOfRegion, opsOfBlock,
      Op.callee, resolveFunc, Func.returns, Op.operands, Op.numResults]

/-- The two results of `main`. -/
def samplePaths : List (String × String) := [("a", "result.a"), ("b", "result.b")]

theorem slices_sound_sample :
    (∃ ops, backwardSliceOps sampleModule (.result 1 0) = .ok (some ops) ∧
      ∀ op, Influences sampleModule (.result 1 0) op → op.id ∈ ops) ∧
    (∃ slices sp sq, computeProbeSlices sampleModule samplePaths = .ok slices ∧
      slices.lookup "a" = some sp ∧ slices.lookup "b" = some sq ∧ sp ⊆ sq) ∧
    ∃ sp sq, Justified sampleModule [("b", ["a"]), ("a", ["b"])] samplePaths
      (.dependency "b" "a" sp sq) := by
  obtain ⟨hslice, hprobes, herrors⟩ := slices_sound sampleModule
  -- the loop, and the call whose result it uses
  have hloop : ∃ op ∈ sampleModule.allOps, op.id = 1 ∧ 0 < op.numResults ∧
      .result 0 0 ∈ op.operands :=
    ⟨.mk 1 none [.result 0 0] 1 [[[.mk 2 none [.result 0 0, .blockArgument 0] 1 [],
      .mk 3 none [.result 2 0] 0 []]]],
      by simp [sampleModule, Module.allOps, allModuleOps, Func.allOps], rfl, by decide, by decide⟩
  obtain ⟨loop, hmem, hid, hresult, hoperand⟩ := hloop
  have hdepends : DependsOn sampleModule (.result 1 0) (.result 0 0) :=
    hid ▸ .head (.owner hmem) (.single (.operand hoperand))
  refine ⟨hslice (.result 1 0) ⟨loop, hmem, hid, hresult⟩, ?_, _, _, herrors _ _ _ rfl⟩
  obtain ⟨-, -, hnested⟩ := hprobes samplePaths _ rfl
  exact ⟨_, _, _, rfl, rfl, rfl, hnested "a" "b" (.result 0 0) (.result 1 0) _ _ rfl rfl hdepends
    rfl rfl⟩

end Xtrax.Slices
