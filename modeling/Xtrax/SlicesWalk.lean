import Xtrax.Slices

/-!
# The walk over a module

How the operations of a module are nested, and what one visit does to the stack and to the marks
(`Visits`).
-/

namespace Xtrax.Slices

open List Worklist

/-! ### Nested operations -/

mutual

theorem mem_tree_trans {o x : Op} (hx : x ∈ allOpsInRegionTree o) :
    ∀ outer : Op, o ∈ allOpsInRegionTree outer → x ∈ allOpsInRegionTree outer
  | .mk _ _ _ _ regions, ho => mem_regions_trans hx regions ho

theorem mem_regions_trans {o x : Op} (hx : x ∈ allOpsInRegionTree o) :
    ∀ regions : List (List (List Op)), o ∈ opsOfRegions regions → x ∈ opsOfRegions regions
  | [], ho => absurd ho not_mem_nil
  | region :: rest, ho => by
    rw [opsOfRegions, mem_append] at ho ⊢
    exact ho.imp (mem_region_trans hx region) (mem_regions_trans hx rest)

theorem mem_region_trans {o x : Op} (hx : x ∈ allOpsInRegionTree o) :
    ∀ region : List (List Op), o ∈ opsOfRegion region → x ∈ opsOfRegion region
  | [], ho => absurd ho not_mem_nil
  | block :: rest, ho => by
    rw [opsOfRegion, mem_append] at ho ⊢
    exact ho.imp (mem_block_trans hx block) (mem_region_trans hx rest)

theorem mem_block_trans {o x : Op} (hx : x ∈ allOpsInRegionTree o) :
    ∀ block : List Op, o ∈ opsOfBlock block → x ∈ opsOfBlock block
  | [], ho => absurd ho not_mem_nil
  | nested :: rest, ho => by
    rw [opsOfBlock, mem_cons, mem_append] at ho ⊢
    rcases ho with rfl | ho | ho
    · exact .inr (.inl hx)
    · exact .inr (.inl (mem_tree_trans hx nested ho))
    · exact .inr (.inr (mem_block_trans hx rest ho))

end

mutual

theorem sizeOf_tree {o : Op} : ∀ outer : Op, o ∈ allOpsInRegionTree outer →
    sizeOf o < sizeOf outer
  | .mk _ _ _ _ regions, ho => by
    have hlt := sizeOf_regions regions ho
    rw [Op.mk.sizeOf_spec]
    omega

theorem sizeOf_regions {o : Op} : ∀ regions : List (List (List Op)), o ∈ opsOfRegions regions →
    sizeOf o < sizeOf regions
  | [], ho => absurd ho not_mem_nil
  | region :: rest, ho => by
    rw [opsOfRegions, mem_append] at ho
    rw [cons.sizeOf_spec]
    rcases ho with ho | ho
    · have hlt := sizeOf_region region ho
      omega
    · have hlt := sizeOf_regions rest ho
      omega

theorem sizeOf_region {o : Op} : ∀ region : List (List Op), o ∈ opsOfRegion region →
    sizeOf o < sizeOf region
  | [], ho => absurd ho not_mem_nil
  | block :: rest, ho => by
    rw [opsOfRegion, mem_append] at ho
    rw [cons.sizeOf_spec]
    rcases ho with ho | ho
    · have hlt := sizeOf_block block ho
      omega
    · have hlt := sizeOf_region rest ho
      omega

theorem sizeOf_block {o : Op} : ∀ block : List Op, o ∈ opsOfBlock block → sizeOf o < sizeOf block
  | [], ho => absurd ho not_mem_nil
  | nested :: rest, ho => by
    rw [opsOfBlock, mem_cons, mem_append] at ho
    rw [cons.sizeOf_spec]
    rcases ho with rfl | ho | ho
    · omega
    · have hlt := sizeOf_tree nested ho
      omega
    · have hlt := sizeOf_block rest ho
      omega

end

theorem not_mem_tree_self (op : Op) : op ∉ allOpsInRegionTree op :=
  fun h => Nat.lt_irrefl _ (sizeOf_tree op h)

/-- Regions are nested in each other or disjoint. -/
def Laminar (ops : List Op) : Prop :=
  ∀ a ∈ ops, ∀ b ∈ ops, ∀ o, o ∈ allOpsInRegionTree a → o ∈ allOpsInRegionTree b →
    a = b ∨ a ∈ allOpsInRegionTree b ∨ b ∈ allOpsInRegionTree a

/-- What is nested in one of the operations is among them. -/
def TreeClosed (ops : List Op) : Prop := ∀ a ∈ ops, ∀ o ∈ allOpsInRegionTree a, o ∈ ops

theorem Laminar.append {xs ys : List Op} (hx : Laminar xs) (hy : Laminar ys)
    (hcx : TreeClosed xs) (hcy : TreeClosed ys) (hdisjoint : List.Disjoint xs ys) :
    Laminar (xs ++ ys) := by
  intro a ha b hb o hoa hob
  rcases mem_append.mp ha with ha | ha <;> rcases mem_append.mp hb with hb | hb
  · exact hx a ha b hb o hoa hob
  · exact absurd (hcy b hb o hob) (hdisjoint (hcx a ha o hoa))
  · exact absurd (hcy a ha o hoa) (hdisjoint (hcx b hb o hob))
  · exact hy a ha b hb o hoa hob

theorem laminar_nil : Laminar [] := fun _ h => absurd h not_mem_nil

theorem Laminar.cons {op : Op} (h : Laminar (allOpsInRegionTree op)) :
    Laminar (op :: allOpsInRegionTree op) := by
  intro a ha b hb o hoa hob
  rcases mem_cons.mp ha with rfl | ha
  · rcases mem_cons.mp hb with rfl | hb
    · exact .inl rfl
    · exact .inr (.inr hb)
  · rcases mem_cons.mp hb with rfl | hb
    · exact .inr (.inl ha)
    · exact h a ha b hb o hoa hob

theorem treeClosed_tree (op : Op) : TreeClosed (allOpsInRegionTree op) :=
  fun _ ha _ ho => mem_tree_trans ho op ha

theorem treeClosed_cons (op : Op) : TreeClosed (op :: allOpsInRegionTree op) := by
  intro a ha o ho
  rcases mem_cons.mp ha with rfl | ha
  · exact mem_cons_of_mem _ ho
  · exact mem_cons_of_mem _ (treeClosed_tree op a ha o ho)

mutual

theorem laminar_tree : ∀ op : Op, (allOpsInRegionTree op).Nodup → Laminar (allOpsInRegionTree op)
  | .mk _ _ _ _ regions, h => laminar_regions regions h

theorem laminar_regions : ∀ regions : List (List (List Op)), (opsOfRegions regions).Nodup →
    Laminar (opsOfRegions regions)
  | [], _ => laminar_nil
  | region :: rest, h => by
    rw [opsOfRegions, nodup_append'] at h
    exact (laminar_region region h.1).append (laminar_regions rest h.2.1)
      (fun _ ha _ ho => mem_region_trans ho region ha)
      (fun _ ha _ ho => mem_regions_trans ho rest ha) h.2.2

theorem laminar_region : ∀ region : List (List Op), (opsOfRegion region).Nodup →
    Laminar (opsOfRegion region)
  | [], _ => laminar_nil
  | block :: rest, h => by
    rw [opsOfRegion, nodup_append'] at h
    exact (laminar_block block h.1).append (laminar_region rest h.2.1)
      (fun _ ha _ ho => mem_block_trans ho block ha)
      (fun _ ha _ ho => mem_region_trans ho rest ha) h.2.2

theorem laminar_block : ∀ block : List Op, (opsOfBlock block).Nodup → Laminar (opsOfBlock block)
  | [], _ => laminar_nil
  | nested :: rest, h => by
    rw [opsOfBlock, ← cons_append, nodup_append'] at h
    have hnested : Laminar (nested :: allOpsInRegionTree nested) :=
      (laminar_tree nested (nodup_cons.mp h.1).2).cons
    exact hnested.append (laminar_block rest h.2.1) (treeClosed_cons nested)
      (fun _ ha _ ho => mem_block_trans ho rest ha) h.2.2

end

theorem opsOfBlock_perm (block : List Op) :
    (opsOfBlock block).Perm (block ++ block.flatMap allOpsInRegionTree) := by
  induction block with
  | nil => exact .refl _
  | cons op rest ih =>
    rw [opsOfBlock, flatMap_cons, cons_append]
    refine .cons op ((ih.append_left _).trans ?_)
    rw [← append_assoc, ← append_assoc]
    exact perm_append_comm.append_right _

theorem opsOfBlock_append (xs ys : List Op) :
    opsOfBlock (xs ++ ys) = opsOfBlock xs ++ opsOfBlock ys := by
  induction xs with
  | nil => rfl
  | cons op rest ih => rw [cons_append, opsOfBlock, opsOfBlock, ih, cons_append, append_assoc]

theorem allModuleOps_perm (funcs : List Func) :
    (allModuleOps funcs).Perm (opsOfBlock (funcs.flatMap Func.body)) := by
  induction funcs with
  | nil => exact .refl _
  | cons f rest ih =>
    rw [allModuleOps, flatMap_cons, flatMap_cons, opsOfBlock_append]
    exact (opsOfBlock_perm f.body).symm.append ih

theorem mem_allModuleOps {funcs : List Func} {op : Op} : op ∈ allModuleOps funcs ↔
    ∃ f ∈ funcs, op ∈ f.body ∨ ∃ outer ∈ f.body, op ∈ allOpsInRegionTree outer := by
  simp only [allModuleOps, Func.allOps, mem_flatMap, mem_append]

namespace Module

variable {m : Module} {op nested outer : Op}

theorem nested_mem (hop : op ∈ m.allOps) (hnested : nested ∈ allOpsInRegionTree op) :
    nested ∈ m.allOps := by
  obtain ⟨f, hf, hbody | ⟨outer, houter, hmem⟩⟩ := mem_allModuleOps.mp hop
  · exact mem_allModuleOps.mpr ⟨f, hf, .inr ⟨op, hbody, hnested⟩⟩
  · exact mem_allModuleOps.mpr ⟨f, hf, .inr ⟨outer, houter, mem_tree_trans hnested outer hmem⟩⟩

theorem eq_of_id (hop : op ∈ m.allOps) (houter : outer ∈ m.allOps) (h : op.id = outer.id) :
    op = outer :=
  inj_on_of_nodup_map m.ids_nodup hop houter h

theorem op?_eq_some {id : OpId} (hop : op ∈ m.allOps) (hid : op.id = id) : m.op? id = some op := by
  cases hfind : m.op? id with
  | none =>
    have hnone := find?_eq_none.mp hfind op hop
    exact absurd (decide_eq_true hid) hnone
  | some found =>
    have hfound : found.id = id := by simpa using find?_some hfind
    rw [eq_of_id (mem_of_find?_eq_some hfind) hop (hfound.trans hid.symm)]

theorem laminar (m : Module) : Laminar m.allOps := by
  have hperm := allModuleOps_perm m.funcs
  have hblock := laminar_block _ (hperm.nodup_iff.mp m.ids_nodup.of_map)
  intro a ha b hb
  exact hblock a (hperm.mem_iff.mp ha) b (hperm.mem_iff.mp hb)

theorem not_nested_of_body {f : Func} (hf : f ∈ m.funcs) (hop : op ∈ f.body)
    (houter : outer ∈ m.allOps) : op ∉ allOpsInRegionTree outer := by
  intro hnested
  obtain ⟨g, hg, top, htop, hin⟩ : ∃ g ∈ m.funcs, ∃ top ∈ g.body, op ∈ allOpsInRegionTree top := by
    obtain ⟨g, hg, hbody | ⟨top, htop, hmem⟩⟩ := mem_allModuleOps.mp houter
    · exact ⟨g, hg, outer, hbody, hnested⟩
    · exact ⟨g, hg, top, htop, mem_tree_trans hnested top hmem⟩
  have hnodup : (allModuleOps m.funcs).Nodup := m.ids_nodup.of_map
  rw [allModuleOps, nodup_flatMap] at hnodup
  have hbodyMem : op ∈ f.allOps := mem_append_left _ hop
  have hnestedMem : op ∈ g.body.flatMap allOpsInRegionTree :=
    mem_flatMap.mpr ⟨top, htop, hin⟩
  by_cases hfg : f = g
  · subst hfg
    exact disjoint_of_nodup_append (hnodup.1 f hf) hop hnestedMem
  · have : Std.Symm (Function.onFun List.Disjoint Func.allOps) := ⟨fun _ _ h _ ha hb => h hb ha⟩
    have hdisjoint := hnodup.2.forall hf hg hfg
    exact hdisjoint hbodyMem (mem_append_right _ hnestedMem)

theorem returns_visible {f : Func} (hf : f ∈ m.funcs) {owner : Op} {index : Nat}
    (hv : .result owner.id index ∈ f.returns) (houter : outer ∈ m.allOps) :
    owner ∉ allOpsInRegionTree outer := by
  intro howner
  unfold Func.returns at hv
  cases hlast : f.body.getLast? with
  | none =>
    rw [hlast] at hv
    exact absurd hv not_mem_nil
  | some last =>
    rw [hlast] at hv
    have hbody : last ∈ f.body := mem_of_getLast? hlast
    exact not_nested_of_body hf hbody houter (m.operands_visible outer houter owner howner last
      (mem_allModuleOps.mpr ⟨f, hf, .inl hbody⟩) index hv)

theorem returns_valid {f : Func} (hf : f ∈ m.funcs) {v : Value} (hv : v ∈ f.returns) :
    ValidIn m.funcs v := by
  unfold Func.returns at hv
  cases hlast : f.body.getLast? with
  | none =>
    rw [hlast] at hv
    exact absurd hv not_mem_nil
  | some last =>
    rw [hlast] at hv
    exact m.operands_valid last (mem_allModuleOps.mpr ⟨f, hf, .inl (mem_of_getLast? hlast)⟩) v hv

theorem mem_of_resolveFunc {symName : String} {f : Func}
    (h : resolveFunc m.funcs symName = some f) : f ∈ m.funcs :=
  mem_of_find?_eq_some h

end Module

theorem mem_results {op : Op} {v : Value} :
    v ∈ op.results ↔ ∃ index < op.numResults, v = .result op.id index := by
  simp [Op.results, eq_comm]

/-! ### Visits -/

/-- What it costs to mark operations and to look at what they add. -/
def Walk.cost (m : Module) (w : Walk) : Nat :=
  w.stack.length + remaining Op.id Op.weight m.allOps w.visited

/-- The operations `ops` were visited on the way from `u` to `t`. -/
structure Marks (m : Module) (ops : List Op) (u t : Walk) : Prop where
  followed : t.followed = u.followed
  visited : ∀ id, id ∈ t.visited ↔ id ∈ u.visited ∨ id ∈ ops.map Op.id
  stack : ∀ v ∈ u.stack, v ∈ t.stack
  operands : ∀ o ∈ ops, o.id ∉ u.visited → ∀ v ∈ o.operands, v ∈ t.stack
  results : ∀ o ∈ ops, o.id ∉ u.visited → o.callee.isSome = true → ∀ v ∈ o.results, v ∈ t.stack
  origin : ∀ v ∈ t.stack, v ∈ u.stack ∨
    ∃ o ∈ ops, v ∈ o.operands ∨ (o.callee.isSome = true ∧ v ∈ o.results)
  cost : t.cost m ≤ u.cost m

section

variable {m : Module} {op : Op} {u w t : Walk}

theorem marks_nil : Marks m [] u u where
  followed := rfl
  visited id := by simp
  stack _ h := h
  operands _ h := absurd h not_mem_nil
  results _ h := absurd h not_mem_nil
  origin _ h := .inl h
  cost := Nat.le_refl _

theorem cost_extend (values : List Value) : (u.extend values).cost m = u.cost m + values.length := by
  simp only [Walk.cost, Walk.extend, length_append, length_reverse]
  omega

theorem cost_mark (hop : op ∈ m.allOps) (hnew : op.id ∉ u.visited) :
    Walk.cost m { u with visited := op.id :: u.visited } + op.weight = u.cost m := by
  have hmark : remaining Op.id Op.weight m.allOps (op.id :: u.visited) + op.weight =
      remaining Op.id Op.weight m.allOps u.visited := remaining_mark m.ids_nodup hop hnew
  simp only [Walk.cost]
  omega

theorem mem_extend {values : List Value} {v : Value} :
    v ∈ (u.extend values).stack ↔ v ∈ values ∨ v ∈ u.stack := by
  simp [Walk.extend]

theorem visitNested_new (hnew : op.id ∉ u.visited) : u.visitNested op =
    (Walk.extend { u with visited := op.id :: u.visited } op.operands).extend
      (if op.callee.isSome then op.results else []) := by
  rw [Walk.visitNested, if_neg hnew]
  cases op.callee.isSome <;> rfl

theorem marks_visitNested (hop : op ∈ m.allOps) : Marks m [op] u (u.visitNested op) := by
  by_cases hvisited : op.id ∈ u.visited
  · rw [Walk.visitNested, if_pos hvisited]
    refine ⟨rfl, fun id => ?_, fun _ h => h, ?_, ?_, fun _ h => .inl h, Nat.le_refl _⟩
    · rw [map_singleton, mem_singleton]
      exact ⟨.inl, fun h => h.elim (fun h => h) fun he => he ▸ hvisited⟩
    · exact fun o ho hnew => absurd (mem_singleton.mp ho ▸ hvisited) hnew
    · exact fun o ho hnew => absurd (mem_singleton.mp ho ▸ hvisited) hnew
  · rw [visitNested_new hvisited]
    refine ⟨rfl, fun id => ?_, fun v hv => ?_, ?_, ?_, fun v hv => ?_, ?_⟩
    · rw [map_singleton, mem_singleton, or_comm]
      exact mem_cons
    · exact mem_extend.mpr (.inr (mem_extend.mpr (.inr hv)))
    · rintro o ho - v hv
      rw [mem_singleton.mp ho] at hv
      exact mem_extend.mpr (.inr (mem_extend.mpr (.inl hv)))
    · rintro o ho - hcall v hv
      rw [mem_singleton.mp ho] at hcall hv
      rw [if_pos hcall]
      exact mem_extend.mpr (.inl hv)
    · rcases mem_extend.mp hv with hv | hv
      · split at hv
        · exact .inr ⟨op, mem_singleton_self _, .inr ⟨‹_›, hv⟩⟩
        · exact absurd hv not_mem_nil
      · rcases mem_extend.mp hv with hv | hv
        · exact .inr ⟨op, mem_singleton_self _, .inl hv⟩
        · exact .inl hv
    · have hcost := cost_mark (u := u) hop hvisited
      have hpushed : (if op.callee.isSome then op.results else []).length ≤ op.numResults := by
        split <;> simp [Op.results]
      rw [cost_extend, cost_extend]
      unfold Op.weight at hcost
      omega

theorem Marks.append {ops ops' : List Op} (h : Marks m ops u w) (h' : Marks m ops' w t)
    (hops : ∀ o ∈ ops, o ∈ m.allOps) (hops' : ∀ o ∈ ops', o ∈ m.allOps) :
    Marks m (ops ++ ops') u t := by
  have hagain : ∀ o ∈ ops', o.id ∉ u.visited → o.id ∉ w.visited ∨ o ∈ ops := by
    intro o ho hnew
    by_cases hw : o.id ∈ w.visited
    · obtain ⟨o', ho', hid⟩ := mem_map.mp (((h.visited o.id).mp hw).resolve_left hnew)
      rw [← Module.eq_of_id (hops o' ho') (hops' o ho) hid]
      exact .inr ho'
    · exact .inl hw
  refine ⟨h'.followed.trans h.followed, fun id => ?_, fun v hv => h'.stack v (h.stack v hv),
    fun o ho hnew v hv => ?_, fun o ho hnew hcall v hv => ?_, fun v hv => ?_,
    Nat.le_trans h'.cost h.cost⟩
  · rw [h'.visited, h.visited, or_assoc, map_append, mem_append]
  · rcases mem_append.mp ho with ho | ho
    · exact h'.stack v (h.operands o ho hnew v hv)
    · rcases hagain o ho hnew with hw | ho'
      · exact h'.operands o ho hw v hv
      · exact h'.stack v (h.operands o ho' hnew v hv)
  · rcases mem_append.mp ho with ho | ho
    · exact h'.stack v (h.results o ho hnew hcall v hv)
    · rcases hagain o ho hnew with hw | ho'
      · exact h'.results o ho hw hcall v hv
      · exact h'.stack v (h.results o ho' hnew hcall v hv)
  · rcases h'.origin v hv with hw | ⟨o, ho, hfrom⟩
    · exact (h.origin v hw).imp_right fun ⟨o, ho, hfrom⟩ => ⟨o, mem_append_left _ ho, hfrom⟩
    · exact .inr ⟨o, mem_append_right _ ho, hfrom⟩

theorem marks_foldl {ops : List Op} (hops : ∀ o ∈ ops, o ∈ m.allOps) :
    Marks m ops u (ops.foldl Walk.visitNested u) := by
  induction ops generalizing u with
  | nil => exact marks_nil
  | cons o ops ih =>
    have ho : o ∈ m.allOps := hops o (mem_cons_self ..)
    have hrest : ∀ o ∈ ops, o ∈ m.allOps := fun o ho => hops o (mem_cons_of_mem _ ho)
    exact (marks_visitNested ho).append (ih hrest) (fun o' ho' => mem_singleton.mp ho' ▸ ho) hrest

/-- `op` was visited on the way from `w` to `t`, with all that is nested in it. -/
structure Visits (m : Module) (op : Op) (w t : Walk) : Prop where
  followed : t.followed = w.followed
  visited : ∀ id, id ∈ t.visited ↔
    id ∈ w.visited ∨ id = op.id ∨ id ∈ (allOpsInRegionTree op).map Op.id
  stack : ∀ v ∈ w.stack, v ∈ t.stack
  operands : ∀ o ∈ op :: allOpsInRegionTree op, o.id ∉ w.visited → ∀ v ∈ o.operands, v ∈ t.stack
  results : ∀ o ∈ allOpsInRegionTree op, o.id ∉ w.visited → o.callee.isSome = true →
    ∀ v ∈ o.results, v ∈ t.stack
  origin : ∀ v ∈ t.stack, v ∈ w.stack ∨ v ∈ op.operands ∨
    ∃ o ∈ allOpsInRegionTree op, v ∈ o.operands ∨ (o.callee.isSome = true ∧ v ∈ o.results)
  cost : t.cost m ≤ w.cost m

theorem visits_visit (hop : op ∈ m.allOps)
    (hnested : op.id ∈ w.visited → ∀ o ∈ allOpsInRegionTree op, o.id ∈ w.visited) :
    Visits m op w (w.visit op) := by
  unfold Walk.visit
  by_cases hvisited : op.id ∈ w.visited
  · rw [if_pos hvisited]
    refine ⟨rfl, fun id => ⟨.inl, ?_⟩, fun _ h => h, fun o ho hnew => ?_, fun o ho hnew => ?_,
      fun _ h => .inl h, Nat.le_refl _⟩
    · rintro (h | rfl | h)
      · exact h
      · exact hvisited
      · obtain ⟨o, ho, rfl⟩ := mem_map.mp h
        exact hnested hvisited o ho
    · rcases mem_cons.mp ho with rfl | ho
      · exact absurd hvisited hnew
      · exact absurd (hnested hvisited o ho) hnew
    · exact absurd (hnested hvisited o ho) hnew
  · rw [if_neg hvisited]
    have htree : ∀ o ∈ allOpsInRegionTree op, o ∈ m.allOps := fun o ho => Module.nested_mem hop ho
    have hmarks := marks_foldl (u := { w with visited := op.id :: w.visited }) htree
    have hnew : ∀ o ∈ allOpsInRegionTree op, o.id ∉ w.visited → o.id ∉ op.id :: w.visited := by
      intro o ho hnot
      rw [mem_cons, not_or]
      refine ⟨fun hid => not_mem_tree_self op ?_, hnot⟩
      rw [← Module.eq_of_id (Module.nested_mem hop ho) hop hid]
      exact Module.eq_of_id (Module.nested_mem hop ho) hop hid ▸ ho
    refine ⟨hmarks.followed, fun id => ?_, fun v hv => ?_, fun o ho hnot v hv => ?_,
      fun o ho hnot hcall v hv => ?_, fun v hv => ?_, ?_⟩
    · refine (hmarks.visited id).trans ?_
      rw [mem_cons, or_assoc, or_left_comm]
    · exact mem_extend.mpr (.inr (hmarks.stack v hv))
    · rcases mem_cons.mp ho with rfl | ho
      · exact mem_extend.mpr (.inl hv)
      · exact mem_extend.mpr (.inr (hmarks.operands o ho (hnew o ho hnot) v hv))
    · exact mem_extend.mpr (.inr (hmarks.results o ho (hnew o ho hnot) hcall v hv))
    · rcases mem_extend.mp hv with hv | hv
      · exact .inr (.inl hv)
      · exact (hmarks.origin v hv).imp_right .inr
    · have hcost := cost_mark (u := w) hop hvisited
      have hle := hmarks.cost
      rw [cost_extend]
      unfold Op.weight at hcost
      omega

end

end Xtrax.Slices
