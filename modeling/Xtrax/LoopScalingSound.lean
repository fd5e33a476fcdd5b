import Xtrax.LoopScaling
import Xtrax.Utf8

/-!
# Every loop of a program is reported

What the walk adds to its list is `walkedLoops`, whatever was in the list before
(`jaxprWork_eq`).  These are all loops when no loop is in a sub-jaxpr that is not walked.
-/

namespace Xtrax.LoopScaling

open List Option Dependence

/-! ### Depth -/

section

variable {J : Type} [SizeOf J]

mutual

theorem sizeOf_subJaxprs {j : J} : ∀ p : Param J, j ∈ subJaxprs p → sizeOf j < sizeOf p
  | .num _, h | .pack _, h | .value, h => absurd h not_mem_nil
  | .jaxpr j', h => by
    rw [mem_singleton.mp h, Param.jaxpr.sizeOf_spec]
    omega
  | .closed j', h => by
    rw [mem_singleton.mp h, Param.closed.sizeOf_spec]
    omega
  | .seq items, h => by
    have hlt := sizeOf_subJaxprsSeq items h
    rw [Param.seq.sizeOf_spec]
    omega
  | .mapping items, h => by
    have hlt := sizeOf_subJaxprsMapping items h
    rw [Param.mapping.sizeOf_spec]
    omega

theorem sizeOf_subJaxprsSeq {j : J} : ∀ items : List (Param J), j ∈ subJaxprsSeq items →
    sizeOf j < sizeOf items
  | [], h => absurd h not_mem_nil
  | item :: rest, h => by
    rw [subJaxprsSeq, mem_append] at h
    rw [cons.sizeOf_spec]
    rcases h with h | h
    · have hlt := sizeOf_subJaxprs item h
      omega
    · have hlt := sizeOf_subJaxprsSeq rest h
      omega

theorem sizeOf_subJaxprsMapping {j : J} : ∀ items : List (String × Param J),
    j ∈ subJaxprsMapping items → sizeOf j < sizeOf items
  | [], h => absurd h not_mem_nil
  | (key, item) :: rest, h => by
    rw [subJaxprsMapping, mem_append] at h
    rw [cons.sizeOf_spec, Prod.mk.sizeOf_spec]
    rcases h with h | h
    · have hlt := sizeOf_subJaxprs item h
      omega
    · have hlt := sizeOf_subJaxprsMapping rest h
      omega

end

end

theorem sizeOf_sub {j sub : Jaxpr} {e : Eqn Jaxpr} (he : e ∈ j.eqns) (hsub : sub ∈ e.subs) :
    sizeOf sub < sizeOf j := by
  obtain ⟨constvars, invars, eqns, outvars⟩ := j
  have hsub : sizeOf sub < sizeOf e.params := sizeOf_subJaxprsMapping e.params hsub
  have he : sizeOf e < sizeOf eqns := sizeOf_lt_of_mem he
  obtain ⟨id, primitive, params, ins, outs⟩ := e
  rw [Eqn.mk.sizeOf_spec] at he
  rw [Jaxpr.mk.sizeOf_spec]
  simp only at hsub
  omega

/-! ### Sub-jaxprs, walked and not -/

theorem subs_of_body {e : Eqn Jaxpr} {key : String} {body : Jaxpr} (h : e.body key = some body) :
    ∃ before after, e.subs = before ++ body :: after ∧
      otherSubs key e.params = before ++ after := by
  obtain ⟨p, hp, hhead⟩ := bind_eq_some_iff.mp h
  obtain ⟨rest, hrest⟩ : ∃ rest, subJaxprs p = body :: rest := by
    cases hsubs : subJaxprs p with
    | nil =>
      rw [hsubs] at hhead
      exact nomatch hhead
    | cons j rest =>
      rw [hsubs] at hhead
      exact ⟨rest, by rw [some.inj hhead]⟩
  unfold Eqn.subs
  unfold Eqn.param at hp
  generalize e.params = params at hp
  induction params with
  | nil => exact nomatch hp
  | cons entry items ih =>
    obtain ⟨k, q⟩ := entry
    rw [lookup_cons] at hp
    by_cases hkey : k = key
    · subst hkey
      rw [beq_self_eq_true] at hp
      obtain rfl := some.inj hp
      refine ⟨[], rest ++ subJaxprsMapping items, ?_, ?_⟩
      · rw [subJaxprsMapping, hrest]
        rfl
      · rw [otherSubs, if_pos rfl, hrest]
        rfl
    · rw [beq_false_of_ne (Ne.symm hkey)] at hp
      obtain ⟨before, after, hsubs, hother⟩ := ih hp
      refine ⟨subJaxprs q ++ before, after, ?_, ?_⟩
      · rw [subJaxprsMapping, hsubs, append_assoc]
      · rw [otherSubs, if_neg hkey, hother, append_assoc]

theorem subs_perm {e : Eqn Jaxpr} (h : isLoop e = true → (loopBody? e).isSome = true) :
    (walkedSubs e ++ unwalkedSubs e).Perm e.subs := by
  unfold walkedSubs unwalkedSubs
  cases hkey : loopBodyParam e.primitive with
  | some key =>
    have hloop : isLoop e = true := by rw [isLoop, hkey]; rfl
    obtain ⟨body, hbody⟩ := isSome_iff_exists.mp (h hloop)
    rw [loopBody?, hkey] at hbody
    have hbody : e.body key = some body := hbody
    obtain ⟨before, after, hsubs, hother⟩ := subs_of_body hbody
    simp only [hbody, hother, hsubs, toList_some, singleton_append]
    exact perm_middle.symm
  | none =>
    by_cases hdot : e.primitive = "dot_general"
    · simp only [if_pos hdot]
      exact .refl _
    · simp only [if_neg hdot]
      cases inPlaceUpdateOperand e.primitive with
      | some operand => exact .refl _
      | none => exact .of_eq (append_nil _)

/-! ### What the walk adds -/

section

variable (cost : Jaxpr → Nat × Nat) (loops : String → Jaxpr → List LoopBody)

def subsLoops (here : String) : Nat → List Jaxpr → List LoopBody
  | _, [] => []
  | i, sub :: rest => loops (subPath here i) sub ++ subsLoops here (i + 1) rest

/-- The entries for an equation: its own, and those of the sub-jaxprs that are walked. -/
def eqnLoops (here : String) (e : Eqn Jaxpr) : List LoopBody :=
  match loopBody? e with
  | some body =>
    ⟨here, e.primitive, (tripCount e).getD none, (cost body).1, (cost body).2⟩ :: loops here body
  | none => subsLoops loops here 0 (walkedSubs e)

def eqnsLoops (path : String) : Nat → List (Eqn Jaxpr) → List LoopBody
  | _, [] => []
  | idx, e :: rest => eqnLoops cost loops (eqnPath path idx e) e ++ eqnsLoops path (idx + 1) rest

end

/-- The entries for a program. -/
def walkedLoops (avals : Avals) : Nat → String → Jaxpr → List LoopBody
  | 0, _, _ => []
  | n + 1, path, j => eqnsLoops (costOf avals n) (walkedLoops avals n) path 0 j.eqns

section

variable {avals : Avals} {visit : Jaxpr → String → List LoopBody → Option Tally}
variable {cost : Jaxpr → Nat × Nat} {loops : String → Jaxpr → List LoopBody}

/-- The walk of a sub-jaxpr gives its cost, and adds its loops. -/
def Visits (visit : Jaxpr → String → List LoopBody → Option Tally) (cost : Jaxpr → Nat × Nat)
    (loops : String → Jaxpr → List LoopBody) (sub : Jaxpr) : Prop :=
  ∀ path found, visit sub path found = some ((cost sub).1, (cost sub).2, found ++ loops path sub)

theorem subsWork_eq {here : String} {i : Nat} {subs : List Jaxpr} {found : List LoopBody}
    (h : ∀ sub ∈ subs, Visits visit cost loops sub) : subsWork visit here i subs found =
      some ((subs.map fun sub => (cost sub).1).foldr max 0,
        (subs.map fun sub => (cost sub).2).foldr max 0, found ++ subsLoops loops here i subs) := by
  induction subs generalizing i found with
  | nil => rw [subsWork, subsLoops, append_nil]; rfl
  | cons sub rest ih =>
    have hrest : ∀ sub ∈ rest, Visits visit cost loops sub :=
      fun sub hsub => h sub (mem_cons_of_mem _ hsub)
    rw [subsWork, h sub (mem_cons_self ..), bind_eq_bind, bind_some]
    simp only [ih hrest, subsLoops, append_assoc]
    rfl

theorem eqnWork_eq {here : String} {e : Eqn Jaxpr} {found : List LoopBody} (he : Traced avals e)
    (h : ∀ sub ∈ walkedSubs e, Visits visit cost loops sub) : eqnWork avals visit here e found =
      some ((eqnCost avals cost e).1, (eqnCost avals cost e).2,
        found ++ eqnLoops cost loops here e) := by
  unfold eqnWork eqnCost eqnLoops
  cases hkey : loopBodyParam e.primitive with
  | some key =>
    have hloop : isLoop e = true := by rw [isLoop, hkey]; rfl
    obtain ⟨body, hloopBody⟩ := isSome_iff_exists.mp (he.body hloop)
    obtain ⟨trips, htrips⟩ := isSome_iff_exists.mp (he.trips hloop)
    have hbody : e.body key = some body := by
      rw [loopBody?, hkey] at hloopBody
      exact hloopBody
    have hvisit : Visits visit cost loops body := by
      refine h body ?_
      simp only [walkedSubs, hkey, hbody]
      exact mem_singleton_self body
    simp only [hbody, hloopBody, htrips, bind_eq_bind, bind_some, hvisit here found,
      take_left, drop_left, getD_some]
    rfl
  | none =>
    have hnone : loopBody? e = none := by rw [loopBody?, hkey]; rfl
    simp only [hnone]
    by_cases hdot : e.primitive = "dot_general"
    · obtain ⟨⟨work, out⟩, hwork⟩ := isSome_iff_exists.mp (he.dot hdot)
      have hwalked : walkedSubs e = [] := by rw [walkedSubs, hkey]; exact if_pos hdot
      simp only [if_pos hdot, hwork, hwalked, subsLoops, append_nil, getD_some]
      rfl
    · simp only [if_neg hdot]
      cases hoperand : inPlaceUpdateOperand e.primitive with
      | some operand =>
        obtain ⟨update, hupdate⟩ := isSome_iff_exists.mp (he.update operand hoperand)
        have hwalked : walkedSubs e = [] := by simp only [walkedSubs, hkey, if_neg hdot, hoperand]
        simp only [hupdate, hwalked, subsLoops, append_nil, map_some, getD_some]
        rfl
      | none =>
        have hwalked : walkedSubs e = e.subs := by
          simp only [walkedSubs, hkey, if_neg hdot, hoperand]
        rw [hwalked] at h ⊢
        cases hsubs : e.subs with
        | nil => simp only [isEmpty_nil, if_true, subsLoops, append_nil]
        | cons sub rest =>
          rw [hsubs] at h
          simp only [isEmpty_cons, Bool.false_eq_true, if_false]
          exact subsWork_eq h

theorem eqnsWork_eq {path : String} {idx : Nat} {eqns : List (Eqn Jaxpr)} {found : List LoopBody}
    (htraced : ∀ e ∈ eqns, Traced avals e)
    (h : ∀ e ∈ eqns, ∀ sub ∈ walkedSubs e, Visits visit cost loops sub) :
    eqnsWork avals visit path idx eqns found =
      some ((eqns.map fun e => (eqnCost avals cost e).1).sum,
        (eqns.map fun e => (eqnCost avals cost e).2).foldr max 0,
        found ++ eqnsLoops cost loops path idx eqns) := by
  induction eqns generalizing idx found with
  | nil => rw [eqnsWork, eqnsLoops, append_nil]; rfl
  | cons e rest ih =>
    have hrest : ∀ e ∈ rest, ∀ sub ∈ walkedSubs e, Visits visit cost loops sub :=
      fun e he => h e (mem_cons_of_mem _ he)
    have htracedRest : ∀ e ∈ rest, Traced avals e :=
      fun e he => htraced e (mem_cons_of_mem _ he)
    rw [eqnsWork, eqnWork_eq (htraced e (mem_cons_self ..)) (h e (mem_cons_self ..)),
      bind_eq_bind, bind_some]
    simp only [ih htracedRest hrest, eqnsLoops, append_assoc]
    rfl

end

/-! ### Equations at any depth -/

theorem mem_iter_of_mem {j : Jaxpr} {e : Eqn Jaxpr} {n : Nat} (he : e ∈ j.eqns) :
    e ∈ iterJaxprEqns (n + 1) j :=
  mem_flatMap.mpr ⟨e, he, mem_cons_self ..⟩

theorem mem_iter_of_sub {j sub : Jaxpr} {e x : Eqn Jaxpr} {n : Nat} (he : e ∈ j.eqns)
    (hsub : sub ∈ e.subs) (hx : x ∈ iterJaxprEqns n sub) : x ∈ iterJaxprEqns (n + 1) j :=
  mem_flatMap.mpr ⟨e, he, mem_cons_of_mem _ (mem_flatMap.mpr ⟨sub, hsub, hx⟩)⟩

theorem WellFormed.eqn {avals : Avals} {j : Jaxpr} {e : Eqn Jaxpr} (h : WellFormed avals j)
    (he : e ∈ j.eqns) : Traced avals e :=
  h 1 e (mem_iter_of_mem he)

theorem WellFormed.sub {avals : Avals} {j sub : Jaxpr} {e : Eqn Jaxpr} (h : WellFormed avals j)
    (he : e ∈ j.eqns) (hsub : sub ∈ e.subs) : WellFormed avals sub :=
  fun n x hx => h (n + 1) x (mem_iter_of_sub he hsub hx)

theorem WellFormed.walked {avals : Avals} {j sub : Jaxpr} {e : Eqn Jaxpr} (h : WellFormed avals j)
    (he : e ∈ j.eqns) (hsub : sub ∈ walkedSubs e) : sub ∈ e.subs :=
  (subs_perm (h.eqn he).body).mem_iff.mp (mem_append_left _ hsub)

theorem sizeOf_pos (j : Jaxpr) : 0 < sizeOf j := by
  obtain ⟨constvars, invars, eqns, outvars⟩ := j
  rw [Jaxpr.mk.sizeOf_spec]
  omega

/-- **What the walk of a program does**, for any list that it is given. -/
theorem jaxprWork_eq {avals : Avals} {n : Nat} {j : Jaxpr} (h : WellFormed avals j)
    (hn : sizeOf j ≤ n) : Visits (jaxprWork avals n) (costOf avals n) (walkedLoops avals n) j := by
  induction n generalizing j with
  | zero =>
    have hpos := sizeOf_pos j
    omega
  | succ n ih =>
    intro path found
    refine eqnsWork_eq (fun e he => h.eqn he) fun e he sub hwalked => ?_
    have hsub : sub ∈ e.subs := h.walked he hwalked
    have hlt := sizeOf_sub he hsub
    exact ih (h.sub he hsub) (by omega)

/-! ### Paths -/

theorem toList_eqnPath (path : String) (idx : Nat) (e : Eqn Jaxpr) :
    (eqnPath path idx e).toList =
      (path.toList ++ ['/']) ++ (Nat.toDigits 10 idx ++ ':' :: e.primitive.toList) := by
  simp [eqnPath, Nat.toString_eq_repr, Nat.toList_repr]

theorem toList_subPath (here : String) (i : Nat) :
    (subPath here i).toList = (here.toList ++ ['[']) ++ (Nat.toDigits 10 i ++ [']']) := by
  simp [subPath, Nat.toString_eq_repr, Nat.toList_repr]

theorem number_not_prefix {p x y : List Char} {i k : Nat} {c : Char} (hc : c.isDigit = false)
    (hne : i ≠ k) :
    ¬p ++ (Nat.toDigits 10 k ++ c :: y) <+: p ++ (Nat.toDigits 10 i ++ c :: x) := by
  rintro ⟨rest, h⟩
  rw [append_assoc] at h
  have h := append_cancel_left h
  rw [append_assoc, cons_append] at h
  have hdigit : ∀ n, ∀ a ∈ Nat.toDigits 10 n, a.isDigit = true :=
    fun n a ha => Nat.isDigit_of_mem_toDigits (by omega) (by omega) ha
  have hstop : ∀ z : List Char, ∀ a ∈ (c :: z).head?, ¬a.isDigit = true := by
    intro z a ha
    rw [← some.inj ha, hc]
    exact Bool.false_ne_true
  obtain ⟨hdigits, -⟩ := run_inj (hdigit k) (hdigit i) (hstop _) (hstop _) h
  have hnumber := congrArg (fun digits => Nat.ofDigitChars 10 digits 0) hdigits
  simp only [Nat.ofDigitChars_ten_toDigits] at hnumber
  exact hne hnumber.symm

/-- The later entry is neither an earlier one again nor a loop around it. -/
def Outside (a b : LoopBody) : Prop := ¬b.path.toList <+: a.path.toList

section

variable {cost : Jaxpr → Nat × Nat} {loops : String → Jaxpr → List LoopBody}

/-- The entries of a program lie below its path, the outermost first. -/
def Below (loops : String → Jaxpr → List LoopBody) : Prop :=
  ∀ path sub, (∀ b ∈ loops path sub, path.toList ++ ['/'] <+: b.path.toList) ∧
    (loops path sub).Pairwise Outside

theorem subsLoops_prefix (h : Below loops) {here : String} {i : Nat} {subs : List Jaxpr} :
    ∀ b ∈ subsLoops loops here i subs, ∃ k y, i ≤ k ∧
      b.path.toList = (here.toList ++ ['[']) ++ (Nat.toDigits 10 k ++ ']' :: y) := by
  induction subs generalizing i with
  | nil => exact fun b hb => absurd hb not_mem_nil
  | cons sub rest ih =>
    intro b hb
    rcases mem_append.mp hb with hb | hb
    · obtain ⟨y, hy⟩ := (h (subPath here i) sub).1 b hb
      refine ⟨i, '/' :: y, Nat.le_refl i, ?_⟩
      rw [← hy, toList_subPath]
      simp
    · obtain ⟨k, y, hk, hpath⟩ := ih b hb
      exact ⟨k, y, by omega, hpath⟩

theorem subsLoops_pairwise (h : Below loops) {here : String} {i : Nat} {subs : List Jaxpr} :
    (subsLoops loops here i subs).Pairwise Outside := by
  induction subs generalizing i with
  | nil => exact .nil
  | cons sub rest ih =>
    refine pairwise_append.mpr ⟨(h (subPath here i) sub).2, ih, fun a ha b hb => ?_⟩
    obtain ⟨x, hx⟩ := (h (subPath here i) sub).1 a ha
    obtain ⟨k, y, hk, hy⟩ := subsLoops_prefix h b hb
    have hax : a.path.toList =
        (here.toList ++ ['[']) ++ (Nat.toDigits 10 i ++ ']' :: ('/' :: x)) := by
      rw [← hx, toList_subPath]
      simp
    rw [Outside, hax, hy]
    exact number_not_prefix rfl (by omega)

theorem eqnLoops_prefix (h : Below loops) {here : String} {e : Eqn Jaxpr} :
    ∀ b ∈ eqnLoops cost loops here e, here.toList <+: b.path.toList := by
  intro b hb
  unfold eqnLoops at hb
  split at hb
  · rcases mem_cons.mp hb with rfl | hb
    · exact prefix_refl _
    · exact (prefix_append _ _).trans ((h here _).1 b hb)
  · obtain ⟨k, y, -, hy⟩ := subsLoops_prefix h b hb
    rw [hy, append_assoc]
    exact prefix_append _ _

theorem eqnLoops_pairwise (h : Below loops) {here : String} {e : Eqn Jaxpr} :
    (eqnLoops cost loops here e).Pairwise Outside := by
  unfold eqnLoops
  split
  · rename_i body _
    refine pairwise_cons.mpr ⟨fun b hb hprefix => ?_, (h here body).2⟩
    have hlonger := ((h here body).1 b hb).length_le
    have hle : b.path.toList.length ≤ here.toList.length := hprefix.length_le
    rw [length_append, length_singleton] at hlonger
    omega
  · exact subsLoops_pairwise h

theorem eqnsLoops_prefix (h : Below loops) {path : String} {idx : Nat} {eqns : List (Eqn Jaxpr)} :
    ∀ b ∈ eqnsLoops cost loops path idx eqns, ∃ k y, idx ≤ k ∧
      b.path.toList = (path.toList ++ ['/']) ++ (Nat.toDigits 10 k ++ ':' :: y) := by
  induction eqns generalizing idx with
  | nil => exact fun b hb => absurd hb not_mem_nil
  | cons e rest ih =>
    intro b hb
    rcases mem_append.mp hb with hb | hb
    · obtain ⟨y, hy⟩ := eqnLoops_prefix h b hb
      refine ⟨idx, e.primitive.toList ++ y, Nat.le_refl idx, ?_⟩
      rw [← hy, toList_eqnPath]
      simp
    · obtain ⟨k, y, hk, hpath⟩ := ih b hb
      exact ⟨k, y, by omega, hpath⟩

theorem eqnsLoops_pairwise (h : Below loops) {path : String} {idx : Nat}
    {eqns : List (Eqn Jaxpr)} : (eqnsLoops cost loops path idx eqns).Pairwise Outside := by
  induction eqns generalizing idx with
  | nil => exact .nil
  | cons e rest ih =>
    refine pairwise_append.mpr ⟨eqnLoops_pairwise h, ih, fun a ha b hb => ?_⟩
    obtain ⟨x, hx⟩ := eqnLoops_prefix h a ha
    obtain ⟨k, y, hk, hy⟩ := eqnsLoops_prefix h b hb
    have hax : a.path.toList =
        (path.toList ++ ['/']) ++ (Nat.toDigits 10 idx ++ ':' :: (e.primitive.toList ++ x)) := by
      rw [← hx, toList_eqnPath]
      simp
    rw [Outside, hax, hy]
    exact number_not_prefix rfl (by omega)

end

theorem walkedLoops_below (avals : Avals) (n : Nat) : Below (walkedLoops avals n) := by
  induction n with
  | zero => exact fun path sub => ⟨fun b hb => absurd hb not_mem_nil, .nil⟩
  | succ n ih =>
    intro path sub
    refine ⟨fun b hb => ?_, eqnsLoops_pairwise ih⟩
    obtain ⟨k, y, -, hy⟩ := eqnsLoops_prefix ih b hb
    rw [hy]
    exact prefix_append _ _

/-! ### Which loops are reported -/

theorem loopEqns_succ (n : Nat) (j : Jaxpr) : loopEqns (n + 1) j = j.eqns.flatMap fun e =>
    (if isLoop e then [e] else []) ++ e.subs.flatMap (loopEqns n) := by
  unfold loopEqns
  rw [iterJaxprEqns, filter_flatMap]
  refine flatMap_congr fun e _ => ?_
  rw [filter_cons, filter_flatMap]
  split <;> rfl

theorem isLoop_iff {avals : Avals} {e : Eqn Jaxpr} (h : Traced avals e) :
    isLoop e = true ↔ ∃ body, loopBody? e = some body := by
  refine ⟨fun hloop => isSome_iff_exists.mp (h.body hloop), fun ⟨body, hbody⟩ => ?_⟩
  obtain ⟨key, hkey, -⟩ := bind_eq_some_iff.mp hbody
  rw [isLoop, hkey]
  rfl

theorem walkedSubs_loop {e : Eqn Jaxpr} {body : Jaxpr} (h : loopBody? e = some body) :
    walkedSubs e = [body] := by
  obtain ⟨key, hkey, hbody⟩ := bind_eq_some_iff.mp h
  simp only [walkedSubs, hkey, hbody, toList_some]

theorem length_subsLoops {loops : String → Jaxpr → List LoopBody} {f : Jaxpr → Nat}
    {subs : List Jaxpr} (h : ∀ sub ∈ subs, ∀ path, (loops path sub).length = f sub)
    {here : String} {i : Nat} :
    (subsLoops loops here i subs).length = (subs.map f).sum := by
  induction subs generalizing i with
  | nil => rfl
  | cons sub rest ih =>
    rw [subsLoops, length_append, h sub (mem_cons_self ..),
      ih fun sub hsub => h sub (mem_cons_of_mem _ hsub), map_cons, sum_cons]

def walkedCount : Nat → Jaxpr → Nat
  | 0, _ => 0
  | n + 1, j => (j.eqns.map fun e =>
      (if isLoop e then 1 else 0) + ((walkedSubs e).map (walkedCount n)).sum).sum

theorem length_eqnLoops {avals : Avals} {cost : Jaxpr → Nat × Nat}
    {loops : String → Jaxpr → List LoopBody} {f : Jaxpr → Nat} {e : Eqn Jaxpr}
    (he : Traced avals e) (h : ∀ sub ∈ walkedSubs e, ∀ path, (loops path sub).length = f sub)
    {here : String} : (eqnLoops cost loops here e).length =
      (if isLoop e then 1 else 0) + ((walkedSubs e).map f).sum := by
  unfold eqnLoops
  cases hbody : loopBody? e with
  | some body =>
    have hwalked := walkedSubs_loop hbody
    rw [hwalked] at h ⊢
    rw [if_pos ((isLoop_iff he).mpr ⟨body, hbody⟩), length_cons,
      h body (mem_singleton_self body), map_singleton, sum_singleton, Nat.add_comm]
  | none =>
    have hloop : ¬isLoop e = true := by
      rw [isLoop_iff he, hbody]
      exact fun ⟨body, h⟩ => nomatch h
    rw [if_neg hloop, Nat.zero_add]
    exact length_subsLoops h

theorem length_eqnsLoops {avals : Avals} {cost : Jaxpr → Nat × Nat}
    {loops : String → Jaxpr → List LoopBody} {f : Jaxpr → Nat} {eqns : List (Eqn Jaxpr)}
    (htraced : ∀ e ∈ eqns, Traced avals e)
    (h : ∀ e ∈ eqns, ∀ sub ∈ walkedSubs e, ∀ path, (loops path sub).length = f sub)
    {path : String} {idx : Nat} : (eqnsLoops cost loops path idx eqns).length =
      (eqns.map fun e => (if isLoop e then 1 else 0) + ((walkedSubs e).map f).sum).sum := by
  induction eqns generalizing idx with
  | nil => rfl
  | cons e rest ih =>
    rw [eqnsLoops, length_append, map_cons, sum_cons,
      length_eqnLoops (htraced e (mem_cons_self ..)) (h e (mem_cons_self ..)),
      ih (fun e he => htraced e (mem_cons_of_mem _ he)) (fun e he => h e (mem_cons_of_mem _ he))]

theorem length_walkedLoops {avals : Avals} {n : Nat} {j : Jaxpr} (h : WellFormed avals j)
    (path : String) : (walkedLoops avals n path j).length = walkedCount n j := by
  induction n generalizing j path with
  | zero => rfl
  | succ n ih =>
    exact length_eqnsLoops (fun e he => h.eqn he) fun e he sub hsub path =>
      ih (h.sub he (h.walked he hsub)) path

theorem sum_eq_iff {α : Type*} {l : List α} {f g : α → Nat} (h : ∀ a ∈ l, f a ≤ g a) :
    (l.map f).sum ≤ (l.map g).sum ∧ ((l.map f).sum = (l.map g).sum ↔ ∀ a ∈ l, f a = g a) := by
  induction l with
  | nil => exact ⟨Nat.le_refl _, fun _ a ha => absurd ha not_mem_nil, fun _ => rfl⟩
  | cons a rest ih =>
    obtain ⟨hle, hiff⟩ := ih fun b hb => h b (mem_cons_of_mem _ hb)
    have ha := h a (mem_cons_self ..)
    rw [map_cons, map_cons, sum_cons, sum_cons, forall_mem_cons, ← hiff]
    omega

theorem walkedCount_le {avals : Avals} {n : Nat} {j : Jaxpr} (h : WellFormed avals j) :
    walkedCount n j ≤ (loopEqns n j).length ∧
      (walkedCount n j = (loopEqns n j).length ↔ AllWalked n j) := by
  induction n generalizing j with
  | zero => exact ⟨Nat.le_refl _, fun _ => trivial, fun _ => rfl⟩
  | succ n ih =>
    have hone : ∀ e ∈ j.eqns, ((if isLoop e then 1 else 0) +
          ((walkedSubs e).map (walkedCount n)).sum ≤
        ((if isLoop e then [e] else []) ++ e.subs.flatMap (loopEqns n)).length) ∧
        ((if isLoop e then 1 else 0) + ((walkedSubs e).map (walkedCount n)).sum =
        ((if isLoop e then [e] else []) ++ e.subs.flatMap (loopEqns n)).length ↔
          (∀ sub ∈ unwalkedSubs e, loopEqns n sub = []) ∧
            ∀ sub ∈ walkedSubs e, AllWalked n sub) := by
      intro e he
      have hwalked : ∀ sub ∈ walkedSubs e, WellFormed avals sub :=
        fun sub hsub => h.sub he (h.walked he hsub)
      obtain ⟨hle, hiff⟩ := sum_eq_iff (l := walkedSubs e) (f := walkedCount n)
        (g := fun sub => (loopEqns n sub).length) fun sub hsub => (ih (hwalked sub hsub)).1
      have hall : (∀ sub ∈ walkedSubs e, walkedCount n sub = (loopEqns n sub).length) ↔
          ∀ sub ∈ walkedSubs e, AllWalked n sub :=
        forall₂_congr fun sub hsub => (ih (hwalked sub hsub)).2
      have hsplit : (e.subs.flatMap (loopEqns n)).length =
          ((walkedSubs e).map fun sub => (loopEqns n sub).length).sum +
            ((unwalkedSubs e).map fun sub => (loopEqns n sub).length).sum := by
        rw [← ((subs_perm (h.eqn he).body).flatMap_right (loopEqns n)).length_eq,
          flatMap_append, length_append, length_flatMap, length_flatMap]
      have hnone : (∀ sub ∈ unwalkedSubs e, loopEqns n sub = []) ↔
          ((unwalkedSubs e).map fun sub => (loopEqns n sub).length).sum = 0 := by
        have hzero := (sum_eq_iff (l := unwalkedSubs e) (f := fun _ => 0)
          (g := fun sub => (loopEqns n sub).length) fun _ _ => Nat.zero_le _).2
        rw [map_const', sum_replicate_nat, Nat.mul_zero, eq_comm] at hzero
        rw [hzero]
        refine forall₂_congr fun sub _ => ?_
        rw [← length_eq_zero_iff]
        exact eq_comm
      have hown : (if isLoop e then [e] else []).length = if isLoop e then 1 else 0 := by
        split <;> rfl
      rw [length_append, hown, hsplit, ← hall, ← hiff, hnone]
      omega
    rw [walkedCount, loopEqns_succ, length_flatMap, AllWalked]
    obtain ⟨hle, hiff⟩ := sum_eq_iff fun e he => (hone e he).1
    refine ⟨hle, hiff.trans (forall₂_congr fun e he => (hone e he).2)⟩

/-! ### What the entries say -/

theorem eqnCost_congr {avals : Avals} {cost cost' : Jaxpr → Nat × Nat} {e : Eqn Jaxpr}
    (h : ∀ sub ∈ e.subs, cost sub = cost' sub) : eqnCost avals cost e = eqnCost avals cost' e := by
  unfold eqnCost
  cases hbody : loopBody? e with
  | some body =>
    obtain ⟨key, -, hkey⟩ := bind_eq_some_iff.mp hbody
    simp only [h body (Eqn.mem_subs_of_body hkey)]
  | none =>
    have hfst : (e.subs.map fun sub => (cost sub).1) = e.subs.map fun sub => (cost' sub).1 :=
      map_congr_left fun sub hsub => by rw [h sub hsub]
    have hsnd : (e.subs.map fun sub => (cost sub).2) = e.subs.map fun sub => (cost' sub).2 :=
      map_congr_left fun sub hsub => by rw [h sub hsub]
    simp only [hfst, hsnd]

/-- What a program costs does not depend on how deep one may go, if it is deep enough. -/
theorem costOf_stable {avals : Avals} {n k : Nat} {j : Jaxpr} (hn : sizeOf j ≤ n)
    (hk : sizeOf j ≤ k) : costOf avals n j = costOf avals k j := by
  induction n generalizing j k with
  | zero =>
    have hpos := sizeOf_pos j
    omega
  | succ n ih =>
    cases k with
    | zero =>
      have hpos := sizeOf_pos j
      omega
    | succ k =>
      have hcongr : ∀ e ∈ j.eqns,
          eqnCost avals (costOf avals n) e = eqnCost avals (costOf avals k) e := by
        intro e he
        refine eqnCost_congr fun sub hsub => ?_
        have hlt := sizeOf_sub he hsub
        exact ih (by omega) (by omega)
      rw [costOf, costOf]
      refine Prod.ext ?_ ?_
      · exact congrArg sum (map_congr_left fun e he => by rw [hcongr e he])
      · exact congrArg (foldr max 0) (map_congr_left fun e he => by rw [hcongr e he])

theorem forall₂_subsLoops {avals : Avals} {loops : String → Jaxpr → List LoopBody}
    {eqns : Jaxpr → List (Eqn Jaxpr)} {subs : List Jaxpr}
    (h : ∀ sub ∈ subs, ∀ path, List.Forall₂ (Describes avals) (eqns sub) (loops path sub))
    {here : String} {i : Nat} :
    List.Forall₂ (Describes avals) (subs.flatMap eqns) (subsLoops loops here i subs) := by
  induction subs generalizing i with
  | nil => exact .nil
  | cons sub rest ih =>
    rw [flatMap_cons, subsLoops]
    exact rel_append (h sub (mem_cons_self ..) _)
      (ih fun sub hsub => h sub (mem_cons_of_mem _ hsub))

theorem forall₂_eqnLoops {avals : Avals} {n : Nat} {e : Eqn Jaxpr} (he : Traced avals e)
    (hsize : ∀ sub ∈ walkedSubs e, sizeOf sub ≤ n)
    (hunwalked : ∀ sub ∈ unwalkedSubs e, loopEqns n sub = [])
    (h : ∀ sub ∈ walkedSubs e, ∀ path,
      List.Forall₂ (Describes avals) (loopEqns n sub) (walkedLoops avals n path sub))
    {here : String} : List.Forall₂ (Describes avals)
      ((if isLoop e then [e] else []) ++ e.subs.flatMap (loopEqns n))
      (eqnLoops (costOf avals n) (walkedLoops avals n) here e) := by
  unfold eqnLoops
  cases hbody : loopBody? e with
  | some body =>
    have hloop : isLoop e = true := (isLoop_iff he).mpr ⟨body, hbody⟩
    obtain ⟨key, hkey, hparam⟩ := bind_eq_some_iff.mp hbody
    obtain ⟨before, after, hsubs, hother⟩ := subs_of_body hparam
    have hnone : ∀ sub ∈ before ++ after, loopEqns n sub = [] := by
      intro sub hsub
      refine hunwalked sub ?_
      simp only [unwalkedSubs, hkey, hother]
      exact hsub
    have hin : body ∈ walkedSubs e := by
      rw [walkedSubs_loop hbody]
      exact mem_singleton_self body
    have hnested : e.subs.flatMap (loopEqns n) = loopEqns n body := by
      rw [hsubs, flatMap_append, flatMap_cons,
        flatMap_eq_nil_iff.mpr fun sub hsub => hnone sub (mem_append_left _ hsub),
        flatMap_eq_nil_iff.mpr fun sub hsub => hnone sub (mem_append_right _ hsub),
        nil_append, append_nil]
    obtain ⟨trips, htrips⟩ := isSome_iff_exists.mp (he.trips hloop)
    rw [if_pos hloop, hnested]
    refine .cons ⟨rfl, ?_, body, hbody, fun k hk => ?_⟩ (h body hin here)
    · rw [htrips]
      rfl
    · exact congrArg Prod.fst (costOf_stable (hsize body hin) hk)
  | none =>
    have hloop : ¬isLoop e = true := by
      rw [isLoop_iff he, hbody]
      exact fun ⟨body, h⟩ => nomatch h
    have hkey : loopBodyParam e.primitive = none := by
      cases hkey : loopBodyParam e.primitive with
      | none => rfl
      | some key => exact absurd (by rw [isLoop, hkey]; rfl) hloop
    rw [if_neg hloop, nil_append]
    by_cases hall : walkedSubs e = e.subs
    · rw [hall] at h ⊢
      exact forall₂_subsLoops h
    · -- a `dot_general` or an in-place update: nothing is walked
      have hnothing : walkedSubs e = [] ∧ unwalkedSubs e = e.subs := by
        unfold walkedSubs unwalkedSubs at *
        simp only [hkey] at hall ⊢
        by_cases hdot : e.primitive = "dot_general"
        · simp only [if_pos hdot, and_self]
        · simp only [if_neg hdot] at hall ⊢
          cases hoperand : inPlaceUpdateOperand e.primitive with
          | some operand => simp only [and_self]
          | none =>
            rw [hoperand] at hall
            exact absurd rfl hall
      rw [hnothing.1, flatMap_eq_nil_iff.mpr fun sub hsub => hunwalked sub (hnothing.2 ▸ hsub)]
      exact .nil

theorem forall₂_eqnsLoops {avals : Avals} {cost : Jaxpr → Nat × Nat}
    {loops : String → Jaxpr → List LoopBody} {f : Eqn Jaxpr → List (Eqn Jaxpr)}
    {eqns : List (Eqn Jaxpr)}
    (h : ∀ e ∈ eqns, ∀ here, List.Forall₂ (Describes avals) (f e) (eqnLoops cost loops here e))
    {path : String} {idx : Nat} :
    List.Forall₂ (Describes avals) (eqns.flatMap f) (eqnsLoops cost loops path idx eqns) := by
  induction eqns generalizing idx with
  | nil => exact .nil
  | cons e rest ih =>
    rw [flatMap_cons, eqnsLoops]
    exact rel_append (h e (mem_cons_self ..) _) (ih fun e he => h e (mem_cons_of_mem _ he))

theorem forall₂_walkedLoops {avals : Avals} {n : Nat} {j : Jaxpr} (h : WellFormed avals j)
    (hn : sizeOf j ≤ n) (hall : AllWalked n j) (path : String) :
    List.Forall₂ (Describes avals) (loopEqns n j) (walkedLoops avals n path j) := by
  induction n generalizing j path with
  | zero => exact .nil
  | succ n ih =>
    rw [loopEqns_succ]
    refine forall₂_eqnsLoops fun e he here => ?_
    have hsize : ∀ sub ∈ walkedSubs e, sizeOf sub ≤ n := by
      intro sub hsub
      have hlt := sizeOf_sub he (h.walked he hsub)
      omega
    exact forall₂_eqnLoops (h.eqn he) hsize (hall e he).1 fun sub hsub path =>
      ih (h.sub he (h.walked he hsub)) (hsize sub hsub) ((hall e he).2 sub hsub) path

/-- **Every loop is reported** just when none is in a sub-jaxpr that is not walked. -/
theorem loops_reported_iff (avals : Avals) (j : Jaxpr) (h : WellFormed avals j) (n : Nat)
    (hn : sizeOf j ≤ n) :
    (∃ found, loopBodies avals n j = some found ∧ Reported avals n j found) ↔ AllWalked n j := by
  have hwalk : loopBodies avals n j = some (walkedLoops avals n "" j) := by
    rw [loopBodies, jaxprWork_eq h hn]
    rfl
  constructor
  · rintro ⟨found, hfound, hreported⟩
    obtain rfl := Option.some.inj (hwalk.symm.trans hfound)
    refine (walkedCount_le h).2.mp ?_
    rw [← length_walkedLoops h ""]
    exact hreported.each.length_eq.symm
  · intro hall
    have hpairwise := (walkedLoops_below avals n "" j).2
    refine ⟨_, hwalk, forall₂_walkedLoops h hn hall "", ?_, hpairwise⟩
    refine List.pairwise_map.mpr (hpairwise.imp fun {a b} hout heq => hout ?_)
    rw [heq]

theorem wellFormed_of_eqns {avals : Avals} {j : Jaxpr}
    (h : ∀ e ∈ j.eqns, Traced avals e ∧ ∀ sub ∈ e.subs, WellFormed avals sub) :
    WellFormed avals j := by
  intro n x hx
  cases n with
  | zero => exact absurd hx not_mem_nil
  | succ n =>
    obtain ⟨e, he, hx⟩ := mem_flatMap.mp hx
    rcases mem_cons.mp hx with rfl | hx
    · exact (h x he).1
    · obtain ⟨sub, hsub, hx⟩ := mem_flatMap.mp hx
      exact (h e he).2 sub hsub n x hx

def sampleAvals : Avals := ⟨fun _ => [4], fun _ => []⟩

def sampleScan (id : Nat) (body : Jaxpr) : Eqn Jaxpr :=
  ⟨id, "scan", [("jaxpr", .closed body), ("length", .num 4)], [], [0]⟩

def sampleWhile (id : Nat) (cond body : Jaxpr) : Eqn Jaxpr :=
  ⟨id, "while", [("cond_jaxpr", .closed cond), ("body_jaxpr", .closed body)], [], [0]⟩

/-- A body that adds. -/
def sampleBody : Jaxpr := .mk [] [] [⟨0, "add", [], [], [0]⟩] []

/-- A `while` whose body has a `scan`. -/
def nestedBody : Jaxpr :=
  .mk [] [] [sampleWhile 1 sampleBody (.mk [] [] [sampleScan 2 sampleBody] [])] []

/-- A `while` whose condition has a `scan`. -/
def nestedCond : Jaxpr :=
  .mk [] [] [sampleWhile 1 (.mk [] [] [sampleScan 2 sampleBody] []) sampleBody] []

theorem sampleBody_wellFormed : WellFormed sampleAvals sampleBody := by
  refine wellFormed_of_eqns fun e he => ?_
  obtain rfl := mem_singleton.mp he
  exact ⟨⟨nofun, nofun, by decide, by decide⟩, fun sub hsub => absurd hsub not_mem_nil⟩

theorem nestedBody_wellFormed : WellFormed sampleAvals nestedBody := by
  refine wellFormed_of_eqns fun e he => ?_
  obtain rfl := mem_singleton.mp he
  refine ⟨⟨fun _ => rfl, fun _ => rfl, by decide, fun _ h => (nomatch h)⟩, fun sub hsub => ?_⟩
  rcases mem_cons.mp hsub with rfl | hsub
  · exact sampleBody_wellFormed
  · obtain rfl := mem_singleton.mp hsub
    refine wellFormed_of_eqns fun e he => ?_
    obtain rfl := mem_singleton.mp he
    refine ⟨⟨fun _ => rfl, fun _ => rfl, by decide, fun _ h => (nomatch h)⟩, fun sub hsub => ?_⟩
    obtain rfl := mem_singleton.mp hsub
    exact sampleBody_wellFormed

theorem loopEqns_sampleBody (n : Nat) : loopEqns n sampleBody = [] := by
  cases n with
  | zero => rfl
  | succ n =>
    rw [loopEqns_succ]
    rfl

theorem sampleBody_allWalked (n : Nat) : AllWalked n sampleBody := by
  cases n with
  | zero => trivial
  | succ n =>
    intro e he
    obtain rfl := mem_singleton.mp he
    exact ⟨fun sub hsub => absurd hsub not_mem_nil, fun sub hsub => absurd hsub not_mem_nil⟩

theorem nestedBody_allWalked (n : Nat) : AllWalked n nestedBody := by
  cases n with
  | zero => trivial
  | succ n =>
    intro e he
    obtain rfl := mem_singleton.mp he
    refine ⟨fun sub hsub => ?_, fun sub hsub => ?_⟩
    · obtain rfl := mem_singleton.mp hsub
      exact loopEqns_sampleBody n
    · obtain rfl := mem_singleton.mp hsub
      cases n with
      | zero => trivial
      | succ n =>
        intro e he
        obtain rfl := mem_singleton.mp he
        refine ⟨fun sub hsub => absurd hsub not_mem_nil, fun sub hsub => ?_⟩
        obtain rfl := mem_singleton.mp hsub
        exact sampleBody_allWalked n

theorem loops_reported_iff_sample : ∃ n found,
    loopBodies sampleAvals n nestedBody = some found ∧ Reported sampleAvals n nestedBody found := by
  refine ⟨sizeOf nestedBody, ?_⟩
  exact (loops_reported_iff sampleAvals nestedBody nestedBody_wellFormed _ (Nat.le_refl _)).mpr
    (nestedBody_allWalked _)

/-- The loop in the condition has no entry. -/
theorem cond_not_reported : ¬∃ found,
    loopBodies sampleAvals 5 nestedCond = some found ∧ Reported sampleAvals 5 nestedCond found := by
  rintro ⟨found, hfound, hreported⟩
  have hlength : (loopBodies sampleAvals 5 nestedCond).map List.length = some 1 := by decide
  rw [hfound] at hlength
  have htwo : (loopEqns 5 nestedCond).length = 2 := by decide
  have hone : found.length = 1 := Option.some.inj hlength
  have heq := hreported.each.length_eq
  omega

end Xtrax.LoopScaling
