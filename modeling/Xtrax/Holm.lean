import Mathlib.Data.List.Sort
import Mathlib.Algebra.Order.Field.Rat
import Xtrax.StepDown

/-!
# Holm decisions

`_holm_rejections` sorts the indices by p-value and goes through them with a mark for each, over
exact rationals.
-/

namespace Xtrax.Holm

open List StepDown

/-- `p_values[index]`. -/
def pValue (pValues : List ℚ) (index : Nat) : ℚ := pValues.getD index 0

/-- `key=lambda index: (p_values[index], index)`. -/
def keyLe (pValues : List ℚ) (i j : Nat) : Bool :=
  pValue pValues i < pValue pValues j || (pValue pValues i = pValue pValues j && i ≤ j)

/-- The loop over the order, from `rank` on; a p-value that is not below its threshold breaks it. -/
def markLoop (pValues : List ℚ) (alpha : ℚ) : Nat → List Nat → List Bool → List Bool
  | _, [], rejected => rejected
  | rank, index :: rest, rejected =>
    if pValue pValues index < alpha / (pValues.length - rank : Nat) then
      markLoop pValues alpha (rank + 1) rest (rejected.set index true)
    else rejected

/-- The marks when the indices are taken in the order `order`. -/
def marksInOrder (pValues : List ℚ) (alpha : ℚ) (order : List Nat) : List Bool :=
  markLoop pValues alpha 0 order (List.replicate pValues.length false)

def holmRejections (pValues : List ℚ) (alpha : ℚ) : List Bool :=
  marksInOrder pValues alpha ((List.range pValues.length).mergeSort (keyLe pValues))

/-- An order that sorts the p-values, ties taken in any way. -/
structure Sorts (pValues : List ℚ) (order : List Nat) : Prop where
  perm : order.Perm (List.range pValues.length)
  sorted : order.Pairwise fun i j => pValue pValues i ≤ pValue pValues j

variable {pValues : List ℚ} {alpha : ℚ} {order : List Nat}

theorem Sorts.nodup (h : Sorts pValues order) : order.Nodup :=
  h.perm.nodup_iff.mpr nodup_range

theorem Sorts.length (h : Sorts pValues order) : order.length = pValues.length := by
  rw [h.perm.length_eq, length_range]

theorem Sorts.mem (h : Sorts pValues order) {i : Nat} : i ∈ order ↔ i < pValues.length := by
  rw [h.perm.mem_iff, mem_range]

theorem Sorts.toFinset (h : Sorts pValues order) :
    order.toFinset = Finset.range pValues.length := by
  ext i
  rw [mem_toFinset, h.mem, Finset.mem_range]

theorem keyLe_iff {i j : Nat} : keyLe pValues i j = true ↔
    pValue pValues i < pValue pValues j ∨ pValue pValues i = pValue pValues j ∧ i ≤ j := by
  simp [keyLe]

theorem sorts_mergeSort (pValues : List ℚ) :
    Sorts pValues ((range pValues.length).mergeSort (keyLe pValues)) where
  perm := mergeSort_perm _ _
  sorted := by
    refine (pairwise_mergeSort (fun a b c hab hbc => ?_) (fun a b => ?_) _).imp fun {a b} h => ?_
    · rw [keyLe_iff] at hab hbc ⊢
      rcases hab with hab | ⟨hab, hle⟩ <;> rcases hbc with hbc | ⟨hbc, hle'⟩
      · exact .inl (hab.trans hbc)
      · exact .inl (hbc ▸ hab)
      · exact .inl (hab ▸ hbc)
      · exact .inr ⟨hab.trans hbc, hle.trans hle'⟩
    · rw [Bool.or_eq_true, keyLe_iff, keyLe_iff]
      rcases lt_trichotomy (pValue pValues a) (pValue pValues b) with h | h | h
      · exact .inl (.inl h)
      · exact (Nat.le_total a b).imp (fun hle => .inr ⟨h, hle⟩) fun hle => .inr ⟨h.symm, hle⟩
      · exact .inr (.inl h)
    · rcases keyLe_iff.mp h with h | ⟨h, -⟩
      · exact h.le
      · exact h.le

/-- **The loop lemma.**  The loop adds the marks of the step-down test to those it has. -/
theorem markLoop_getElem? {rank : Nat} {rejected : List Bool}
    (hrank : pValues.length - rank = order.length) (horder : ∀ i ∈ order, i < rejected.length)
    (i : Nat) : (markLoop pValues alpha rank order rejected)[i]? = some true ↔
      rejected[i]? = some true ∨ i ∈ stepDown (pValue pValues) alpha order := by
  induction order generalizing rank rejected with
  | nil => simp [markLoop, stepDown]
  | cons index rest ih =>
    rw [markLoop, stepDown, hrank, length_cons]
    by_cases hlt : pValue pValues index < alpha / (rest.length + 1 : Nat)
    · rw [if_pos hlt, if_pos hlt, ih (by rw [length_cons] at hrank; omega)
        (fun j hj => by rw [length_set]; exact horder j (mem_cons_of_mem _ hj)),
        mem_cons]
      have hindex : index < rejected.length := horder index (mem_cons_self ..)
      by_cases hi : index = i
      · subst hi
        simp [hindex]
      · rw [getElem?_set_ne hi, or_iff_right (fun h : i = index => hi h.symm)]
    · rw [if_neg hlt, if_neg hlt]
      simp

theorem markLoop_length {rank : Nat} {rejected : List Bool} :
    (markLoop pValues alpha rank order rejected).length = rejected.length := by
  induction order generalizing rank rejected with
  | nil => rfl
  | cons index rest ih =>
    unfold markLoop
    split
    · rw [ih, length_set]
    · rfl

theorem marksInOrder_length : (marksInOrder pValues alpha order).length = pValues.length := by
  rw [marksInOrder, markLoop_length, length_replicate]

theorem marksInOrder_iff (halpha : 0 < alpha) (h : Sorts pValues order) {i : Nat}
    (hi : i < pValues.length) : (marksInOrder pValues alpha order)[i]? = some true ↔
      ClosedTest (pValue pValues) alpha (Finset.range pValues.length) i := by
  have hbound : ∀ j ∈ order, j < (replicate pValues.length false).length := by
    intro j hj
    rw [length_replicate]
    exact h.mem.mp hj
  have hfalse : ¬(replicate pValues.length false)[i]? = some true := by
    rw [getElem?_replicate_of_lt hi]
    simp
  rw [marksInOrder, markLoop_getElem? (h.length ▸ rfl) hbound, or_iff_right hfalse,
    mem_stepDown_iff halpha.le h.nodup h.sorted (h.mem.mpr hi), h.toFinset]

theorem marks_ext {xs ys : List Bool} (hlength : xs.length = ys.length)
    (h : ∀ i < xs.length, xs[i]? = some true ↔ ys[i]? = some true) : xs = ys := by
  refine ext_getElem hlength fun i hx hy => ?_
  have hi := h i hx
  rw [getElem?_eq_getElem hx, getElem?_eq_getElem hy, Option.some_inj, Option.some_inj] at hi
  exact Bool.eq_iff_iff.mpr hi

theorem pValue_set_le {k : Nat} {v : ℚ} (hv : v ≤ pValue pValues k) (j : Nat) :
    pValue (pValues.set k v) j ≤ pValue pValues j := by
  unfold pValue at hv ⊢
  rw [getD_eq_getElem?_getD, getElem?_set]
  split
  · rename_i hjk
    subst hjk
    split
    · exact hv
    · rename_i hout
      rw [getD_eq_getElem?_getD, getElem?_eq_none (not_lt.mp hout)]
  · rw [← getD_eq_getElem?_getD]

/-- **Holm decisions are the closed test.** -/
theorem holm_closed_test (pValues : List ℚ) (alpha : ℚ) (halpha : 0 < alpha) :
    (holmRejections pValues alpha).length = pValues.length ∧
    (∀ i < pValues.length, (holmRejections pValues alpha)[i]? = some true ↔
      ∀ s ⊆ Finset.range pValues.length, i ∈ s → ∃ j ∈ s, pValue pValues j < alpha / s.card) ∧
    (∀ order, Sorts pValues order →
      marksInOrder pValues alpha order = holmRejections pValues alpha) ∧
    ∀ (k : Nat) (v : ℚ), v ≤ pValue pValues k → ∀ i : Nat,
      (holmRejections pValues alpha)[i]? = some true →
        (holmRejections (pValues.set k v) alpha)[i]? = some true := by
  refine ⟨marksInOrder_length, fun i hi => marksInOrder_iff halpha (sorts_mergeSort pValues) hi,
    fun order horder => ?_, fun k v hv i hmark => ?_⟩
  · refine marks_ext (by rw [holmRejections, marksInOrder_length, marksInOrder_length]) fun i hi => ?_
    rw [marksInOrder_length] at hi
    rw [holmRejections, marksInOrder_iff halpha horder hi,
      marksInOrder_iff halpha (sorts_mergeSort pValues) hi]
  · have hi : i < pValues.length := by
      have hbound := (List.getElem?_eq_some_iff.mp hmark).1
      rwa [holmRejections, marksInOrder_length] at hbound
    have hi' : i < (pValues.set k v).length := by rwa [List.length_set]
    rw [holmRejections, marksInOrder_iff halpha (sorts_mergeSort _) hi] at hmark
    rw [holmRejections, marksInOrder_iff halpha (sorts_mergeSort _) hi', List.length_set]
    exact hmark.mono (pValue_set_le hv)

theorem holm_closed_test_sample : (holmRejections [1 / 10, 1 / 100, 1 / 10] (1 / 20)).length = 3 :=
  (holm_closed_test [1 / 10, 1 / 100, 1 / 10] (1 / 20) (by norm_num)).1

end Xtrax.Holm
