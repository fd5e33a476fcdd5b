import Mathlib.Algebra.Order.Field.Basic
import Mathlib.Data.Finset.Card
import Mathlib.Data.Nat.Cast.Order.Ring

/-!
# Step-down tests and the closed test

A step-down test goes through the hypotheses from the most significant one on, and stops at the
first that is kept.  The closed test rejects a hypothesis when every intersection it takes part in
is rejected.  With the thresholds `α / size` they are the same (`mem_stepDown_iff`).
-/

namespace StepDown

open List

variable {ι K : Type*} [DecidableEq ι] [Field K] [LinearOrder K] [IsStrictOrderedRing K]
variable {p q : ι → K} {α : K} {i : ι} {l : List ι}

/-- Every set of hypotheses with `i` has one whose `p` is below `α` over its size. -/
def ClosedTest (p : ι → K) (α : K) (all : Finset ι) (i : ι) : Prop :=
  ∀ s ⊆ all, i ∈ s → ∃ j ∈ s, p j < α / s.card

/-- What a step-down test rejects, going through `l`. -/
def stepDown (p : ι → K) (α : K) : List ι → List ι
  | [] => []
  | i :: rest => if p i < α / (rest.length + 1 : Nat) then i :: stepDown p α rest else []

omit [DecidableEq ι] [IsStrictOrderedRing K] in
theorem ClosedTest.mono {all : Finset ι} (hq : ∀ j, q j ≤ p j) (h : ClosedTest p α all i) :
    ClosedTest q α all i := by
  intro s hs hi
  obtain ⟨j, hj, hlt⟩ := h s hs hi
  exact ⟨j, hj, (hq j).trans_lt hlt⟩

omit [DecidableEq ι] in
theorem threshold_le (hα : 0 ≤ α) {s : Finset ι} {n : Nat} (hcard : s.card ≤ n) (hi : i ∈ s) :
    α / n ≤ α / s.card := by
  have hpos : 0 < s.card := Finset.card_pos.mpr ⟨i, hi⟩
  exact div_le_div_of_nonneg_left hα (by exact_mod_cast hpos) (by exact_mod_cast hcard)

/-- **A step-down test is the closed test**, by induction along the order: the first hypothesis
settles every set it is in, or all of what is left is kept. -/
theorem mem_stepDown_iff (hα : 0 ≤ α) (hnodup : l.Nodup)
    (hsorted : l.Pairwise fun i j => p i ≤ p j) (hi : i ∈ l) :
    i ∈ stepDown p α l ↔ ClosedTest p α l.toFinset i := by
  induction l with
  | nil => exact absurd hi not_mem_nil
  | cons a rest ih =>
    obtain ⟨ha, hrest⟩ := nodup_cons.mp hnodup
    obtain ⟨hle, hsorted⟩ := pairwise_cons.mp hsorted
    have hcard : (a :: rest).toFinset.card = rest.length + 1 :=
      toFinset_card_of_nodup hnodup
    by_cases hreject : p a < α / (rest.length + 1 : Nat)
    · rw [stepDown, if_pos hreject, mem_cons]
      have hfirst : ∀ s ⊆ (a :: rest).toFinset, a ∈ s → ∃ j ∈ s, p j < α / s.card := by
        intro s hs has
        have hsize : s.card ≤ rest.length + 1 := hcard ▸ Finset.card_le_card hs
        exact ⟨a, has, hreject.trans_le (threshold_le hα hsize has)⟩
      by_cases hia : i = a
      · subst hia
        exact ⟨fun _ s hs his => hfirst s hs his, fun _ => .inl rfl⟩
      · have hirest : i ∈ rest := (mem_cons.mp hi).resolve_left hia
        rw [or_iff_right hia, ih hrest hsorted hirest, toFinset_cons]
        constructor
        · intro h s hs his
          by_cases has : a ∈ s
          · rw [← toFinset_cons] at hs
            exact hfirst s hs has
          · exact h s ((Finset.subset_insert_iff_of_notMem has).mp hs) his
        · intro h s hs his
          exact h s (hs.trans (Finset.subset_insert _ _)) his
    · rw [stepDown, if_neg hreject]
      refine ⟨fun h => absurd h not_mem_nil, fun h => ?_⟩
      obtain ⟨j, hj, hlt⟩ := h _ (Finset.Subset.refl _) (mem_toFinset.mpr hi)
      rw [hcard] at hlt
      have haj : p a ≤ p j := by
        rcases mem_cons.mp (mem_toFinset.mp hj) with rfl | hj
        · exact le_refl _
        · exact hle j hj
      exact absurd (haj.trans_lt hlt) hreject

end StepDown
