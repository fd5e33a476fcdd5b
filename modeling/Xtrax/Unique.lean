import Mathlib.Data.List.Dedup
import Mathlib.Data.List.Sort

/-!
# Distinct values and sorting positions

`sorted` lists of one order are the same just when they have the same members.  `unique` lists the
distinct members of a list in ascending order and `inverse` says for each position which of them is
there.  `argsort` lists positions by their keys; it is a permutation of
the positions, so `idxOf` in it undoes it.
-/

namespace Unique

open List

variable {R K : Type*} [LinearOrder R] [LinearOrder K] {l : List R} {n : Nat} {key : Nat → K}

/-- The members, ascending. -/
def sorted (l : List R) : List R := l.mergeSort fun a b => a ≤ b

theorem sorted_perm : (sorted l).Perm l := mergeSort_perm _ _

theorem sorted_eq_iff {l' : List R} : sorted l = sorted l' ↔ l.Perm l' := by
  constructor
  · intro h
    exact sorted_perm.symm.trans (h ▸ sorted_perm)
  · intro h
    refine (sorted_perm.trans (h.trans sorted_perm.symm)).eq_of_pairwise ?_
      (pairwise_mergeSort' _ l) (pairwise_mergeSort' _ l')
    exact fun a b _ _ hab hba => le_antisymm hab hba

/-- The distinct members, ascending. -/
def unique (l : List R) : List R := sorted l.dedup

/-- Which of the distinct members is at each position. -/
def inverse (l : List R) : List Nat := l.map fun r => (unique l).idxOf r

theorem mem_unique {r : R} : r ∈ unique l ↔ r ∈ l := by rw [unique, sorted_perm.mem_iff, mem_dedup]

theorem nodup_unique : (unique l).Nodup :=
  sorted_perm.nodup_iff.mpr (nodup_dedup l)

theorem length_unique : (unique l).length = l.dedup.length := sorted_perm.length_eq

/-- Among the positions of `inverse`, the first of a member is where it is first in the list. -/
theorem idxOf_inverse {r : R} (hr : r ∈ l) :
    (inverse l).idxOf ((unique l).idxOf r) = l.idxOf r := by
  have hinj : ∀ l' : List R, l' ⊆ l →
      (l'.map fun r => (unique l).idxOf r).idxOf ((unique l).idxOf r) = l'.idxOf r := by
    intro l' hsub
    induction l' with
    | nil => rfl
    | cons a l' ih =>
      have ha : a ∈ unique l := mem_unique.mpr (hsub mem_cons_self)
      rw [map_cons, idxOf_cons, idxOf_cons]
      by_cases heq : a = r
      · subst heq
        rw [beq_self_eq_true, beq_self_eq_true]
        rfl
      · -- distinct members have distinct numbers
        have hne : (unique l).idxOf a ≠ (unique l).idxOf r := by
          intro h
          exact heq ((idxOf_inj ha).mp h)
        rw [beq_eq_false_iff_ne.mpr heq, beq_eq_false_iff_ne.mpr hne,
          ih fun x hx => hsub (mem_cons_of_mem _ hx)]
  exact hinj l (List.Subset.refl l)

/-- The positions below `n` by their keys. -/
def argsort (n : Nat) (key : Nat → K) : List Nat :=
  (List.range n).mergeSort fun i j => key i ≤ key j

theorem argsort_perm : (argsort n key).Perm (range n) := mergeSort_perm _ _

theorem nodup_argsort : (argsort n key).Nodup := argsort_perm.nodup_iff.mpr nodup_range

theorem mem_argsort {i : Nat} : i ∈ argsort n key ↔ i < n := by rw [argsort_perm.mem_iff, mem_range]

theorem pairwise_argsort : (argsort n key).Pairwise fun i j => key i ≤ key j :=
  pairwise_mergeSort' (fun i j => key i ≤ key j) (range n)

theorem pairwise_lt_argsort (hinj : ∀ i < n, ∀ j < n, key i = key j → i = j) :
    (argsort n key).Pairwise fun i j => key i < key j := by
  refine (pairwise_argsort.and nodup_argsort).imp_of_mem ?_
  rintro i j hi hj ⟨hle, hne⟩
  refine lt_of_le_of_ne hle fun heq => hne ?_
  exact hinj i (mem_argsort.mp hi) j (mem_argsort.mp hj) heq

end Unique
