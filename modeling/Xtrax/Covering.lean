import Mathlib.Data.Set.Insert
import Mathlib.Logic.Function.Basic
import Mathlib.Order.Defs.PartialOrder

/-! # Files that cover one another

A family of files, each holding a set of items, of which some are live.  Files are merged:
a new file is written that holds what its inputs hold, and the inputs go.  What makes this
safe for any number of mergers at once is an order: a file's inputs are before it, so
"covers" never runs in a circle.

`Covered` says that every item that a file ever held is held by a live file that is not
before it.  Adding a file keeps it (`Covered.add`), and so does taking away a file that a
later one covers (`Covered.remove`), whether or not that later one is still live.
-/
namespace Covering

variable {ι P : Type*} [Preorder ι]

/-- Every item that a file holds is held by a live file at or after it. -/
def Covered (held : ι → Set P) (live : Set ι) : Prop :=
  ∀ n, ∀ p ∈ held n, ∃ m ∈ live, n ≤ m ∧ p ∈ held m

variable {held : ι → Set P} {live : Set ι}

theorem Covered.initial (h : ∀ n, held n = ∅) : Covered held live := by
  intro n p hp
  rw [h n] at hp
  cases hp

theorem Covered.add [DecidableEq ι] (h : Covered held live) {n : ι} {items : Set P}
    (hnew : held n = ∅) : Covered (Function.update held n items) (insert n live) := by
  intro k p hp
  by_cases hk : k = n
  · subst hk
    exact ⟨k, Set.mem_insert .., le_refl k, hp⟩
  · rw [Function.update_of_ne hk] at hp
    obtain ⟨m, hm, hle, hpm⟩ := h k p hp
    refine ⟨m, Set.mem_insert_of_mem _ hm, hle, ?_⟩
    have hmn : m ≠ n := by
      rintro rfl
      rw [hnew] at hpm
      cases hpm
    rwa [Function.update_of_ne hmn]

theorem Covered.remove (h : Covered held live) {n c : ι} (hafter : n < c)
    (hcovers : held n ⊆ held c) : Covered held (live \ {n}) := by
  intro k p hp
  obtain ⟨m, hm, hle, hpm⟩ := h k p hp
  by_cases hmn : m = n
  · -- the file that goes was the one: what covers it is at or after `c`
    subst hmn
    obtain ⟨m', hm', hle', hpm'⟩ := h c p (hcovers hpm)
    have hlt : m < m' := lt_of_lt_of_le hafter hle'
    exact ⟨m', ⟨hm', hlt.ne'⟩, hle.trans hlt.le, hpm'⟩
  · exact ⟨m, ⟨hm, hmn⟩, hle, hpm⟩

end Covering
