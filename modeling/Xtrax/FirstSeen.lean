import Mathlib.Data.List.Basic

/-! # The first of each key

A reader goes through a list and skips what has a key it has seen.  `firstSeen` is that loop
with the keys seen so far.  Every key of the list is the key of something that is kept.
-/
namespace FirstSeen

open List

variable {α K : Type*} [DecidableEq K] {key : α → K} {seen : List K} {l : List α} {a : α}

/-- What is kept of a list, when the keys `seen` have come up before. -/
def firstSeen (key : α → K) : List K → List α → List α
  | _, [] => []
  | seen, a :: l =>
    if key a ∈ seen then firstSeen key seen l else a :: firstSeen key (key a :: seen) l

theorem firstSeen_cons : firstSeen key seen (a :: l) =
    if key a ∈ seen then firstSeen key seen l else a :: firstSeen key (key a :: seen) l := rfl

theorem mem_of_mem_firstSeen (h : a ∈ firstSeen key seen l) : a ∈ l := by
  induction l generalizing seen with
  | nil => exact h
  | cons b l ih =>
    rw [firstSeen_cons] at h
    split at h
    · exact mem_cons_of_mem _ (ih h)
    · rcases mem_cons.mp h with rfl | h
      · exact mem_cons_self
      · exact mem_cons_of_mem _ (ih h)

theorem exists_mem_firstSeen (h : a ∈ l) :
    key a ∈ seen ∨ ∃ b ∈ firstSeen key seen l, key b = key a := by
  induction l generalizing seen with
  | nil => exact (not_mem_nil h).elim
  | cons c l ih =>
    rw [firstSeen_cons]
    split
    · rename_i hc
      rcases mem_cons.mp h with rfl | h
      · exact .inl hc
      · exact ih h
    · rcases mem_cons.mp h with rfl | h
      · exact .inr ⟨a, mem_cons_self, rfl⟩
      · have hrest : key a ∈ key c :: seen ∨
            ∃ b ∈ firstSeen key (key c :: seen) l, key b = key a := ih h
        rcases hrest with hseen | ⟨b, hb, hkey⟩
        · rcases mem_cons.mp hseen with heq | hseen
          · exact .inr ⟨c, mem_cons_self, heq.symm⟩
          · exact .inl hseen
        · exact .inr ⟨b, mem_cons_of_mem _ hb, hkey⟩

end FirstSeen
