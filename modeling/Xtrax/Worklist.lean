import Mathlib

/-!
# Worklists

A `while` loop runs as long as its measure allows (`whileLoop_returns`).  The measure of a
worklist is what waits and what those not yet marked may still add (`remaining`): to mark one
releases just that (`remaining_mark`).
-/

namespace Worklist

open List

/-! ### Loops -/

section

variable {σ ε : Type*}

/-- `while more s: s = body s`, for at most `n` passes; `none` when they do not do. -/
def whileLoop (more : σ → Bool) (body : σ → Except ε σ) : Nat → σ → Except ε (Option σ)
  | 0, s => .ok (if more s then none else some s)
  | n + 1, s =>
    if more s then
      match body s with
      | .error e => .error e
      | .ok t => whileLoop more body n t
    else .ok (some s)

variable {more : σ → Bool} {body : σ → Except ε σ}

/-- **The rule for loops.**  A loop whose body keeps `I` and brings the measure down returns. -/
theorem whileLoop_returns {I : σ → Prop} {measure : σ → Nat}
    (hbody : ∀ s, I s → more s = true → ∃ t, body s = .ok t ∧ I t ∧ measure t < measure s)
    {n : Nat} {s : σ} (hs : I s) (hn : measure s ≤ n) :
    ∃ t, whileLoop more body n s = .ok (some t) ∧ I t ∧ more t = false := by
  induction n generalizing s with
  | zero =>
    cases hmore : more s with
    | true =>
      obtain ⟨t, -, -, hlt⟩ := hbody s hs hmore
      omega
    | false => exact ⟨s, by rw [whileLoop, hmore]; rfl, hs, hmore⟩
  | succ n ih =>
    cases hmore : more s with
    | true =>
      obtain ⟨t, ht, hI, hlt⟩ := hbody s hs hmore
      obtain ⟨u, hu, hIu, hdone⟩ := ih hI (by omega)
      exact ⟨u, by rw [whileLoop, if_pos hmore, ht]; exact hu, hIu, hdone⟩
    | false => exact ⟨s, by rw [whileLoop, hmore]; rfl, hs, hmore⟩

end

/-! ### What may still be added -/

section

variable {α κ : Type*} [DecidableEq κ] (key : α → κ) (weight : α → Nat)

/-- What the items that are not marked may still add. -/
def remaining (items : List α) (marked : List κ) : Nat :=
  ((items.filter fun a => key a ∉ marked).map weight).sum

variable {key weight} {items : List α} {marked : List κ}

theorem remaining_cons (a : α) : remaining key weight (a :: items) marked =
    (if key a ∈ marked then 0 else weight a) + remaining key weight items marked := by
  unfold remaining
  by_cases h : key a ∈ marked <;> simp [h]

theorem remaining_other {k : κ} (hk : k ∉ items.map key) :
    remaining key weight items (k :: marked) = remaining key weight items marked := by
  induction items with
  | nil => rfl
  | cons a items ih =>
    rw [map_cons, mem_cons, not_or] at hk
    rw [remaining_cons, remaining_cons, ih hk.2]
    simp [Ne.symm hk.1]

/-- **What a mark releases.** -/
theorem remaining_mark (hnodup : (items.map key).Nodup) {a : α} (ha : a ∈ items)
    (hnew : key a ∉ marked) :
    remaining key weight items (key a :: marked) + weight a =
      remaining key weight items marked := by
  induction items with
  | nil => exact absurd ha not_mem_nil
  | cons b items ih =>
    rw [map_cons, nodup_cons] at hnodup
    rw [remaining_cons, remaining_cons]
    rcases mem_cons.mp ha with rfl | ha
    · rw [remaining_other hnodup.1, if_pos (mem_cons_self ..), if_neg hnew]
      omega
    · have hne : key b ≠ key a := fun h => hnodup.1 (h ▸ mem_map_of_mem ha)
      have hih := ih hnodup.2 ha
      have hiff : key b ∈ key a :: marked ↔ key b ∈ marked := by simp [hne]
      simp only [hiff]
      omega

end

/-! ### Closed sets -/

theorem closed_of_reached {α : Type*} {step : α → α → Prop} {C : α → Prop}
    (hclosed : ∀ a b, C a → step a b → C b) {a b : α} (ha : C a)
    (h : Relation.ReflTransGen step a b) : C b := by
  induction h with
  | refl => exact ha
  | tail _ hstep ih => exact hclosed _ _ ih hstep

end Worklist
