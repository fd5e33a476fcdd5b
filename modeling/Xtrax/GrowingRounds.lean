import Mathlib.Data.Finset.Basic
import Mathlib.Data.List.Basic
import Mathlib.Data.List.Forall2

/-!
# Rounds of growing sets

A row of slots holds a set each.  In one round a function is applied to the row and its
results are added to the slots, until nothing is added or a number of rounds is up.

The function is *local* when an element is in its results or not depending only on the slots
the element is in.  As long as an element spreads, it takes a new slot in every round: with one
round more than there are slots the rounds always settle (`rounds_settled`), and what they
settle on is local again (`rounds_same`).
-/

namespace Xtrax

variable {α : Type} [DecidableEq α]

/-- An element is in the same slots of two rows. -/
def SameAt (i : α) (s t : List (Finset α)) : Prop := List.Forall₂ (fun a b => i ∈ a ↔ i ∈ b) s t

namespace SameAt

omit [DecidableEq α]

variable {i : α} {s t u : List (Finset α)}

theorem refl (i : α) (s : List (Finset α)) : SameAt i s s := List.forall₂_refl s

theorem symm (h : SameAt i s t) : SameAt i t s := by
  induction h with
  | nil => exact List.Forall₂.nil
  | cons h _ ih => exact List.Forall₂.cons h.symm ih

theorem trans (h : SameAt i s t) (h' : SameAt i t u) : SameAt i s u := by
  induction h generalizing u with
  | nil => exact h'
  | cons hab _ ih =>
    obtain _ | ⟨hbc, hrest⟩ := h'
    exact List.Forall₂.cons (hab.trans hbc) (ih hrest)

theorem length_eq (h : SameAt i s t) : s.length = t.length := List.Forall₂.length_eq h

theorem append {s' t' : List (Finset α)} (h : SameAt i s t) (h' : SameAt i s' t') :
    SameAt i (s ++ s') (t ++ t') := List.rel_append h h'

theorem take (h : SameAt i s t) (n : Nat) : SameAt i (s.take n) (t.take n) :=
  List.forall₂_take n h

theorem drop (h : SameAt i s t) (n : Nat) : SameAt i (s.drop n) (t.drop n) :=
  List.forall₂_drop n h

end SameAt

/-- One round: the results are added to the slots. -/
def grow (current outs : List (Finset α)) : Option (List (Finset α)) :=
  if current.length ≤ outs.length then some (current.zipWith (· ∪ ·) outs) else none

/-- Rounds of a function, at most so many, until nothing is added: the row and the results of
the last round. -/
def rounds (f : List (Finset α) → Option (List (Finset α))) :
    Nat → List (Finset α) → List (Finset α) → Option (List (Finset α) × List (Finset α))
  | 0, current, outs => some (current, outs)
  | k + 1, current, _ => do
    let outs ← f current
    let grown ← grow current outs
    if grown = current then return (current, outs) else rounds f k grown outs

theorem grow_eq_some {current outs grown : List (Finset α)} (h : grow current outs = some grown) :
    current.length ≤ outs.length ∧ current.zipWith (· ∪ ·) outs = grown := by
  unfold grow at h
  split at h
  · exact ⟨‹_›, Option.some.inj h⟩
  · exact absurd h (by simp)

theorem length_grow {current outs grown : List (Finset α)} (h : grow current outs = some grown) :
    grown.length = current.length := by
  obtain ⟨hle, rfl⟩ := grow_eq_some h
  rw [List.length_zipWith]
  omega

theorem sameAt_grow {i : α} {c d o p g g' : List (Finset α)} (hcd : SameAt i c d)
    (hop : SameAt i o p) (hg : grow c o = some g) (hg' : grow d p = some g') : SameAt i g g' := by
  obtain ⟨-, rfl⟩ := grow_eq_some hg
  obtain ⟨-, rfl⟩ := grow_eq_some hg'
  clear hg hg'
  induction hcd generalizing o p with
  | nil => exact List.Forall₂.nil
  | cons h _ ih =>
    cases hop with
    | nil => exact List.Forall₂.nil
    | cons h' hrest =>
      exact List.Forall₂.cons (by rw [Finset.mem_union, Finset.mem_union, h, h']) (ih hrest)

/-! ### Every round that adds an element takes a new slot for it -/

/-- The number of slots an element is in. -/
def slots (i : α) (s : List (Finset α)) : Nat := s.countP (i ∈ ·)

theorem slots_le_length (i : α) (s : List (Finset α)) : slots i s ≤ s.length :=
  List.countP_le_length

theorem slots_eq_of_sameAt {i : α} {s t : List (Finset α)} (h : SameAt i s t) :
    slots i s = slots i t := by
  induction h with
  | nil => rfl
  | cons hab _ ih =>
    unfold slots at ih ⊢
    simp only [List.countP_cons, hab, ih]

theorem slots_zipWith_union (i : α) (c o : List (Finset α)) (h : c.length ≤ o.length) :
    SameAt i c (c.zipWith (· ∪ ·) o) ∧ slots i c = slots i (c.zipWith (· ∪ ·) o) ∨
      slots i c + 1 ≤ slots i (c.zipWith (· ∪ ·) o) := by
  induction c generalizing o with
  | nil => exact Or.inl ⟨List.Forall₂.nil, rfl⟩
  | cons a c ih =>
    cases o with
    | nil => exact absurd h (by simp)
    | cons b o =>
      have hrest := ih o (by simpa using h)
      simp only [slots, List.zipWith_cons_cons, List.countP_cons, decide_eq_true_eq,
        Finset.mem_union] at hrest ⊢
      by_cases ha : i ∈ a
      · rcases hrest with ⟨hsame, heq⟩ | hlt
        · left
          refine ⟨List.Forall₂.cons (by simp [ha]) hsame, ?_⟩
          simp [ha, heq]
        · right
          simp only [ha, true_or, if_true]
          omega
      · by_cases hb : i ∈ b
        · right
          simp only [ha, hb, or_true, if_true, if_false]
          rcases hrest with ⟨-, heq⟩ | hlt
          · omega
          · omega
        · rcases hrest with ⟨hsame, heq⟩ | hlt
          · left
            refine ⟨List.Forall₂.cons (by simp [ha, hb]) hsame, ?_⟩
            simp [ha, hb, heq]
          · right
            simp only [ha, hb, or_self, if_false]
            omega

theorem grow_slots {c o g : List (Finset α)} (h : grow c o = some g) (i : α) :
    SameAt i c g ∧ slots i c = slots i g ∨ slots i c + 1 ≤ slots i g := by
  obtain ⟨hle, rfl⟩ := grow_eq_some h
  exact slots_zipWith_union i c o hle

omit [DecidableEq α] in
theorem eq_of_sameAt {s t : List (Finset α)} (hlen : s.length = t.length)
    (h : ∀ i, SameAt i s t) : s = t := by
  induction s generalizing t with
  | nil => exact (List.length_eq_zero_iff.mp hlen.symm).symm
  | cons a s ih =>
    cases t with
    | nil => exact absurd hlen (by simp)
    | cons b t =>
      have hab : a = b := by
        ext i
        exact (List.forall₂_cons.mp (h i)).1
      rw [hab, ih (by simpa using hlen) fun i => (List.forall₂_cons.mp (h i)).2]

/-! ### Rounds of local functions -/

section Local

variable {f g : List (Finset α) → Option (List (Finset α))}

/-- Two functions that treat an element in the same way, wherever it is. -/
def Alike (i : α) (f g : List (Finset α) → Option (List (Finset α))) : Prop :=
  ∀ c d o p, f c = some o → g d = some p → SameAt i c d → SameAt i o p

omit [DecidableEq α] in
theorem Alike.symm {i : α} (h : Alike i f g) : Alike i g f :=
  fun c d o p hc hd hcd => (h d c p o hd hc hcd.symm).symm

theorem rounds_stay {i : α} (hfg : Alike i f g) {c o e : List (Finset α)} (hc : f c = some o)
    (he : grow c o = some e) (hstay : SameAt i c e) (k : Nat) :
    ∀ {d p d' p' : List (Finset α)}, SameAt i c d → SameAt i o p →
      rounds g k d p = some (d', p') → SameAt i c d' ∧ SameAt i o p' := by
  induction k with
  | zero =>
    intro d p d' p' hcd hop h
    cases h
    exact ⟨hcd, hop⟩
  | succ k ih =>
    intro d p d' p' hcd hop h
    simp only [rounds, Option.bind_eq_bind, Option.bind_eq_some_iff] at h
    obtain ⟨q, hq, grown, hgrown, h⟩ := h
    have hoq := hfg c d o q hc hq hcd
    split at h
    · cases h
      exact ⟨hcd, hoq⟩
    · exact ih (hstay.trans (sameAt_grow hcd hoq he hgrown)) hoq h

theorem rounds_same {i : α} (hfg : Alike i f g) (k : Nat) :
    ∀ {c d o p c' d' o' p' : List (Finset α)}, SameAt i c d → SameAt i o p →
      rounds f k c o = some (c', o') → rounds g k d p = some (d', p') →
      SameAt i c' d' ∧ SameAt i o' p' := by
  induction k with
  | zero =>
    intro c d o p c' d' o' p' hcd hop hf hg
    cases hf
    cases hg
    exact ⟨hcd, hop⟩
  | succ k ih =>
    intro c d o p c' d' o' p' hcd hop hf hg
    simp only [rounds, Option.bind_eq_bind, Option.bind_eq_some_iff] at hf hg
    obtain ⟨q, hq, grown, hgrown, hf⟩ := hf
    obtain ⟨r, hr, grown', hgrown', hg⟩ := hg
    have hqr := hfg c d q r hq hr hcd
    have hsame := sameAt_grow hcd hqr hgrown hgrown'
    split at hf
    · cases hf
      rename_i hsettled
      split at hg
      · cases hg
        exact ⟨hcd, hqr⟩
      · rw [hsettled] at hsame hgrown
        exact rounds_stay hfg hq hgrown (SameAt.refl i c) k hsame hqr hg
    · split at hg
      · cases hg
        rename_i hsettled
        rw [hsettled] at hsame hgrown'
        obtain ⟨hc', ho'⟩ :=
          rounds_stay hfg.symm hr hgrown' (SameAt.refl i d) k hsame.symm hqr.symm hf
        exact ⟨hc'.symm, ho'.symm⟩
      · exact ih hsame hqr hf hg

theorem length_rounds (k : Nat) : ∀ {c o c' o' : List (Finset α)},
    rounds f k c o = some (c', o') → c'.length = c.length := by
  induction k with
  | zero =>
    intro c o c' o' h
    rw [(Prod.mk.inj (Option.some.inj h)).1]
  | succ k ih =>
    intro c o c' o' h
    simp only [rounds, Option.bind_eq_bind, Option.bind_eq_some_iff] at h
    obtain ⟨q, hq, grown, hgrown, h⟩ := h
    split at h
    · rw [(Prod.mk.inj (Option.some.inj h)).1]
    · rw [ih h, length_grow hgrown]

theorem rounds_settled_or (hf : ∀ i, Alike i f f) (k : Nat) :
    ∀ {c o c' o' : List (Finset α)}, rounds f (k + 1) c o = some (c', o') →
      (f c' = some o' ∧ grow c' o' = some c') ∨ ∃ i, slots i c + (k + 1) ≤ slots i c' := by
  induction k with
  | zero =>
    intro c o c' o' h
    simp only [rounds, Option.bind_eq_bind, Option.bind_eq_some_iff] at h
    obtain ⟨q, hq, grown, hgrown, h⟩ := h
    split at h
    · cases h
      rename_i hsettled
      exact Or.inl ⟨hq, hsettled ▸ hgrown⟩
    · cases h
      rename_i hgrew
      right
      by_contra hnone
      refine hgrew (eq_of_sameAt (length_grow hgrown) fun i => ?_)
      rcases grow_slots hgrown i with ⟨hsame, -⟩ | hlt
      · exact hsame.symm
      · exact absurd ⟨i, hlt⟩ hnone
  | succ k ih =>
    intro c o c' o' h
    rw [rounds] at h
    simp only [Option.bind_eq_bind, Option.bind_eq_some_iff] at h
    obtain ⟨q, hq, grown, hgrown, h⟩ := h
    split at h
    · cases h
      rename_i hsettled
      exact Or.inl ⟨hq, hsettled ▸ hgrown⟩
    · rcases ih h with hsettled | ⟨i, hslots⟩
      · exact Or.inl hsettled
      · right
        refine ⟨i, ?_⟩
        rcases grow_slots hgrown i with ⟨hsame, -⟩ | hlt
        · -- an element that one round did not spread is not spread by the rounds after it
          obtain ⟨hend, -⟩ :=
            rounds_stay (hf i) hq hgrown hsame (k + 1) hsame (SameAt.refl i q) h
          have hcount := slots_eq_of_sameAt (hsame.symm.trans hend)
          omega
        · omega

/-- **With one round more than there are slots, rounds of a local function settle.** -/
theorem rounds_settled (hf : ∀ i, Alike i f f) {c o c' o' : List (Finset α)}
    (h : rounds f (c.length + 1) c o = some (c', o')) :
    f c' = some o' ∧ grow c' o' = some c' := by
  rcases rounds_settled_or hf c.length h with hsettled | ⟨i, hslots⟩
  · exact hsettled
  · have hle := slots_le_length i c'
    have hlen := length_rounds _ h
    omega

omit [DecidableEq α] in
theorem forall₂_subset_trans {s t u : List (Finset α)} (h : List.Forall₂ (· ⊆ ·) s t)
    (h' : List.Forall₂ (· ⊆ ·) t u) : List.Forall₂ (· ⊆ ·) s u := by
  induction h generalizing u with
  | nil => exact h'
  | cons hab _ ih =>
    obtain _ | ⟨hbc, hrest⟩ := h'
    exact List.Forall₂.cons (hab.trans hbc) (ih hrest)

theorem subset_grow {c o e : List (Finset α)} (h : grow c o = some e) :
    List.Forall₂ (· ⊆ ·) c e := by
  obtain ⟨hle, rfl⟩ := grow_eq_some h
  clear h
  induction c generalizing o with
  | nil => exact List.Forall₂.nil
  | cons a c ih =>
    cases o with
    | nil => exact absurd hle (by simp)
    | cons b o => exact List.Forall₂.cons Finset.subset_union_left (ih (by simpa using hle))

theorem subset_of_settled {c o : List (Finset α)} (h : grow c o = some c) :
    List.Forall₂ (· ⊆ ·) (o.take c.length) c := by
  obtain ⟨hle, heq⟩ := grow_eq_some h
  clear h
  induction c generalizing o with
  | nil => simp
  | cons a c ih =>
    cases o with
    | nil => exact absurd hle (by simp)
    | cons b o =>
      obtain ⟨hunion, hrest⟩ := List.cons.inj heq
      exact List.Forall₂.cons (Finset.union_eq_left.mp hunion) (ih (by simpa using hle) hrest)

theorem subset_rounds (k : Nat) : ∀ {c o c' o' : List (Finset α)},
    rounds f k c o = some (c', o') → List.Forall₂ (· ⊆ ·) c c' := by
  induction k with
  | zero =>
    intro c o c' o' h
    cases h
    exact List.forall₂_refl c
  | succ k ih =>
    intro c o c' o' h
    simp only [rounds, Option.bind_eq_bind, Option.bind_eq_some_iff] at h
    obtain ⟨q, hq, grown, hgrown, h⟩ := h
    split at h
    · cases h
      exact List.forall₂_refl c
    · exact forall₂_subset_trans (subset_grow hgrown) (ih h)

end Local

end Xtrax
