import Mathlib.Data.List.Basic
import Mathlib.Data.List.TakeWhile
import Mathlib.Tactic.Common

/-!
# Reading text back from bytes

A stream of bytes is written piece by piece, and the question is whether the pieces can be
told apart again.  For pieces of text the answer rests on two facts: no UTF-8 encoding of a
character is a prefix of another one (`utf8_cons_inj`), and a piece that does not contain
its own terminator ends at the first one (`utf8_until_inj`).  `run_inj` is the second fact
for a piece that ends where its kind of element does.
-/

namespace Xtrax

open List

/-! ### Runs of elements of one kind -/

/-- Two lists that start with elements of one kind, and go on with something else, start
with the same run. -/
theorem run_inj {α : Type} {p : α → Prop} {xs ys r r' : List α}
    (hxs : ∀ a ∈ xs, p a) (hys : ∀ a ∈ ys, p a)
    (hr : ∀ a ∈ r.head?, ¬ p a) (hr' : ∀ a ∈ r'.head?, ¬ p a)
    (h : xs ++ r = ys ++ r') : xs = ys ∧ r = r' := by
  induction xs generalizing ys with
  | nil =>
    cases ys with
    | nil => exact ⟨rfl, h⟩
    | cons y ys =>
      refine absurd (hys y (by simp)) (hr y ?_)
      rw [show r = y :: (ys ++ r') from h]
      rfl
  | cons x xs ih =>
    cases ys with
    | nil =>
      refine absurd (hxs x (by simp)) (hr' x ?_)
      rw [show r' = x :: (xs ++ r) from h.symm]
      rfl
    | cons y ys =>
      obtain ⟨rfl, htail⟩ := cons.inj h
      obtain ⟨rfl, rfl⟩ := ih (fun a ha => hxs a (mem_cons_of_mem _ ha))
        (fun a ha => hys a (mem_cons_of_mem _ ha)) htail
      exact ⟨rfl, rfl⟩

/-! ### UTF-8 -/

/-- The UTF-8 encoding of a text. -/
def utf8 (s : List Char) : List UInt8 := s.flatMap String.utf8EncodeChar

@[simp] theorem utf8_nil : utf8 [] = [] := rfl

@[simp] theorem utf8_cons (c : Char) (s : List Char) :
    utf8 (c :: s) = String.utf8EncodeChar c ++ utf8 s := rfl

@[simp] theorem utf8_append (s t : List Char) : utf8 (s ++ t) = utf8 s ++ utf8 t := by simp [utf8]

theorem utf8EncodeChar_append_inj {c d : Char} {r r' : List UInt8}
    (h : String.utf8EncodeChar c ++ r = String.utf8EncodeChar d ++ r') : c = d ∧ r = r' := by
  have hc := ByteArray.utf8DecodeChar?_utf8EncodeChar_append (b := r.toByteArray) (c := c)
  have hd := ByteArray.utf8DecodeChar?_utf8EncodeChar_append (b := r'.toByteArray) (c := d)
  rw [← toByteArray_append, h, toByteArray_append, hd] at hc
  obtain rfl := Option.some.inj hc
  exact ⟨rfl, append_cancel_left h⟩

/-- **UTF-8 is a prefix code**: two streams that both start with a character start with the
same one. -/
theorem utf8_cons_inj {c d : Char} {s t : List Char} {r r' : List UInt8}
    (h : utf8 (c :: s) ++ r = utf8 (d :: t) ++ r') : c = d ∧ utf8 s ++ r = utf8 t ++ r' := by
  rw [utf8_cons, utf8_cons, append_assoc, append_assoc] at h
  exact utf8EncodeChar_append_inj h

theorem utf8_append_cases {s t : List Char} {r r' : List UInt8} (h : utf8 s ++ r = utf8 t ++ r') :
    (∃ u, t = s ++ u ∧ r = utf8 u ++ r') ∨ (∃ u, s = t ++ u ∧ r' = utf8 u ++ r) := by
  induction s generalizing t with
  | nil => exact Or.inl ⟨t, rfl, h⟩
  | cons c s ih =>
    cases t with
    | nil => exact Or.inr ⟨c :: s, rfl, h.symm⟩
    | cons d t =>
      obtain ⟨rfl, htail⟩ := utf8_cons_inj h
      rcases ih htail with ⟨u, rfl, hu⟩ | ⟨u, rfl, hu⟩
      · exact Or.inl ⟨u, rfl, hu⟩
      · exact Or.inr ⟨u, rfl, hu⟩

theorem utf8_injective : Function.Injective utf8 := by
  have hnil : ∀ u : List Char, [] = utf8 u ++ [] → u = [] := by
    intro u hu
    cases u with
    | nil => rfl
    | cons c u => simp [String.utf8EncodeChar_ne_nil] at hu
  intro s t h
  rcases utf8_append_cases (congrArg (· ++ []) h) with ⟨u, rfl, hu⟩ | ⟨u, rfl, hu⟩
  · rw [hnil u hu, append_nil]
  · rw [hnil u hu, append_nil]

theorem utf8_until_inj {e : Char} {s t : List Char} {r r' : List UInt8}
    (hs : e ∉ s) (ht : e ∉ t) (h : utf8 (s ++ [e]) ++ r = utf8 (t ++ [e]) ++ r') :
    s = t ∧ r = r' := by
  induction s generalizing t with
  | nil =>
    cases t with
    | nil => exact ⟨rfl, (utf8_cons_inj h).2⟩
    | cons d t =>
      obtain ⟨rfl, -⟩ := utf8_cons_inj h
      exact absurd mem_cons_self ht
  | cons c s ih =>
    cases t with
    | nil =>
      obtain ⟨rfl, -⟩ := utf8_cons_inj h
      exact absurd mem_cons_self hs
    | cons d t =>
      obtain ⟨rfl, htail⟩ := utf8_cons_inj h
      obtain ⟨rfl, rfl⟩ := ih (fun hm => hs (mem_cons_of_mem _ hm))
        (fun hm => ht (mem_cons_of_mem _ hm)) htail
      exact ⟨rfl, rfl⟩

/-! ### Code points that are no characters -/

/-- A code point.  A text of a language may hold lone surrogates, which are no characters. -/
abbrev CodePoint := Fin 0x110000

/-- The bytes of a code point, also of a surrogate. -/
def utf8Point (c : Nat) : List UInt8 :=
  if c < 0x80 then [UInt8.ofNat c]
  else if c < 0x800 then [UInt8.ofNat (0xC0 + c / 64), UInt8.ofNat (0x80 + c % 64)]
  else if c < 0x10000 then
    [UInt8.ofNat (0xE0 + c / 4096), UInt8.ofNat (0x80 + c / 64 % 64), UInt8.ofNat (0x80 + c % 64)]
  else
    [UInt8.ofNat (0xF0 + c / 262144), UInt8.ofNat (0x80 + c / 4096 % 64),
      UInt8.ofNat (0x80 + c / 64 % 64), UInt8.ofNat (0x80 + c % 64)]

end Xtrax
