import Xtrax.PyJsonRoundTrip

/-!
# The texts of numbers

A sign, digits, a fraction and an exponent, as Python writes an integer or a finite float.  A text
with a fraction or an exponent is read as the same float wherever it stands in a document
(`scanNumber_float`).
-/

namespace Xtrax.PyJson

open List

/-- The digits of an integer. -/
structure IsInteger (digits : List Char) : Prop where
  nonempty : digits ≠ []
  digit : ∀ c ∈ digits, c.isDigit = true
  zero : digits.head? = some '0' → digits = ['0']

/-- A point and digits, or nothing. -/
inductive IsFraction : List Char → Prop
  | none : IsFraction []
  | digits {digits} : digits ≠ [] → (∀ c ∈ digits, c.isDigit = true) → IsFraction ('.' :: digits)

/-- The letter `e`, a sign and digits, or nothing. -/
inductive IsExponent : List Char → Prop
  | none : IsExponent []
  | digits {sign digits} : sign = '+' ∨ sign = '-' → digits ≠ [] →
      (∀ c ∈ digits, c.isDigit = true) → IsExponent ('e' :: sign :: digits)

/-- A sign, an integer, a fraction and an exponent. -/
structure IsNumber (sign digits fraction exponent : List Char) : Prop where
  sign : sign = [] ∨ sign = ['-']
  digits : IsInteger digits
  fraction : IsFraction fraction
  exponent : IsExponent exponent

theorem IsInteger.head {digits : List Char} (h : IsInteger digits) :
    ∃ d t, digits = d :: t ∧ d.isDigit = true := by
  cases digits with
  | nil => exact absurd rfl h.nonempty
  | cons d t => exact ⟨d, t, rfl, h.digit d mem_cons_self⟩

theorem IsNumber.head {sign digits fraction exponent : List Char}
    (h : IsNumber sign digits fraction exponent) : ∃ c t,
      sign ++ digits ++ fraction ++ exponent = c :: t ∧ (c.isDigit = true ∨ c = '-') := by
  obtain ⟨d, t, rfl, hd⟩ := h.digits.head
  rcases h.sign with rfl | rfl
  · exact ⟨d, _, rfl, .inl hd⟩
  · exact ⟨'-', _, rfl, .inr rfl⟩

theorem newline_not_mem_digits {digits : List Char} (h : ∀ c ∈ digits, c.isDigit = true) :
    '\n' ∉ digits := fun hmem => absurd (h _ hmem) (by decide)

theorem IsNumber.inline {sign digits fraction exponent : List Char}
    (h : IsNumber sign digits fraction exponent) :
    '\n' ∉ sign ++ digits ++ fraction ++ exponent := by
  have hfraction : '\n' ∉ fraction := by
    cases h.fraction with
    | none => exact not_mem_nil
    | digits _ hdigits =>
      exact not_mem_cons_of_ne_of_not_mem (by decide) (newline_not_mem_digits hdigits)
  have hexponent : '\n' ∉ exponent := by
    cases h.exponent with
    | none => exact not_mem_nil
    | digits hsign _ hdigits =>
      apply not_mem_cons_of_ne_of_not_mem (by decide)
      apply not_mem_cons_of_ne_of_not_mem _ (newline_not_mem_digits hdigits)
      rcases hsign with rfl | rfl <;> decide
  have hsign : '\n' ∉ sign := by rcases h.sign with rfl | rfl <;> decide
  rw [mem_append, mem_append, mem_append]
  rintro (((hmem | hmem) | hmem) | hmem)
  · exact hsign hmem
  · exact newline_not_mem_digits h.digits.digit hmem
  · exact hfraction hmem
  · exact hexponent hmem

theorem isInteger_toDigits (n : Nat) : IsInteger (Nat.toDigits 10 n) where
  nonempty := Nat.toDigits_ne_nil
  digit := isDigit_toDigits n
  zero := toDigits_leading n

/-! ### Reading a float -/

def exponentPower : List Char → Option Int
  | 'e' :: sign :: digits =>
    some ((if sign = '-' then -1 else 1) * (Nat.ofDigitChars 10 digits 0 : Int))
  | _ => none

theorem scanFraction_shape {fraction rest : List Char} (h : IsFraction fraction)
    (hrest : ∀ c ∈ rest.head?, c.isDigit = false ∧ c ≠ '.') :
    scanFraction (fraction ++ rest) = (fraction.drop 1, rest) := by
  cases h with
  | none =>
    show scanFraction rest = ([], rest)
    unfold scanFraction
    split
    · exact absurd rfl (hrest '.' rfl).2
    · rfl
  | digits hne hdigits =>
    rename_i digits
    have hspan := span_digits hdigits fun c hc => (hrest c hc).1
    show scanFraction ('.' :: (digits ++ rest)) = _
    rw [scanFraction, hspan]
    cases digits with
    | nil => exact absurd rfl hne
    | cons d digits => rfl

theorem scanExponent_shape {exponent rest : List Char} (h : IsExponent exponent)
    (hrest : NumberEnds rest) :
    scanExponent (exponent ++ rest) = (exponentPower exponent).map fun power => (power, rest) := by
  cases h with
  | none =>
    cases rest with
    | nil => rfl
    | cons c rest =>
      show scanExponent (c :: rest) = none
      unfold scanExponent
      apply if_neg
      rintro (rfl | rfl)
      · exact (hrest 'e' rfl).2.2.1 rfl
      · exact (hrest 'E' rfl).2.2.2 rfl
  | digits hsign hne hdigits =>
    rename_i sign digits
    have hspan := span_digits hdigits fun c hc => (hrest c hc).1
    have hscan : ∀ negative, scanExponentDigits negative (digits ++ rest) =
        some ((if negative then -1 else 1) * (Nat.ofDigitChars 10 digits 0 : Int), rest) := by
      intro negative
      rw [scanExponentDigits, hspan]
      cases digits with
      | nil => exact absurd rfl hne
      | cons d digits => rfl
    rcases hsign with rfl | rfl
    · exact hscan false
    · exact hscan true

/-- A text with a fraction or an exponent. -/
structure IsFloat (sign digits fraction exponent : List Char) : Prop where
  number : IsNumber sign digits fraction exponent
  point : fraction ≠ [] ∨ exponent ≠ []

def decimalOf (sign digits fraction exponent : List Char) : PyFloat :=
  .decimal (sign = ['-']) (Nat.ofDigitChars 10 (digits ++ fraction.drop 1) 0)
    ((exponentPower exponent).getD 0 - (fraction.drop 1).length)

theorem scanRest_float {sign digits fraction exponent rest : List Char}
    (h : IsFloat sign digits fraction exponent) (hrest : NumberEnds rest) :
    scanRest (sign = ['-']) digits (fraction ++ (exponent ++ rest)) =
      .ok (.float (decimalOf sign digits fraction exponent), rest) := by
  have hnext : ∀ c ∈ (exponent ++ rest).head?, c.isDigit = false ∧ c ≠ '.' := by
    cases h.number.exponent with
    | none => exact fun c hc => ⟨(hrest c hc).1, (hrest c hc).2.1⟩
    | digits _ _ _ =>
      intro c hc
      obtain rfl := Option.some.inj hc
      decide
  have hexponent := scanExponent_shape h.number.exponent hrest
  unfold scanRest
  rw [scanFraction_shape h.number.fraction hnext]
  dsimp only
  rw [hexponent]
  split
  · -- neither a fraction nor an exponent
    rename_i hfraction hpower
    have hnone : exponentPower exponent = none := Option.map_eq_none_iff.mp hpower
    rcases h.point with hne | hne
    · cases h.number.fraction with
      | none => exact absurd rfl hne
      | digits hdigits _ => exact absurd hfraction hdigits
    · cases h.number.exponent with
      | none => exact absurd rfl hne
      | digits _ _ _ => exact nomatch hnone
  · cases hpower : exponentPower exponent with
    | none =>
      cases h.number.exponent with
      | none => rw [decimalOf, hpower]; rfl
      | digits _ _ _ => exact nomatch hpower
    | some power => rw [decimalOf, hpower]; rfl

/-- **A float is read wherever it stands.** -/
theorem scanNumber_float {sign digits fraction exponent rest : List Char}
    (h : IsFloat sign digits fraction exponent) (hrest : NumberEnds rest) :
    scanNumber (sign ++ digits ++ fraction ++ exponent ++ rest) =
      .ok (.float (decimalOf sign digits fraction exponent), rest) := by
  have hnext : ∀ c ∈ (fraction ++ (exponent ++ rest)).head?, c.isDigit = false := by
    cases h.number.fraction with
    | none =>
      cases h.number.exponent with
      | none => exact fun c hc => (hrest c hc).1
      | digits _ _ _ =>
        intro c hc
        obtain rfl := Option.some.inj hc
        rfl
    | digits _ _ =>
      intro c hc
      obtain rfl := Option.some.inj hc
      rfl
  have hinteger := scanInteger_digits h.number.digits.nonempty h.number.digits.digit h.number.digits.zero hnext
  have hread := scanRest_float h hrest
  rw [append_assoc, append_assoc, append_assoc]
  rcases h.number.sign with rfl | rfl
  · obtain ⟨d, t, rfl, hd⟩ := h.number.digits.head
    show scanNumber (d :: (t ++ (fraction ++ (exponent ++ rest)))) = _
    unfold scanNumber
    split
    · rename_i heq
      obtain ⟨rfl, -⟩ := cons.inj heq
      cases hd
    · rw [show d :: (t ++ (fraction ++ (exponent ++ rest))) = _ from rfl] at *
      rw [show scanInteger (d :: (t ++ (fraction ++ (exponent ++ rest)))) = _ from hinteger]
      exact hread
  · show scanNumber ('-' :: (digits ++ (fraction ++ (exponent ++ rest)))) = _
    rw [scanNumber, hinteger]
    exact hread

end Xtrax.PyJson
