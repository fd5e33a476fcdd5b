import Xtrax.Utf8

/-!
# Lines of a text file

A file is decoded as a whole and then split at every line boundary of `str.splitlines`.  Pieces
that end with a line feed are decoded and split one by one (`splitLines_append`,
`decodeUtf8_utf8`).
-/

namespace Xtrax.TextLines

open List

abbrev Bytes := List UInt8

/-! ### Decoding -/

def decodeFuel : Nat → Bytes → Option (List Char)
  | _, [] => some []
  | 0, _ => none
  | fuel + 1, bytes =>
    match bytes.toByteArray.utf8DecodeChar? 0 with
    | some c => (c :: ·) <$> decodeFuel fuel (bytes.drop c.utf8Size)
    | none => none

/-- Strict UTF-8: none where some bytes encode no character. -/
def decodeUtf8 (bytes : Bytes) : Option (List Char) := decodeFuel bytes.length bytes

theorem decodeFuel_utf8 (s : List Char) : ∀ fuel, (utf8 s).length ≤ fuel →
    decodeFuel fuel (utf8 s) = some s := by
  induction s with
  | nil => intro fuel _; cases fuel <;> rfl
  | cons c s ih =>
    intro fuel hfuel
    have hlen : (String.utf8EncodeChar c).length = c.utf8Size := String.length_utf8EncodeChar c
    have hpos : 0 < c.utf8Size := Char.utf8Size_pos c
    rw [utf8_cons, length_append, hlen] at hfuel
    obtain ⟨fuel, rfl⟩ := Nat.exists_eq_add_of_le' (show 1 ≤ fuel by omega)
    cases hbytes : utf8 (c :: s) with
    | nil =>
      have := congrArg length hbytes
      rw [utf8_cons, length_append, hlen, length_nil] at this
      omega
    | cons b bytes =>
      have hdecode : (b :: bytes).toByteArray.utf8DecodeChar? 0 = some c := by
        rw [← hbytes, utf8_cons, toByteArray_append]
        exact ByteArray.utf8DecodeChar?_utf8EncodeChar_append
      have hdrop : (b :: bytes).drop c.utf8Size = utf8 s := by
        rw [← hbytes, utf8_cons, ← hlen, drop_left]
      rw [decodeFuel]
      · simp only [hdecode, hdrop]
        rw [ih fuel (by omega)]
        rfl
      · exact nofun

theorem decodeUtf8_utf8 (s : List Char) : decodeUtf8 (utf8 s) = some s :=
  decodeFuel_utf8 s _ le_rfl

theorem utf8_of_decodeFuel {fuel : Nat} :
    ∀ {bytes : Bytes} {text : List Char}, decodeFuel fuel bytes = some text → utf8 text = bytes := by
  induction fuel with
  | zero =>
    intro bytes text h
    cases bytes with
    | nil =>
      obtain rfl := Option.some.inj h
      rfl
    | cons b bytes => cases h
  | succ fuel ih =>
    intro bytes text h
    cases bytes with
    | nil =>
      obtain rfl := Option.some.inj h
      rfl
    | cons b bytes =>
      rw [decodeFuel] at h
      · split at h
        · rename_i c hc
          obtain ⟨text', hrest, rfl⟩ := Option.map_eq_some_iff.mp h
          obtain ⟨rest, hbytes⟩ := ByteArray.exists_of_utf8DecodeChar?_eq_some hc
          have hlist : b :: bytes = String.utf8EncodeChar c ++ rest.data.toList := by
            have hdata := congrArg (fun a : ByteArray => a.data.toList) hbytes
            simpa using hdata
          rw [hlist, ← String.length_utf8EncodeChar c, drop_left] at hrest
          rw [utf8_cons, ih hrest, hlist]
        · cases h
      · exact nofun

theorem utf8_of_decodeUtf8 {bytes : Bytes} {text : List Char} (h : decodeUtf8 bytes = some text) :
    utf8 text = bytes :=
  utf8_of_decodeFuel h

theorem utf8EncodeChar_newline {c : Char} (h : 10 ∈ String.utf8EncodeChar c) : c = '\n' := by
  have hbyte : ∀ n, 10 = UInt8.ofNat n → n % 256 = 10 := by
    intro n hn
    rw [← UInt8.toNat_ofNat', ← hn]
    rfl
  unfold String.utf8EncodeChar at h
  simp only at h
  -- every byte of a longer encoding is at least 128
  split at h
  · have hc := hbyte _ (mem_singleton.mp h)
    exact Char.ext (UInt32.toNat_inj.mp (show c.val.toNat = 10 by omega))
  · split at h
    · simp only [mem_cons, not_mem_nil, or_false] at h
      rcases h with h | h <;> have := hbyte _ h <;> omega
    · split at h
      · simp only [mem_cons, not_mem_nil, or_false] at h
        rcases h with h | h | h <;> have := hbyte _ h <;> omega
      · simp only [mem_cons, not_mem_nil, or_false] at h
        rcases h with h | h | h | h <;> have := hbyte _ h <;> omega

theorem newline_notMem_utf8 {text : List Char} (h : ∀ c ∈ text, c ≠ '\n') : 10 ∉ utf8 text := by
  intro hmem
  obtain ⟨c, hc, hbyte⟩ := mem_flatMap.mp hmem
  exact h c hc (utf8EncodeChar_newline hbyte)

theorem utf8_eq_concat {text : List Char} {bytes : Bytes} (h : utf8 text = bytes ++ [10]) :
    ∃ text', text = text' ++ ['\n'] ∧ bytes = utf8 text' := by
  rcases eq_nil_or_concat text with rfl | ⟨text', c, rfl⟩
  · exact absurd (congrArg length h) (by simp)
  · have hc : c = '\n' := by
      apply utf8EncodeChar_newline
      have hlast := congrArg getLast? h
      rw [concat_eq_append, utf8_append, getLast?_concat, getLast?_append_of_ne_nil] at hlast
      · exact mem_of_getLast? (by simpa [utf8] using hlast)
      · simp [utf8, String.utf8EncodeChar_ne_nil]
    subst hc
    refine ⟨text', concat_eq_append, ?_⟩
    rw [concat_eq_append, utf8_append] at h
    exact (append_cancel_right h).symm

/-! ### Line boundaries -/

/-- The boundaries of `str.splitlines`. -/
def isLineBreak (c : Char) : Bool :=
  c.toNat ∈ [0x0A, 0x0B, 0x0C, 0x0D, 0x1C, 0x1D, 0x1E, 0x85, 0x2028, 0x2029]

/-- A character before the first line of the rest. -/
def consHead (c : Char) : List (List Char) → List (List Char)
  | [] => [[c]]
  | line :: lines => (c :: line) :: lines

/-- `str.splitlines`; `afterCR` if a carriage return has just ended a line, to which a line feed
belongs as well. -/
def splitLines (afterCR : Bool) : List Char → List (List Char)
  | [] => []
  | c :: text =>
    if c = '\n' ∧ afterCR then splitLines false text
    else if isLineBreak c then [] :: splitLines (c = '\r') text
    else consHead c (splitLines false text)

theorem splitLines_cons (afterCR : Bool) (c : Char) (text : List Char) :
    splitLines afterCR (c :: text) =
      if c = '\n' ∧ afterCR then splitLines false text
      else if isLineBreak c then [] :: splitLines (c = '\r') text
      else consHead c (splitLines false text) := rfl

theorem splitLines_ne_nil {c : Char} (text : List Char) : splitLines false (c :: text) ≠ [] := by
  rw [splitLines_cons, if_neg (by simp)]
  split
  · exact nofun
  · cases splitLines false text <;> exact nofun

theorem splitLines_append (a b : List Char) : ∀ afterCR,
    splitLines afterCR (a ++ '\n' :: b) =
      splitLines afterCR (a ++ ['\n']) ++ splitLines false b := by
  induction a with
  | nil =>
    intro afterCR
    cases afterCR <;> rfl
  | cons c a ih =>
    intro afterCR
    rw [cons_append, cons_append, splitLines_cons, splitLines_cons]
    split
    · exact ih false
    · split
      · rw [ih]
        rfl
      · rw [ih false]
        cases hlines : splitLines false (a ++ ['\n']) with
        | nil =>
          cases a with
          | nil => exact absurd hlines (splitLines_ne_nil [])
          | cons d a => exact absurd hlines (splitLines_ne_nil (a ++ ['\n']))
        | cons line lines => rfl

theorem splitLines_line {text : List Char} (h : ∀ c ∈ text, isLineBreak c = false)
    (hne : text ≠ []) : splitLines false text = [text] := by
  induction text with
  | nil => exact absurd rfl hne
  | cons c text ih =>
    have hc := h c mem_cons_self
    rw [splitLines_cons, if_neg (by simp), hc]
    cases text with
    | nil => rfl
    | cons d text =>
      rw [ih (fun c' hc' => h c' (mem_cons_of_mem c hc')) (cons_ne_nil d text)]
      rfl

theorem splitLines_terminated {text : List Char} (h : ∀ c ∈ text, isLineBreak c = false) :
    splitLines false (text ++ ['\n']) = [text] := by
  induction text with
  | nil => rfl
  | cons c text ih =>
    have hc := h c mem_cons_self
    rw [cons_append, splitLines, if_neg (by simp), hc,
      ih fun c' hc' => h c' (mem_cons_of_mem c hc')]
    rfl

end Xtrax.TextLines
