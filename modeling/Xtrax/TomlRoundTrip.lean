import Xtrax.PyJsonNumber
import Xtrax.Results
import Xtrax.TomlText

/-!
# TOML that is read back

The texts of values that are read whatever follows them, and the arrays, inline tables, entries and
documents that are written with them.
-/

namespace Toml

open List Option

open Xtrax.PyJson (maxDigits scanInteger span_digits scanInteger_digits intText intText_eq
  IsInteger IsFraction IsExponent IsNumber IsFloat isInteger_toDigits)

variable {A F : Type} {floats : FloatText F} {texts : List (List Char)} {escape : Char → List Char}
  {ls : List (List Char)} {levels : Nat} {scan : Nat → Scanner A} {entries : Entries F}
  {rest : List Char} {items : List A} {v : Value F}

/-- What may come right after a value. -/
def Stops (rest : List Char) : Prop := ∀ c ∈ rest.head?, c = ',' ∨ c = ' ' ∨ c = ']' ∨ c = '}'

theorem stops_nil : Stops [] := nofun

theorem stops_cons {c : Char} (h : c = ',' ∨ c = ' ' ∨ c = ']' ∨ c = '}') (rest : List Char) :
    Stops (c :: rest) := by
  intro c' hc'
  obtain rfl := some.inj hc'
  exact h

/-- A text that starts with neither a blank nor a closing bracket. -/
def Opens (text : List Char) : Prop :=
  ∃ c t, text = c :: t ∧ isBlank c = false ∧ c ≠ ']' ∧ c ≠ '}'

/-- The text stands in one line and is read whatever follows it, by a reader of values of at most
so many levels. -/
structure Reads (scan : Nat → Scanner A) (levels : Nat) (text : List Char) (a : A) : Prop where
  opens : Opens text
  inline : '\n' ∉ text
  scan : ∀ depth, levels ≤ depth → ∀ rest, Stops rest → scan depth (text ++ rest) = some (a, rest)

abbrev ReadsValue (floats : FloatText F) : Nat → List Char → Value F → Prop :=
  Reads (scanValue floats)

/-- The text is read as a member of a table. -/
abbrev ReadsMember (floats : FloatText F) : Nat → List Char → String × Value F → Prop :=
  Reads fun depth => scanMember (scanValue floats depth)

theorem skipBlanks_opens {text : List Char} (h : Opens text) (rest : List Char) :
    skipBlanks (text ++ rest) = text ++ rest := by
  obtain ⟨c, t, rfl, hc, -, -⟩ := h
  show (c :: (t ++ rest)).dropWhile isBlank = _
  rw [dropWhile_cons, hc]
  rfl

theorem skipBlanks_cons {c : Char} (h : isBlank c = false) (rest : List Char) :
    skipBlanks (c :: rest) = c :: rest := by
  rw [skipBlanks, dropWhile_cons, h]
  rfl

theorem skipBlanks_space (rest : List Char) : skipBlanks (' ' :: rest) = skipBlanks rest := rfl

/-! ### Strings -/

/-- An escaping that is undone in a string, character by character. -/
def Escapes (escape : Char → List Char) : Prop :=
  ∀ c rest, scanBody (escape c ++ rest) = consChar (some c) (scanBody rest)

/-- A string in quotes. -/
def quote (escape : Char → List Char) (s : List Char) : List Char :=
  '"' :: (s.flatMap escape ++ ['"'])

theorem scanBody_escaped (h : Escapes escape) (s rest : List Char) :
    scanBody (s.flatMap escape ++ '"' :: rest) = some (s, rest) := by
  induction s with
  | nil => rfl
  | cons c s ih =>
    rw [List.flatMap_cons, List.append_assoc, h, ih]
    rfl

theorem scanString_quote (h : Escapes escape) (s : List Char) (hrest : rest.head? ≠ some '"') :
    scanString (quote escape s ++ rest) = some (s, rest) := by
  have hbody := scanBody_escaped h s rest
  have hquote : quote escape s ++ rest = '"' :: (s.flatMap escape ++ '"' :: rest) := by
    rw [quote, List.cons_append, List.append_assoc]
    rfl
  rw [hquote]
  generalize s.flatMap escape ++ '"' :: rest = body at hbody
  unfold scanString
  split
  · -- two more quotes are an empty string and a quote
    rename_i rest' heq
    obtain ⟨-, rfl⟩ := cons.inj heq
    obtain ⟨-, rfl⟩ := Prod.mk.inj (some.inj hbody)
    exact absurd rfl hrest
  · rename_i heq
    obtain ⟨-, rfl⟩ := cons.inj heq
    exact hbody
  · rename_i hnot
    exact absurd rfl (hnot body)

theorem Stops.no_quote (h : Stops rest) : rest.head? ≠ some '"' := by
  intro hquote
  rcases h '"' hquote with h | h | h | h <;> cases h

theorem quote_inline (h : ∀ c, '\n' ∉ escape c) (s : List Char) : '\n' ∉ quote escape s := by
  intro hmem
  rcases mem_cons.mp hmem with heq | hmem
  · cases heq
  rcases mem_append.mp hmem with hmem | hmem
  · obtain ⟨c, -, hc⟩ := mem_flatMap.mp hmem
    exact h c hc
  · cases mem_singleton.mp hmem

theorem reads_quote (h : Escapes escape) (hline : ∀ c, '\n' ∉ escape c) (s : List Char) :
    ReadsValue floats 1 (quote escape s) (.text (String.ofList s)) where
  opens := ⟨'"', _, rfl, rfl, by decide, by decide⟩
  inline := quote_inline hline s
  scan depth hdepth rest hrest := by
    obtain ⟨depth, rfl⟩ := Nat.exists_eq_add_of_le' hdepth
    have hstring := scanString_quote h s hrest.no_quote
    show (scanString (quote escape s ++ rest)).map _ = _
    rw [hstring]
    rfl

/-! ### Numbers -/

/-- What may come right after the digits of a number. -/
def NumberStops (text : List Char) : Prop :=
  ∀ c ∈ text.head?, c.isDigit = false ∧ c ≠ '.' ∧ c ≠ 'E'

theorem Stops.numberStops (h : Stops rest) : NumberStops rest := by
  intro c hc
  rcases h c hc with rfl | rfl | rfl | rfl <;> decide

theorem numberStops_exponent {exponent rest : List Char} (h : IsExponent exponent)
    (hrest : Stops rest) : NumberStops (exponent ++ rest) := by
  cases h with
  | none => exact hrest.numberStops
  | digits _ _ _ =>
    intro c hc
    obtain rfl := some.inj hc
    decide

theorem scanSign_digits {digits : List Char} (h : IsInteger digits) (rest : List Char) :
    scanSign (digits ++ rest) = ([], digits ++ rest) := by
  cases digits with
  | nil => exact absurd rfl h.nonempty
  | cons d digits =>
    have hd := h.digit d mem_cons_self
    show scanSign (d :: (digits ++ rest)) = _
    unfold scanSign
    split
    · rename_i heq
      obtain ⟨rfl, -⟩ := cons.inj heq
      cases hd
    · rename_i heq
      obtain ⟨rfl, -⟩ := cons.inj heq
      cases hd
    · rfl

theorem scanFraction_append {fraction rest : List Char} (h : IsFraction fraction)
    (hrest : NumberStops rest) : scanFraction (fraction ++ rest) = (fraction, rest) := by
  cases h with
  | none =>
    show scanFraction rest = ([], rest)
    unfold scanFraction
    split
    · rename_i text
      exact absurd rfl (hrest '.' rfl).2.1
    · rfl
  | digits hne hdigits =>
    rename_i digits
    have hspan := span_digits hdigits fun c hc => (hrest c hc).1
    show scanFraction ('.' :: (digits ++ rest)) = _
    rw [scanFraction, hspan]
    cases digits with
    | nil => exact absurd rfl hne
    | cons d digits => rfl

theorem scanExponent_append {exponent rest : List Char} (h : IsExponent exponent)
    (hrest : Stops rest) : scanExponent (exponent ++ rest) = (exponent, rest) := by
  cases h with
  | none =>
    show scanExponent rest = ([], rest)
    cases rest with
    | nil => rfl
    | cons c rest =>
      unfold scanExponent
      apply if_neg
      rcases hrest c rfl with rfl | rfl | rfl | rfl <;> decide
  | digits hsign hne hdigits =>
    rename_i sign digits
    have hspan := span_digits hdigits fun c hc => (hrest.numberStops c hc).1
    show scanExponent ('e' :: sign :: (digits ++ rest)) = _
    have hscan : scanSign (sign :: (digits ++ rest)) = ([sign], digits ++ rest) := by
      rcases hsign with rfl | rfl <;> rfl
    unfold scanExponent
    dsimp only
    rw [if_pos (Or.inl rfl), hscan]
    dsimp only
    rw [hspan]
    cases digits with
    | nil => exact absurd rfl hne
    | cons d digits => rfl

theorem scanNumber_append {sign digits fraction exponent rest : List Char}
    (h : IsNumber sign digits fraction exponent) (hrest : Stops rest) :
    scanNumber floats (sign ++ digits ++ fraction ++ exponent ++ rest) =
      if fraction = [] ∧ exponent = [] then
        if maxDigits < digits.length then none
        else
          let n : Int := Nat.ofDigitChars 10 digits 0
          some (.integer (if sign = ['-'] then -n else n), rest)
      else some (.float (floats.read (sign ++ digits ++ fraction ++ exponent)), rest) := by
  have hexponent := numberStops_exponent h.exponent hrest
  have hfraction : ∀ c ∈ (fraction ++ (exponent ++ rest)).head?, c.isDigit = false := by
    cases h.fraction with
    | none => exact fun c hc => (hexponent c hc).1
    | digits _ _ =>
      intro c hc
      obtain rfl := some.inj hc
      rfl
  have hsign : scanSign (sign ++ (digits ++ (fraction ++ (exponent ++ rest)))) =
      (sign, digits ++ (fraction ++ (exponent ++ rest))) := by
    rcases h.sign with rfl | rfl
    · exact scanSign_digits h.digits _
    · rfl
  have hinteger := scanInteger_digits h.digits.nonempty h.digits.digit h.digits.zero hfraction
  simp only [scanNumber, append_assoc, hsign, hinteger, scanFraction_append h.fraction hexponent,
    scanExponent_append h.exponent hrest, bind_eq_bind, bind_some]

theorem scanValue_number {c : Char} (h : c.isDigit = true ∨ c = '-') (depth : Nat)
    (text : List Char) : scanValue floats (depth + 1) (c :: text) = scanNumber floats (c :: text) := by
  have hne : ∀ d : Char, d.isDigit = false → d ≠ '-' → c ≠ d := by
    rintro d hd hd' rfl
    rcases h with h | h
    · rw [h] at hd
      cases hd
    · exact hd' h
  have hother : ∀ (d : Char) (t : List Char), d.isDigit = false → d ≠ '-' → c :: text ≠ d :: t :=
    fun d t hd hd' heq => hne d hd hd' (cons.inj heq).1
  rw [scanValue]
  · exact fun _ => hother _ _ rfl (by decide)
  · exact fun _ => hother _ _ rfl (by decide)
  · exact fun _ => hother _ _ rfl (by decide)
  · exact fun _ => hother _ _ rfl (by decide)
  · exact fun _ => hother _ _ rfl (by decide)

theorem opens_number {c : Char} (h : c.isDigit = true ∨ c = '-') (t : List Char) :
    Opens (c :: t) := by
  refine ⟨c, t, rfl, ?_⟩
  rcases h with h | rfl
  · have hne : ∀ d : Char, d.isDigit = false → c ≠ d := by
      rintro d hd rfl
      rw [h] at hd
      cases hd
    refine ⟨?_, hne _ rfl, hne _ rfl⟩
    rw [isBlank, decide_eq_false (hne ' ' rfl), decide_eq_false (hne '\t' rfl)]
    rfl
  · decide

theorem reads_number {sign digits fraction exponent : List Char}
    (h : IsNumber sign digits fraction exponent)
    (hscan : ∀ rest, Stops rest → scanNumber floats (sign ++ digits ++ fraction ++ exponent ++ rest) = some (v, rest)) :
    ReadsValue floats 1 (sign ++ digits ++ fraction ++ exponent) v := by
  obtain ⟨c, t, heq, hc⟩ := h.head
  have hinline := h.inline
  rw [heq] at hscan hinline ⊢
  refine ⟨opens_number hc t, hinline, fun depth hdepth rest hrest => ?_⟩
  obtain ⟨depth, rfl⟩ := Nat.exists_eq_add_of_le' hdepth
  show scanValue floats (depth + 1) (c :: (t ++ rest)) = _
  rw [scanValue_number hc]
  exact hscan rest hrest

theorem reads_integer {n : Int} (h : (Nat.toDigits 10 n.natAbs).length ≤ maxDigits) :
    ReadsValue floats 1 (intText n) (.integer n) := by
  have hnumber : IsNumber (if decide (n < 0) then ['-'] else []) (Nat.toDigits 10 n.natAbs) [] [] := by
    refine ⟨?_, isInteger_toDigits _, .none, .none⟩
    cases decide (n < 0) with
    | true => exact .inr rfl
    | false => exact .inl rfl
  have htext : intText n = (if decide (n < 0) then ['-'] else []) ++ Nat.toDigits 10 n.natAbs ++ [] ++
      [] := by
    rw [append_nil, append_nil, intText_eq]
  rw [htext]
  refine reads_number hnumber fun rest hrest => ?_
  rw [scanNumber_append hnumber hrest, if_pos ⟨rfl, rfl⟩, if_neg (not_lt.mpr h)]
  dsimp only
  rw [Nat.ofDigitChars_ten_toDigits]
  by_cases hneg : n < 0
  · have habs : -(n.natAbs : Int) = n := by omega
    rw [decide_eq_true hneg]
    show some (Value.integer (-(n.natAbs : Int)), rest) = _
    rw [habs]
  · have habs : (n.natAbs : Int) = n := by omega
    rw [decide_eq_false hneg]
    show some (Value.integer (n.natAbs : Int), rest) = _
    rw [habs]

/-- The float is written with a fraction or an exponent, as a text that is read as that float. -/
def FloatText.Writes (floats : FloatText F) (x : F) : Prop :=
  ∃ sign digits fraction exponent, IsFloat sign digits fraction exponent ∧
    floats.repr x = sign ++ digits ++ fraction ++ exponent ∧ floats.read (floats.repr x) = x

theorem reads_float {x : F} (h : floats.Writes x) :
    ReadsValue floats 1 (floats.repr x) (.float x) := by
  obtain ⟨sign, digits, fraction, exponent, ⟨hnumber, hfloat⟩, hrepr, hread⟩ := h
  rw [hrepr] at hread ⊢
  refine reads_number hnumber fun rest hrest => ?_
  rw [scanNumber_append hnumber hrest, if_neg, hread]
  rintro ⟨hfraction, hexponent⟩
  rcases hfloat with hne | hne
  · exact hne hfraction
  · exact hne hexponent

/-! ### Arrays and inline tables -/

/-- Texts with a comma and a blank between them. -/
def joined (texts : List (List Char)) : List Char := [',', ' '].intercalate texts

theorem joined_cons (t : List Char) (h : texts ≠ []) :
    joined (t :: texts) = t ++ ',' :: ' ' :: joined texts := by
  cases texts with
  | nil => exact absurd rfl h
  | cons t' texts => rfl

theorem joined_singleton (t : List Char) : joined [t] = t := append_nil t

theorem joined_opens (hne : texts ≠ []) (h : ∀ t ∈ texts, Opens t) : Opens (joined texts) := by
  cases texts with
  | nil => exact absurd rfl hne
  | cons t texts =>
    obtain ⟨c, t', heq, hc⟩ := h t mem_cons_self
    cases texts with
    | nil =>
      rw [joined_singleton]
      exact ⟨c, t', heq, hc⟩
    | cons t₂ texts =>
      rw [joined_cons t (cons_ne_nil _ _), heq]
      exact ⟨c, _, rfl, hc⟩

theorem joined_append_cons (t : List Char) (h : texts ≠ []) (rest : List Char) :
    joined (t :: texts) ++ rest = t ++ ',' :: ' ' :: (joined texts ++ rest) := by
  rw [joined_cons t h, append_assoc]
  rfl

theorem scanSeparated_joined {close : Char} {tail rest : List Char} (hclose : close ≠ ',')
    (htail : Stops tail) (hskip : skipBlanks tail = close :: rest) {levels depth : Nat}
    (hdepth : levels ≤ depth) (h : List.Forall₂ (Reads scan levels) texts items) (hne : texts ≠ [])
    (fuel : Nat) (hfuel : texts.length ≤ fuel) :
    scanSeparated (scan depth) close fuel (joined texts ++ tail) = some (items, rest) := by
  induction h generalizing fuel with
  | nil => exact absurd rfl hne
  | @cons t item texts items hread hreads ih =>
    obtain ⟨fuel, rfl⟩ := Nat.exists_eq_add_of_le' (Nat.le_trans (Nat.le_add_left 1 _) hfuel)
    by_cases hnil : texts = []
    · subst hnil
      cases hreads
      rw [joined_singleton, scanSeparated, hread.scan depth hdepth _ htail, bind_eq_bind, bind_some]
      dsimp only
      rw [hskip]
      exact if_pos rfl
    · have hrest := ih hnil fuel (by rw [length_cons] at hfuel; omega)
      have hopens : Opens (joined texts) := joined_opens hnil fun t ht => by
        obtain ⟨item, -, hitem⟩ := Xtrax.Results.exists_of_forall₂ hreads ht
        exact hitem.opens
      rw [joined_append_cons t hnil, scanSeparated,
        hread.scan depth hdepth _ (stops_cons (by decide) _), bind_eq_bind, bind_some]
      dsimp only
      rw [skipBlanks_cons rfl]
      dsimp only
      rw [if_neg hclose.symm, if_pos rfl, skipBlanks_space, skipBlanks_opens hopens, hrest]
      rfl

theorem length_le_joined (h : ∀ t ∈ texts, Opens t) : texts.length ≤ (joined texts).length := by
  induction texts with
  | nil => exact Nat.zero_le _
  | cons t texts ih =>
    obtain ⟨hopens, hrest⟩ := forall_mem_cons.mp h
    have hpos : 1 ≤ t.length := by
      obtain ⟨c, t', rfl, -⟩ := hopens
      exact Nat.le_add_left 1 _
    by_cases hnil : texts = []
    · subst hnil
      rw [joined_singleton]
      exact hpos
    · have hlen := ih hrest
      rw [joined_cons t hnil, length_append, length_cons, length_cons, length_cons]
      omega

theorem joined_inline (h : ∀ t ∈ texts, '\n' ∉ t) : '\n' ∉ joined texts := by
  induction texts with
  | nil => exact not_mem_nil
  | cons t texts ih =>
    obtain ⟨ht, hrest⟩ := forall_mem_cons.mp h
    by_cases hnil : texts = []
    · subst hnil
      rw [joined_singleton]
      exact ht
    · rw [joined_cons t hnil, mem_append]
      rintro (hmem | hmem)
      · exact ht hmem
      · rcases mem_cons.mp hmem with heq | hmem
        · cases heq
        rcases mem_cons.mp hmem with heq | hmem
        · cases heq
        exact ih hrest hmem

theorem forall_texts (h : List.Forall₂ (Reads scan levels) texts items) :
    ∀ t ∈ texts, Opens t ∧ '\n' ∉ t := by
  intro t ht
  obtain ⟨item, -, hitem⟩ := Xtrax.Results.exists_of_forall₂ h ht
  exact ⟨hitem.opens, hitem.inline⟩

theorem scanSeparated_texts {close : Char} {text tail rest : List Char} (hclose : close ≠ ',')
    (htail : Stops tail) (hskip : skipBlanks tail = close :: rest) {levels depth : Nat}
    (hdepth : levels ≤ depth) (h : List.Forall₂ (Reads scan levels) texts items) (hne : texts ≠ [])
    (htext : joined texts ++ tail = text) :
    scanSeparated (scan depth) close text.length text = some (items, rest) := by
  have hlength := length_le_joined fun t ht => (forall_texts h t ht).1
  subst htext
  apply scanSeparated_joined hclose htail hskip hdepth h hne
  rw [length_append]
  omega

theorem reads_array {vs : List (Value F)} (h : List.Forall₂ (ReadsValue floats levels) texts vs) :
    ReadsValue floats (levels + 1) ('[' :: (joined texts ++ [']'])) (.array vs) where
  opens := ⟨'[', _, rfl, rfl, by decide, by decide⟩
  inline := by
    intro hmem
    rcases mem_cons.mp hmem with heq | hmem
    · cases heq
    rcases mem_append.mp hmem with hmem | hmem
    · exact joined_inline (fun t ht => (forall_texts h t ht).2) hmem
    · cases mem_singleton.mp hmem
  scan depth hdepth rest _ := by
    obtain ⟨depth, rfl⟩ := Nat.exists_eq_add_of_le' (Nat.le_trans (Nat.le_add_left 1 _) hdepth)
    show scanArray (scanValue floats depth) ((joined texts ++ [']']) ++ rest) = _
    rw [append_assoc]
    by_cases hnil : texts = []
    · subst hnil
      cases h
      rfl
    · have hopens : Opens (joined texts) :=
        joined_opens hnil fun t ht => (forall_texts h t ht).1
      rw [scanArray, skipBlanks_opens hopens]
      obtain ⟨c, t, heq, -, hc, -⟩ := hopens
      have hcons : joined texts ++ ([']'] ++ rest) = c :: (t ++ ([']'] ++ rest)) := by
        rw [heq, cons_append]
      have hitems := scanSeparated_texts (by decide) (stops_cons (.inr (.inr (.inl rfl))) rest) rfl
        (Nat.le_of_succ_le_succ hdepth) h hnil hcons
      rw [hcons]
      split
      · rename_i hclose
        exact absurd (cons.inj hclose).1 hc
      · rw [show scanSeparated _ ']' _ _ = _ from hitems]
        rfl

/-- The text is read as a key before a blank. -/
structure ReadsKey (text key : List Char) : Prop where
  head : ∃ c t, text = c :: t ∧ (isBareKey c = true ∨ c = '"')
  inline : '\n' ∉ text
  scan : ∀ rest, scanKey (text ++ ' ' :: rest) = some (key, ' ' :: rest)

theorem ReadsKey.ne {text key : List Char} (h : ReadsKey text key) : ∃ c t, text = c :: t ∧
    ∀ d, isBareKey d = false → d ≠ '"' → c ≠ d := by
  obtain ⟨c, t, rfl, hc⟩ := h.head
  refine ⟨c, t, rfl, ?_⟩
  rintro d hd hquote rfl
  rcases hc with hc | hc
  · rw [hc] at hd
    cases hd
  · exact hquote hc

theorem readsKey_bare {key : List Char} (hne : key ≠ []) (h : ∀ c ∈ key, isBareKey c = true) :
    ReadsKey key key := by
  cases key with
  | nil => exact absurd rfl hne
  | cons c t =>
    refine ⟨⟨c, t, rfl, .inl (h c mem_cons_self)⟩, fun hmem => absurd (h _ hmem) (by decide),
      fun rest => ?_⟩
    have hquote : (c :: t ++ ' ' :: rest).head? ≠ some '"' := by
      intro heq
      have hc := h c List.mem_cons_self
      rw [Option.some.inj heq] at hc
      cases hc
    have hspan : (c :: t ++ ' ' :: rest).span isBareKey = (c :: t, ' ' :: rest) := by
      rw [List.span_eq_takeWhile_dropWhile, List.takeWhile_append_of_pos h,
        List.dropWhile_append_of_pos h]
      show (c :: t ++ [], ' ' :: rest) = _
      rw [List.append_nil]
    rw [scanKey, if_neg hquote, hspan]

theorem readsKey_quote (h : Escapes escape) (hline : ∀ c, '\n' ∉ escape c) (key : List Char) :
    ReadsKey (quote escape key) key where
  head := ⟨'"', _, rfl, .inr rfl⟩
  inline := quote_inline hline key
  scan rest := by
    have hblank : (' ' :: rest).head? ≠ some '"' := nofun
    have hstring := scanString_quote h key hblank
    have hopen : (quote escape key ++ ' ' :: rest).head? = some '"' := rfl
    rw [scanKey, if_pos hopen, hstring]

/-- A key, an equals sign between blanks and a value. -/
def member (key value : List Char) : List Char := key ++ [' ', '=', ' '] ++ value

theorem member_append (key value rest : List Char) :
    member key value ++ rest = key ++ ' ' :: '=' :: ' ' :: (value ++ rest) := by
  rw [member, append_assoc, append_assoc]
  rfl

theorem readsMember {keyText key text : List Char} (hkey : ReadsKey keyText key)
    (hv : ReadsValue floats levels text v) :
    ReadsMember floats levels (member keyText text) (String.ofList key, v) where
  opens := by
    obtain ⟨c, t, rfl, hc⟩ := hkey.ne
    refine ⟨c, _, rfl, ?_, hc ']' rfl (by decide), hc '}' rfl (by decide)⟩
    rw [isBlank, decide_eq_false (hc ' ' rfl (by decide)), decide_eq_false (hc '\t' rfl (by decide))]
    rfl
  inline := by
    rw [member, mem_append, mem_append]
    rintro ((hmem | hmem) | hmem)
    · exact hkey.inline hmem
    · exact absurd hmem (by decide)
    · exact hv.inline hmem
  scan depth hdepth rest hrest := by
    rw [member_append, scanMember, hkey.scan]
    show (scanValue floats depth (skipBlanks (' ' :: (text ++ rest)))) >>= _ = _
    rw [skipBlanks_space, skipBlanks_opens hv.opens, hv.scan depth hdepth rest hrest]
    rfl

theorem reads_table (h : List.Forall₂ (ReadsMember floats levels) texts entries)
    (hkeys : (entries.map Prod.fst).Nodup) :
    ReadsValue floats (levels + 1) ('{' :: ' ' :: (joined texts ++ [' ', '}'])) (.table entries) where
  opens := ⟨'{', _, rfl, rfl, by decide, by decide⟩
  inline := by
    intro hmem
    rcases mem_cons.mp hmem with heq | hmem
    · cases heq
    rcases mem_cons.mp hmem with heq | hmem
    · cases heq
    rcases mem_append.mp hmem with hmem | hmem
    · exact joined_inline (fun t ht => (forall_texts h t ht).2) hmem
    · exact absurd hmem (by decide)
  scan depth hdepth rest _ := by
    obtain ⟨depth, rfl⟩ := Nat.exists_eq_add_of_le' (Nat.le_trans (Nat.le_add_left 1 _) hdepth)
    show scanTable (scanValue floats depth) (' ' :: (joined texts ++ [' ', '}'] ++ rest)) = _
    rw [append_assoc]
    by_cases hnil : texts = []
    · subst hnil
      cases h
      rfl
    · have hopens : Opens (joined texts) :=
        joined_opens hnil fun t ht => (forall_texts h t ht).1
      rw [scanTable, skipBlanks_space, skipBlanks_opens hopens]
      obtain ⟨c, t, heq, -, -, hc⟩ := hopens
      have hcons : joined texts ++ ([' ', '}'] ++ rest) = c :: (t ++ ([' ', '}'] ++ rest)) := by
        rw [heq, cons_append]
      have hitems := scanSeparated_texts (by decide) (stops_cons (.inr (.inl rfl)) ('}' :: rest)) rfl
        (Nat.le_of_succ_le_succ hdepth) h hnil hcons
      rw [hcons]
      split
      · rename_i hclose
        exact absurd (cons.inj hclose).1 hc
      · rw [show scanSeparated _ '}' _ _ = _ from hitems]
        exact if_pos hkeys

/-! ### Documents -/

/-- Lines, each with its end. -/
def document (ls : List (List Char)) : List Char := ls.flatMap fun l => l ++ ['\n']

theorem lines_append {l : List Char} (h : '\n' ∉ l) (text : List Char) :
    lines (l ++ '\n' :: text) = l :: lines text := by
  induction l with
  | nil => rfl
  | cons c l ih =>
    have hc : c ≠ '\n' := fun heq => h (heq ▸ mem_cons_self)
    have hl := ih fun hmem => h (mem_cons_of_mem c hmem)
    rw [cons_append, lines.eq_3 _ _ hc, hl]

theorem lines_document (h : ∀ l ∈ ls, '\n' ∉ l) : lines (document ls) = ls ++ [[]] := by
  induction ls with
  | nil => rfl
  | cons l ls ih =>
    obtain ⟨hl, hls⟩ := forall_mem_cons.mp h
    show lines (l ++ ['\n'] ++ document ls) = _
    rw [append_assoc]
    show lines (l ++ '\n' :: document ls) = _
    rw [lines_append hl, ih hls]
    rfl

structure ReadsLine (floats : FloatText F) (line : List Char) (statement : Statement F) : Prop where
  inline : '\n' ∉ line
  scan : scanLine floats line = some statement

theorem readsLine_member {key : List Char} (hne : key ≠ []) (hbare : ∀ c ∈ key, isBareKey c = true)
    {text : List Char} (hv : ReadsValue floats levels text v)
    (hlevels : levels ≤ (member key text).length) :
    ReadsLine floats (member key text) (.entry (String.ofList key) v) := by
  have hkey := readsKey_bare hne hbare
  have hread := readsMember hkey hv
  have hskip := skipBlanks_opens hread.opens []
  have hscan := hread.scan _ hlevels [] stops_nil
  rw [append_nil] at hskip hscan
  refine ⟨hread.inline, ?_⟩
  obtain ⟨c, t, rfl, hc⟩ := hkey.ne
  have hcons : member (c :: t) text = c :: (t ++ [' ', '=', ' '] ++ text) := rfl
  have hended : ended (c :: (t ++ [' ', '=', ' '] ++ text)) = false := by
    rw [ended, ← hcons, hskip, hcons]
    split
    · rename_i heq
      cases heq
    · rename_i heq
      exact absurd (cons.inj heq).1 (hc '#' rfl (by decide))
    · rfl
  rw [scanLine, hskip]
  rw [hcons] at hscan ⊢
  split
  · rename_i heq
    exact absurd (cons.inj heq).1 (hc '[' rfl (by decide))
  · rw [hended, hscan]
    rfl

theorem Doc.addLine_eq {line : List Char} {statement : Statement F}
    (h : ReadsLine floats line statement) (d : Doc F) : d.addLine floats line = d.add statement := by
  rw [Doc.addLine, h.scan]
  rfl

theorem foldlM_blank (h : ∀ l ∈ ls, ReadsLine floats l .blank) (d : Doc F) :
    ls.foldlM (Doc.addLine floats) d = some d := by
  induction ls with
  | nil => rfl
  | cons l ls ih =>
    obtain ⟨hl, hls⟩ := forall_mem_cons.mp h
    rw [foldlM_cons, Doc.addLine_eq hl]
    exact ih hls

abbrev ReadsEntry (floats : FloatText F) (line : List Char) (entry : String × Value F) : Prop :=
  ReadsLine floats line (.entry entry.1 entry.2)

theorem foldlM_entries {header : String} (h : List.Forall₂ (ReadsEntry floats) ls entries)
    (before : Entries F) (hkeys : ((before ++ entries).map Prod.fst).Nodup) :
    ls.foldlM (Doc.addLine floats) ⟨[], [(header, before)]⟩ =
      some ⟨[], [(header, before ++ entries)]⟩ := by
  induction h generalizing before with
  | nil =>
    rw [append_nil]
    rfl
  | @cons l entry ls entries hl _ ih =>
    have hnew : entry.1 ∉ before.map Prod.fst := by
      rw [map_append, map_cons] at hkeys
      exact fun hmem => (nodup_append.mp hkeys).2.2 _ hmem _ mem_cons_self rfl
    have hadd : Doc.add (F := F) ⟨[], [(header, before)]⟩ (.entry entry.1 entry.2) =
        some ⟨[], [(header, before ++ [entry])]⟩ := if_neg hnew
    have hsplit : before ++ entry :: entries = before ++ [entry] ++ entries := by
      rw [append_assoc]
      rfl
    rw [hsplit] at hkeys ⊢
    rw [foldlM_cons, Doc.addLine_eq hl, hadd]
    exact ih _ hkeys

theorem readsLine_nil : ReadsLine floats [] .blank := ⟨not_mem_nil, rfl⟩

theorem loads_document {comments : List (List Char)} {headerLine : List Char} {header : String}
    (hcomments : ∀ l ∈ comments, ReadsLine floats l .blank)
    (hheader : ReadsLine floats headerLine (.header header))
    (h : List.Forall₂ (ReadsEntry floats) ls entries) (hkeys : (entries.map Prod.fst).Nodup) :
    loads floats (document (comments ++ headerLine :: ls)) = some [(header, .table entries)] := by
  have hlines : ∀ l ∈ comments ++ headerLine :: ls, '\n' ∉ l := by
    intro l hl
    rcases mem_append.mp hl with hl | hl
    · exact (hcomments l hl).inline
    rcases mem_cons.mp hl with rfl | hl
    · exact hheader.inline
    · obtain ⟨entry, -, hentry⟩ := Xtrax.Results.exists_of_forall₂ h hl
      exact hentry.inline
  have hstart : Doc.addLine floats ⟨[], []⟩ headerLine = some ⟨[], [(header, [])]⟩ :=
    Doc.addLine_eq hheader _
  have hentries : ls.foldlM (Doc.addLine floats) ⟨[], [(header, [])]⟩ =
      some ⟨[], [(header, [] ++ entries)]⟩ := foldlM_entries h [] hkeys
  have hend : [[]].foldlM (Doc.addLine floats) ⟨[], [(header, entries)]⟩ =
      some ⟨[], [(header, entries)]⟩ :=
    foldlM_blank (forall_mem_singleton.mpr readsLine_nil) _
  rw [loads, lines_document hlines, foldlM_append, foldlM_append,
    foldlM_blank hcomments, bind_eq_bind, bind_some, foldlM_cons, hstart,
    bind_eq_bind, bind_some, hentries, nil_append, bind_some, hend]
  rfl

end Toml
