import Xtrax.PyJson

/-!
# What is written is read back

A value that is written is read back from its text, whatever follows the text in the document
(`scanOnce_text`), so a document is read back (`loads_text`) up to the order of its keys
(`dumps_writable`).  Strings
survive unless a high surrogate stands right before a low one:
the two are written like the one code point that they encode.
-/

namespace Xtrax.PyJson

open List

variable {digits rest : List Char} {u : Nat}

/-! ### Entries in the order of their keys -/

section Sorted

variable {β : Type} {k : PyStr} {v : β} {entries : List (PyStr × β)}

theorem insertEntry_perm (h : k ∉ entries.map Prod.fst) :
    (insertEntry k v entries).Perm ((k, v) :: entries) := by
  induction entries with
  | nil => rfl
  | cons e entries ih =>
    rw [map_cons, mem_cons, not_or] at h
    rw [insertEntry]
    split
    · rfl
    · rw [if_neg h.1]
      exact ((ih h.2).cons e).trans (List.Perm.swap (k, v) e entries)

theorem foldl_insertEntry_perm {sorted : List (PyStr × β)}
    (h : ((sorted ++ entries).map Prod.fst).Nodup) :
    (entries.foldl (fun sorted e => insertEntry e.1 e.2 sorted) sorted).Perm
      (sorted ++ entries) := by
  induction entries generalizing sorted with
  | nil => rw [append_nil]; rfl
  | cons e entries ih =>
    have hnew : e.1 ∉ sorted.map Prod.fst := by
      rw [map_append, map_cons] at h
      intro hmem
      exact (nodup_append'.mp h).2.2 hmem mem_cons_self
    have hstep : (insertEntry e.1 e.2 sorted ++ entries).Perm (sorted ++ e :: entries) :=
      ((insertEntry_perm hnew).append_right entries).trans perm_middle.symm
    have hnodup : ((insertEntry e.1 e.2 sorted ++ entries).map Prod.fst).Nodup :=
      ((hstep.map Prod.fst).nodup_iff).mpr h
    exact (ih hnodup).trans hstep

theorem sortEntries_perm (h : (entries.map Prod.fst).Nodup) :
    (sortEntries entries).Perm entries := by
  have hfold := foldl_insertEntry_perm (nil_append entries ▸ h)
  rwa [nil_append] at hfold

theorem mem_insertEntry {e : PyStr × β} (h : e ∈ insertEntry k v entries) :
    e = (k, v) ∨ e ∈ entries := by
  induction entries with
  | nil => exact .inl (mem_singleton.mp h)
  | cons e' entries ih =>
    rw [insertEntry] at h
    split at h
    · exact mem_cons.mp h
    · split at h
      · exact (mem_cons.mp h).imp id (mem_cons_of_mem e')
      · rcases mem_cons.mp h with rfl | h
        · exact .inr mem_cons_self
        · exact (ih h).imp id (mem_cons_of_mem e')

theorem insertEntry_pairwise (h : entries.Pairwise fun a b => a.1 < b.1) :
    (insertEntry k v entries).Pairwise fun a b => a.1 < b.1 := by
  induction entries with
  | nil => exact pairwise_singleton _ _
  | cons e entries ih =>
    obtain ⟨hfirst, hrest⟩ := pairwise_cons.mp h
    rw [insertEntry]
    split
    · rename_i hlt
      refine pairwise_cons.mpr ⟨fun e' he' => ?_, h⟩
      rcases mem_cons.mp he' with rfl | he'
      · exact hlt
      · exact lt_trans hlt (hfirst e' he')
    · rename_i hnot
      split
      · rename_i heq
        exact pairwise_cons.mpr ⟨fun e' he' => heq ▸ hfirst e' he', hrest⟩
      · rename_i hne
        refine pairwise_cons.mpr ⟨fun e' he' => ?_, ih hrest⟩
        rcases mem_insertEntry he' with rfl | he'
        · rcases lt_trichotomy k e.1 with hlt | heq | hgt
          · exact absurd hlt hnot
          · exact absurd heq hne
          · exact hgt
        · exact hfirst e' he'

theorem sortEntries_pairwise (entries : List (PyStr × β)) :
    (sortEntries entries).Pairwise fun a b => a.1 < b.1 := by
  unfold sortEntries
  induction entries using reverseRecOn with
  | nil => exact List.Pairwise.nil
  | append_singleton entries e ih =>
    rw [foldl_append]
    exact insertEntry_pairwise ih

theorem insertEntry_last (h : ∀ e ∈ entries, e.1 < k) :
    insertEntry k v entries = entries ++ [(k, v)] := by
  induction entries with
  | nil => rfl
  | cons e entries ih =>
    have he := h e mem_cons_self
    have hne : k ≠ e.1 := by
      rintro rfl
      exact lt_irrefl _ he
    rw [insertEntry, if_neg (lt_asymm he), if_neg hne,
      ih fun e' he' => h e' (mem_cons_of_mem e he')]
    rfl

theorem sortEntries_sorted (h : entries.Pairwise fun a b => a.1 < b.1) :
    sortEntries entries = entries := by
  unfold sortEntries
  induction entries using reverseRecOn with
  | nil => rfl
  | append_singleton entries e ih =>
    rw [pairwise_append] at h
    rw [foldl_append, ih h.1]
    exact insertEntry_last fun e' he' => h.2.2 e' he' e mem_cons_self

end Sorted

/-! ### Strings -/

/-- No high surrogate stands right before a low one. -/
def Unpaired (s : PyStr) : Prop := s.IsChain fun a b => ¬ (isHigh a.val ∧ isLow b.val)

theorem hexValue_digitChar : ∀ n < 16, hexValue (Nat.digitChar n) = some n := by decide

theorem hexValue4_digitChar (hu : u < 0x10000) :
    hexValue4 (Nat.digitChar (u / 4096)) (Nat.digitChar (u / 256 % 16))
      (Nat.digitChar (u / 16 % 16)) (Nat.digitChar (u % 16)) = some u := by
  unfold hexValue4
  rw [hexValue_digitChar _ (by omega), hexValue_digitChar _ (by omega),
    hexValue_digitChar _ (by omega), hexValue_digitChar _ (by omega)]
  exact congrArg some (by omega)

theorem toNat_ofNat (h : u < 0x80) : (Char.ofNat u).toNat = u := by interval_cases u <;> rfl

theorem scanUnits_escapeUnit (hu : u < 0x10000) (text : List Char) :
    scanUnits (escapeUnit u ++ text) = consUnit (some u) (scanUnits text) := by
  unfold escapeUnit
  split_ifs with h1 h2 h3 h4 h5 h6 h7 h8
  · subst h1; rfl
  · subst h2; rfl
  · subst h3; rfl
  · subst h4; rfl
  · subst h5; rfl
  · subst h6; rfl
  · subst h7; rfl
  · -- a printable character is none of those that are escaped
    have hval := toNat_ofNat (u := u) (by omega)
    have hquote : Char.ofNat u ≠ '"' := fun h => h1 (by rw [← hval, h]; rfl)
    have hslash : Char.ofNat u ≠ '\\' := fun h => h2 (by rw [← hval, h]; rfl)
    rw [List.singleton_append, scanUnits]
    · rw [hval, if_neg]
      rintro (h | h)
      · exact hslash h
      · omega
    · exact hquote
    · exact fun a b c d r h => absurd h hslash
    · exact fun e r h => absurd h hslash
  · show scanUnits ('\\' :: 'u' :: _ :: _ :: _ :: _ :: text) = _
    rw [scanUnits, hexValue4_digitChar hu]

theorem scanUnits_text {us : List Nat} (h : ∀ u ∈ us, u < 0x10000) (rest : List Char) :
    scanUnits (us.flatMap escapeUnit ++ '"' :: rest) = some (us, rest) := by
  induction us with
  | nil => rfl
  | cons u us ih =>
    rw [List.flatMap_cons, List.append_assoc, scanUnits_escapeUnit (h u List.mem_cons_self),
      ih fun u' hu' => h u' (List.mem_cons_of_mem u hu')]
    rfl

theorem toUnits_lt (c : CodePoint) : ∀ u ∈ toUnits c, u < 0x10000 := by
  have hc := c.isLt
  unfold toUnits
  split
  · intro u hu
    obtain rfl := mem_singleton.mp hu
    assumption
  · intro u hu
    simp only [mem_cons, not_mem_nil, or_false] at hu
    omega

theorem mem_flatMap_toUnits_lt {s : PyStr} : ∀ u ∈ s.flatMap toUnits, u < 0x10000 := by
  intro u hu
  obtain ⟨c, -, hu⟩ := mem_flatMap.mp hu
  exact toUnits_lt c u hu

theorem joinPairs_long {c : CodePoint} (hc : ¬ c.val < 0x10000) (us : List Nat) :
    joinPairs (toUnits c ++ us) = c.val :: joinPairs us := by
  have hlt := c.isLt
  unfold toUnits
  rw [if_neg hc]
  show joinPairs (_ :: _ :: us) = _
  rw [joinPairs, if_pos]
  · exact congrArg (· :: joinPairs us) (by omega)
  · unfold isHigh isLow
    simp only [Bool.and_eq_true, decide_eq_true_eq]
    omega

theorem joinPairs_cons {us : List Nat} (h : ∀ u' ∈ us.head?, ¬ (isHigh u ∧ isLow u')) :
    joinPairs (u :: us) = u :: joinPairs us := by
  cases us with
  | nil => rfl
  | cons u' us => rw [joinPairs, if_neg (h u' rfl)]

theorem joinPairs_toUnits {s : PyStr} (h : Unpaired s) :
    joinPairs (s.flatMap toUnits) = s.map Fin.val := by
  induction s with
  | nil => rfl
  | cons c s ih =>
    have hs := ih h.tail
    rw [flatMap_cons, map_cons]
    by_cases hc : c.val < 0x10000
    · have hunits : toUnits c = [c.val] := if_pos hc
      rw [hunits, singleton_append, joinPairs_cons, hs]
      cases s with
      | nil => exact nofun
      | cons d s =>
        -- the first unit of a code point beyond the plane is no low surrogate
        intro u hu hpair
        have hd := d.isLt
        have hnot : ¬ (isHigh c.val ∧ isLow d.val) := List.IsChain.rel h
        rw [flatMap_cons] at hu
        unfold toUnits at hu
        split at hu
        · obtain rfl := Option.some.inj hu
          exact hnot hpair
        · obtain rfl := Option.some.inj hu
          have hlow := hpair.2
          unfold isLow at hlow
          simp only [Bool.and_eq_true, decide_eq_true_eq] at hlow
          omega
    · rw [joinPairs_long hc, hs]

theorem point_val (c : CodePoint) : point c.val = c := Fin.ofNat_val_eq_self c

theorem scanString_quoted {s : PyStr} (h : Unpaired s) (rest : List Char) :
    scanString (quoted s ++ rest) = .ok (s, rest) := by
  unfold scanString quoted
  rw [append_assoc, singleton_append, scanUnits_text mem_flatMap_toUnits_lt]
  simp only [joinPairs_toUnits h, map_map]
  rw [show (point ∘ Fin.val) = id from funext point_val, map_id]

/-! ### Numbers -/

/-- A document goes on after a value with a separator or a bracket, or it ends. -/
def Ends (rest : List Char) : Prop := ∀ c ∈ rest.head?, c = ',' ∨ c = ']' ∨ c = '}'

theorem ends_nil : Ends [] := nofun

theorem ends_cons {c : Char} (h : c = ',' ∨ c = ']' ∨ c = '}') (rest : List Char) :
    Ends (c :: rest) := by
  intro c' hc'
  obtain rfl := Option.some.inj hc'
  exact h

/-- What may come right after a number. -/
def NumberEnds (rest : List Char) : Prop :=
  ∀ c ∈ rest.head?, c.isDigit = false ∧ c ≠ '.' ∧ c ≠ 'e' ∧ c ≠ 'E'

theorem Ends.numberEnds {rest : List Char} (h : Ends rest) : NumberEnds rest := by
  intro c hc
  rcases h c hc with rfl | rfl | rfl <;> decide

theorem span_digits (h : ∀ c ∈ digits, c.isDigit = true)
    (hrest : ∀ c ∈ rest.head?, c.isDigit = false) :
    (digits ++ rest).span Char.isDigit = (digits, rest) := by
  have hrest' : rest.takeWhile Char.isDigit = [] ∧ rest.dropWhile Char.isDigit = rest := by
    cases rest with
    | nil => exact ⟨rfl, rfl⟩
    | cons c rest =>
      have hc := hrest c rfl
      rw [takeWhile_cons, dropWhile_cons, hc]
      exact ⟨rfl, rfl⟩
  rw [span_eq_takeWhile_dropWhile, takeWhile_append_of_pos h,
    dropWhile_append_of_pos h, hrest'.1, hrest'.2, append_nil]

theorem head_toDigits {n : Nat} (hn : 0 < n) : (Nat.toDigits 10 n).head? ≠ some '0' := by
  induction n using Nat.strong_induction_on with
  | _ n ih =>
    by_cases hlt : n < 10
    · rw [Nat.toDigits_of_lt_base hlt]
      interval_cases n <;> decide
    · rw [Nat.toDigits_of_base_le (by omega) (by omega)]
      rw [head?_append_of_ne_nil _ Nat.toDigits_ne_nil]
      exact ih (n / 10) (by omega) (by omega)

theorem scanInteger_digits (hne : digits ≠ []) (h : ∀ c ∈ digits, c.isDigit = true)
    (hzero : digits.head? = some '0' → digits = ['0']) (hrest : ∀ c ∈ rest.head?, c.isDigit = false) :
    scanInteger (digits ++ rest) = some (digits, rest) := by
  by_cases h0 : digits.head? = some '0'
  · rw [hzero h0]
    rfl
  · unfold scanInteger
    split
    · rename_i text heq
      cases digits with
      | nil => exact absurd rfl hne
      | cons d digits =>
        obtain ⟨rfl, -⟩ := cons.inj heq
        exact absurd rfl h0
    · rw [span_digits h hrest]
      split
      · rename_i heq
        exact absurd (congrArg Prod.fst heq) hne
      · rename_i heq
        obtain ⟨rfl, rfl⟩ := Prod.mk.inj heq
        rfl

theorem scanRest_ends {negative : Bool} (hlen : digits.length ≤ maxDigits) (h : NumberEnds rest) :
    scanRest negative digits rest =
      .ok (.int ((if negative then -1 else 1) * (Nat.ofDigitChars 10 digits 0 : Int)), rest) := by
  have hfraction : scanFraction rest = ([], rest) := by
    unfold scanFraction
    split
    · exact absurd rfl (h '.' rfl).2.1
    · rfl
  have hexponent : scanExponent rest = .none := by
    cases rest with
    | nil => rfl
    | cons c rest =>
      unfold scanExponent
      apply if_neg
      rintro (rfl | rfl)
      · exact absurd rfl (h 'e' rfl).2.2.1
      · exact absurd rfl (h 'E' rfl).2.2.2
  unfold scanRest
  rw [hfraction]
  simp only [hexponent]
  rw [if_neg (Nat.not_lt.mpr hlen)]

theorem scanNumber_digits (negative : Bool) (hne : digits ≠ []) (h : ∀ c ∈ digits, c.isDigit = true)
    (hzero : digits.head? = some '0' → digits = ['0']) (hlen : digits.length ≤ maxDigits)
    (hrest : NumberEnds rest) :
    scanNumber ((if negative then ['-'] else []) ++ digits ++ rest) =
      .ok (.int ((if negative then -1 else 1) * (Nat.ofDigitChars 10 digits 0 : Int)), rest) := by
  have hinteger := scanInteger_digits hne h hzero fun c hc => (hrest c hc).1
  cases negative with
  | true =>
    show scanNumber ('-' :: (digits ++ rest)) = _
    rw [scanNumber, hinteger]
    exact scanRest_ends hlen hrest
  | false =>
    show scanNumber (digits ++ rest) = _
    unfold scanNumber
    split
    · rename_i text heq
      cases digits with
      | nil => exact absurd rfl hne
      | cons d digits =>
        obtain ⟨rfl, -⟩ := cons.inj heq
        exact absurd (h '-' mem_cons_self) (by decide)
    · rw [hinteger]
      exact scanRest_ends hlen hrest

theorem intText_eq (n : Int) :
    intText n = (if decide (n < 0) then ['-'] else []) ++ Nat.toDigits 10 n.natAbs := by
  unfold intText
  by_cases h : n < 0
  · rw [if_pos h, decide_eq_true h]; rfl
  · rw [if_neg h, decide_eq_false h]; rfl

theorem toDigits_leading (n : Nat) :
    (Nat.toDigits 10 n).head? = some '0' → Nat.toDigits 10 n = ['0'] := by
  intro h
  rcases Nat.eq_zero_or_pos n with rfl | hn
  · rfl
  · exact absurd h (head_toDigits hn)

theorem isDigit_toDigits (n : Nat) : ∀ c ∈ Nat.toDigits 10 n, c.isDigit = true :=
  fun _ hc => Nat.isDigit_of_mem_toDigits (by decide) (by decide) hc

theorem signed_toDigits (n : Int) :
    (if decide (n < 0) then -1 else 1) * (Nat.ofDigitChars 10 (Nat.toDigits 10 n.natAbs) 0 : Int) =
      n := by
  rw [Nat.ofDigitChars_ten_toDigits]
  by_cases h : n < 0
  · rw [decide_eq_true h]
    simp only [if_true]
    omega
  · rw [decide_eq_false h]
    simp only [Bool.false_eq_true, if_false]
    omega

/-! ### Values that are written -/

/-- Values of at most `depth` levels that are read back as they were: no float, no integer with too
many digits, no surrogates in a pair, every key once. -/
inductive Writable : Nat → PyVal → Prop
  | none {depth} : Writable depth .none
  | bool {depth} (b : Bool) : Writable depth (.bool b)
  | int {depth} {n : Int} (h : (Nat.toDigits 10 n.natAbs).length ≤ maxDigits) :
    Writable depth (.int n)
  | str {depth} {s : PyStr} (h : Unpaired s) : Writable depth (.str s)
  | list {depth} {vs : List PyVal} (h : ∀ v ∈ vs, Writable depth v) :
    Writable (depth + 1) (.list vs)
  | dict {depth} {entries : List (PyStr × PyVal)} (nodup : (entries.map Prod.fst).Nodup)
    (keys : ∀ e ∈ entries, Unpaired e.1) (h : ∀ e ∈ entries, Writable depth e.2) :
    Writable (depth + 1) (.dict entries)

/-- What the text of a value may start with. -/
def Opens (c : Char) : Prop := isSpace c = false ∧ c ≠ ']' ∧ c ≠ '}' ∧ c ≠ '\uFEFF'

instance : DecidablePred Opens := fun _ => inferInstanceAs (Decidable (_ ∧ _ ∧ _ ∧ _))

theorem opens_digit {c : Char} (h : c.isDigit = true) : Opens c := by
  refine ⟨?_, ?_, ?_, ?_⟩
  · by_contra hs
    simp only [isSpace, Bool.or_eq_true, decide_eq_true_eq, Bool.not_eq_false] at hs
    rcases hs with ((rfl | rfl) | rfl) | rfl <;> cases h
  · rintro rfl
    cases h
  · rintro rfl
    cases h
  · rintro rfl
    cases h

theorem skipSpace_opens {c : Char} (h : Opens c) (text : List Char) :
    skipSpace (c :: text) = c :: text := by
  unfold skipSpace
  rw [dropWhile_cons, h.1]
  rfl

section

variable {floatRepr : PyFloat → List Char} {depth : Nat} {v : PyVal}

/-! ### Reading one value -/

theorem scanOnce_plain {c : Char} (hbrace : c ≠ '{') (hbracket : c ≠ '[') (hquote : c ≠ '"')
    (depth : Nat) (text : List Char) : scanOnce depth (c :: text) = scanPlain (c :: text) := by
  cases depth <;> simp [scanOnce, hbrace, hbracket, hquote]

theorem scanName_digit {c : Char} (h : c.isDigit = true) (text : List Char) :
    scanName (c :: text) = .none := by
  unfold scanName
  split <;> first | rfl | (rename_i heq; obtain ⟨rfl, -⟩ := cons.inj heq; cases h)

theorem scanName_minus {text : List Char} (h : ∀ c ∈ text.head?, c.isDigit = true) :
    scanName ('-' :: text) = .none := by
  unfold scanName
  split <;> first | rfl | (rename_i heq; cases heq)
  cases h 'I' rfl

theorem scanOnce_number (negative : Bool) {d : Char} (h : d.isDigit = true) (depth : Nat)
    (text : List Char) : scanOnce depth ((if negative then ['-'] else []) ++ d :: text) =
      scanNumber ((if negative then ['-'] else []) ++ d :: text) := by
  cases negative with
  | true =>
    show scanOnce depth ('-' :: d :: text) = scanNumber ('-' :: d :: text)
    have hname : scanName ('-' :: d :: text) = .none := by
      refine scanName_minus fun c hc => ?_
      obtain rfl := Option.some.inj hc
      exact h
    rw [scanOnce_plain (by decide) (by decide) (by decide)]
    unfold scanPlain
    rw [hname]
  | false =>
    show scanOnce depth (d :: text) = scanNumber (d :: text)
    have hplain : ∀ c : Char, c.isDigit = false → d ≠ c := by
      rintro c hc rfl
      rw [hc] at h
      cases h
    rw [scanOnce_plain (hplain _ rfl) (hplain _ rfl) (hplain _ rfl)]
    unfold scanPlain
    rw [scanName_digit h]

theorem scanOnce_digits {digits rest : List Char} (negative : Bool) (hne : digits ≠ [])
    (h : ∀ c ∈ digits, c.isDigit = true) (hzero : digits.head? = some '0' → digits = ['0'])
    (hlen : digits.length ≤ maxDigits) (hrest : NumberEnds rest) (depth : Nat) :
    scanOnce depth ((if negative then ['-'] else []) ++ digits ++ rest) =
      .ok (.int ((if negative then -1 else 1) * (Nat.ofDigitChars 10 digits 0 : Int)), rest) := by
  have hnumber := scanNumber_digits negative hne h hzero hlen hrest
  cases digits with
  | nil => exact absurd rfl hne
  | cons d digits =>
    rw [append_assoc, cons_append] at hnumber ⊢
    rw [scanOnce_number negative (h d mem_cons_self), hnumber]

end

/-! ### Sorted keys -/

/-- Values of at most `depth` levels without a float, every key once. -/
inductive Shaped : Nat → PyVal → Prop
  | none {depth} : Shaped depth .none
  | bool {depth} (b : Bool) : Shaped depth (.bool b)
  | int {depth} (n : Int) : Shaped depth (.int n)
  | str {depth} (s : PyStr) : Shaped depth (.str s)
  | list {depth} {vs : List PyVal} (h : ∀ v ∈ vs, Shaped depth v) : Shaped (depth + 1) (.list vs)
  | dict {depth} {entries : List (PyStr × PyVal)} (nodup : (entries.map Prod.fst).Nodup)
    (h : ∀ e ∈ entries, Shaped depth e.2) : Shaped (depth + 1) (.dict entries)

section

variable {floatRepr : PyFloat → List Char} {depth : Nat} {v : PyVal}
  {members : List (PyStr × PyVal)}

theorem sortKeysItems_eq_map (vs : List PyVal) : sortKeysItems vs = vs.map PyVal.sortKeys := by
  induction vs with
  | nil => rfl
  | cons v vs ih => rw [sortKeysItems, ih]; rfl

theorem sortKeysEntries_eq_map (entries : List (PyStr × PyVal)) :
    sortKeysEntries entries = entries.map fun e => (e.1, e.2.sortKeys) := by
  induction entries with
  | nil => rfl
  | cons e entries ih => rw [sortKeysEntries, ih]; rfl

theorem keys_sortKeysEntries (entries : List (PyStr × PyVal)) :
    (sortKeysEntries entries).map Prod.fst = entries.map Prod.fst := by
  rw [sortKeysEntries_eq_map, map_map]
  rfl

/-- The entries of a dictionary after it was written with sorted keys. -/
def written (members : List (PyStr × PyVal)) : List (PyStr × PyVal) :=
  sortEntries (sortKeysEntries members)

theorem sortKeys_dict (members : List (PyStr × PyVal)) :
    (PyVal.dict members).sortKeys = .dict (written members) := rfl

theorem written_perm (h : (members.map Prod.fst).Nodup) :
    (written members).Perm (members.map fun e => (e.1, e.2.sortKeys)) := by
  rw [← sortKeysEntries_eq_map]
  exact sortEntries_perm ((keys_sortKeysEntries members).symm ▸ h)

theorem nodup_written (h : (members.map Prod.fst).Nodup) :
    ((written members).map Prod.fst).Nodup := by
  refine (((written_perm h).map Prod.fst).nodup_iff).mpr ?_
  rw [map_map]
  exact h

theorem exists_of_mem_written (h : (members.map Prod.fst).Nodup) {e : PyStr × PyVal}
    (he : e ∈ written members) : ∃ e' ∈ members, e = (e'.1, e'.2.sortKeys) := by
  obtain ⟨e', hmem, rfl⟩ := mem_map.mp ((written_perm h).mem_iff.mp he)
  exact ⟨e', hmem, rfl⟩

theorem Writable.sortKeys (h : Writable depth v) : Writable depth v.sortKeys := by
  induction h with
  | none => exact .none
  | bool b => exact .bool b
  | int hn => exact .int hn
  | str hs => exact .str hs
  | @list depth vs hvs ih =>
    refine .list fun w hw => ?_
    rw [sortKeysItems_eq_map] at hw
    obtain ⟨v, hv, rfl⟩ := mem_map.mp hw
    exact ih v hv
  | @dict depth entries nodup keys h ih =>
    refine .dict (nodup_written nodup) ?_ ?_
    · intro e he
      obtain ⟨e', he', rfl⟩ := exists_of_mem_written nodup he
      exact keys e' he'
    · intro e he
      obtain ⟨e', he', rfl⟩ := exists_of_mem_written nodup he
      exact ih e' he'

theorem Shaped.sortKeys (h : Shaped depth v) : Shaped depth v.sortKeys := by
  induction h with
  | none => exact .none
  | bool b => exact .bool b
  | int n => exact .int n
  | str s => exact .str s
  | @list depth vs hvs ih =>
    refine .list fun w hw => ?_
    rw [sortKeysItems_eq_map] at hw
    obtain ⟨v, hv, rfl⟩ := mem_map.mp hw
    exact ih v hv
  | @dict depth entries nodup h ih =>
    refine .dict (nodup_written nodup) fun e he => ?_
    obtain ⟨e', he', rfl⟩ := exists_of_mem_written nodup he
    exact ih e' he'

theorem strings_subset_items {vs : List PyVal} (hv : v ∈ vs) :
    ∀ s ∈ v.strings, s ∈ itemsStrings vs := by
  intro s hs
  induction vs with
  | nil => cases hv
  | cons w vs ih =>
    rw [itemsStrings, mem_append]
    rcases mem_cons.mp hv with rfl | hv
    · exact .inl hs
    · exact .inr (ih hv)

theorem strings_subset_entries {entries : List (PyStr × PyVal)} {e : PyStr × PyVal}
    (he : e ∈ entries) : e.1 ∈ entriesStrings entries ∧
      ∀ s ∈ e.2.strings, s ∈ entriesStrings entries := by
  induction entries with
  | nil => cases he
  | cons f entries ih =>
    rw [entriesStrings]
    rcases mem_cons.mp he with rfl | he
    · exact ⟨mem_cons_self, fun s hs => mem_cons_of_mem _ (mem_append_left _ hs)⟩
    · obtain ⟨hkey, hvalue⟩ := ih he
      exact ⟨mem_cons_of_mem _ (mem_append_right _ hkey),
        fun s hs => mem_cons_of_mem _ (mem_append_right _ (hvalue s hs))⟩

theorem printableItems_iff {vs : List PyVal} :
    printableItems vs = true ↔ ∀ v ∈ vs, v.printable = true := by
  induction vs with
  | nil => exact ⟨fun _ => nofun, fun _ => rfl⟩
  | cons v vs ih => rw [printableItems, Bool.and_eq_true, ih, forall_mem_cons]

theorem printableEntries_iff {entries : List (PyStr × PyVal)} :
    printableEntries entries = true ↔ ∀ e ∈ entries, e.2.printable = true := by
  induction entries with
  | nil => exact ⟨fun _ => nofun, fun _ => rfl⟩
  | cons e entries ih => rw [printableEntries, Bool.and_eq_true, ih, forall_mem_cons]

theorem Shaped.writable (h : Shaped depth v) (hprint : v.printable = true)
    (hstrings : ∀ s ∈ v.strings, Unpaired s) : Writable depth v := by
  induction h with
  | none => exact .none
  | bool b => exact .bool b
  | int n => exact .int (of_decide_eq_true hprint)
  | str s => exact .str (hstrings s (mem_singleton_self s))
  | list h ih =>
    exact .list fun v hv => ih v hv (printableItems_iff.mp hprint v hv)
      fun s hs => hstrings s (strings_subset_items hv s hs)
  | dict nodup h ih =>
    refine .dict nodup (fun e he => hstrings e.1 (strings_subset_entries he).1) fun e he => ?_
    exact ih e he (printableEntries_iff.mp hprint e he)
      fun s hs => hstrings s ((strings_subset_entries he).2 s hs)

theorem dumps_eq_some {text : List Char} (h : dumps floatRepr v = some text) :
    v.printable = true ∧ text = v.sortKeys.text floatRepr := by
  unfold dumps at h
  split at h
  · rename_i hprint
    exact ⟨hprint, (Option.some.inj h).symm⟩
  · cases h

theorem dumps_writable {text : List Char} (h : Shaped depth v)
    (hstrings : ∀ s ∈ v.strings, Unpaired s) (hd : dumps floatRepr v = some text) :
    Writable depth v.sortKeys :=
  (h.writable (dumps_eq_some hd).1 hstrings).sortKeys

end

/-! ### Printable characters -/

/-- A character of printable ASCII. -/
def Printable (c : Char) : Prop := 0x20 ≤ c.toNat ∧ c.toNat ≤ 0x7E

instance : DecidablePred Printable := fun _ => inferInstanceAs (Decidable (_ ∧ _))

theorem printable_of_all (text : List Char) (h : (text.all fun c => decide (Printable c)) = true) :
    ∀ c ∈ text, Printable c :=
  fun c hc => of_decide_eq_true (all_eq_true.mp h c hc)

theorem printable_digitChar : ∀ n < 16, Printable (Nat.digitChar n) := by decide

theorem printable_digit {c : Char} (h : c.isDigit = true) : Printable c := by
  obtain ⟨hlow, hhigh⟩ := Char.isDigit_iff_toNat.mp h
  exact ⟨Nat.le_trans (by decide) hlow, Nat.le_trans hhigh (by decide)⟩

theorem printable_escapeUnit (hu : u < 0x10000) : ∀ c ∈ escapeUnit u, Printable c := by
  unfold escapeUnit
  iterate 7
    split; · exact printable_of_all _ rfl
  split
  · rename_i h
    intro c hc
    obtain rfl := mem_singleton.mp hc
    unfold Printable
    rw [toNat_ofNat (by omega)]
    exact h
  · simp only [mem_cons, not_mem_nil, or_false]
    rintro c (rfl | rfl | rfl | rfl | rfl | rfl)
    · decide
    · decide
    · exact printable_digitChar _ (by omega)
    · exact printable_digitChar _ (by omega)
    · exact printable_digitChar _ (by omega)
    · exact printable_digitChar _ (by omega)

theorem printable_quoted (s : PyStr) : ∀ c ∈ quoted s, Printable c := by
  intro c hc
  rcases mem_append.mp hc with hc | hc
  · obtain ⟨u, hu, hc⟩ := mem_flatMap.mp hc
    exact printable_escapeUnit (mem_flatMap_toUnits_lt u hu) c hc
  · obtain rfl := mem_singleton.mp hc
    decide

theorem printable_intText (n : Int) : ∀ c ∈ intText n, Printable c := by
  have hdigits : ∀ c ∈ Nat.toDigits 10 n.natAbs, Printable c :=
    fun c hc => printable_digit (isDigit_toDigits _ c hc)
  unfold intText
  split
  · rw [forall_mem_cons]
    exact ⟨by decide, hdigits⟩
  · exact hdigits

section

variable {floatRepr : PyFloat → List Char} {depth : Nat} {v : PyVal}

theorem printable_append {a b : List Char} (ha : ∀ c ∈ a, Printable c)
    (hb : ∀ c ∈ b, Printable c) : ∀ c ∈ a ++ b, Printable c :=
  forall_mem_append.mpr ⟨ha, hb⟩

theorem printable_cons {c : Char} {text : List Char} (hc : Printable c)
    (h : ∀ c ∈ text, Printable c) : ∀ c' ∈ c :: text, Printable c' :=
  forall_mem_cons.mpr ⟨hc, h⟩

theorem printable_itemsText {vs : List PyVal} (h : ∀ v ∈ vs, ∀ c ∈ v.text floatRepr, Printable c) :
    ∀ c ∈ itemsText floatRepr vs, Printable c := by
  induction vs with
  | nil => exact printable_cons (by decide) nofun
  | cons v vs ih =>
    have hv := h v mem_cons_self
    cases vs with
    | nil => exact printable_append hv (printable_cons (by decide) nofun)
    | cons w vs =>
      exact printable_append hv
        (printable_cons (by decide) (ih fun u hu => h u (mem_cons_of_mem v hu)))

theorem printable_membersText {entries : List (PyStr × PyVal)}
    (h : ∀ e ∈ entries, ∀ c ∈ e.2.text floatRepr, Printable c) :
    ∀ c ∈ membersText floatRepr entries, Printable c := by
  induction entries with
  | nil => exact printable_cons (by decide) nofun
  | cons e entries ih =>
    have he := h e mem_cons_self
    have hkey := printable_quoted e.1
    cases entries with
    | nil =>
      exact printable_cons (by decide) (printable_append hkey
        (printable_cons (by decide) (printable_append he (printable_cons (by decide) nofun))))
    | cons m entries =>
      have htail := ih fun u hu => h u (mem_cons_of_mem e hu)
      exact printable_cons (by decide) (printable_append hkey
        (printable_cons (by decide) (printable_append he (printable_cons (by decide) htail))))

theorem printable_text (h : Shaped depth v) : ∀ c ∈ v.text floatRepr, Printable c := by
  induction h with
  | none => exact printable_of_all ['n', 'u', 'l', 'l'] rfl
  | bool b =>
    cases b with
    | false => exact printable_of_all ['f', 'a', 'l', 's', 'e'] rfl
    | true => exact printable_of_all ['t', 'r', 'u', 'e'] rfl
  | int n => exact printable_intText n
  | str s => exact printable_cons (by decide) (printable_quoted s)
  | list h ih => exact printable_cons (by decide) (printable_itemsText ih)
  | dict nodup h ih => exact printable_cons (by decide) (printable_membersText ih)

end

end Xtrax.PyJson
