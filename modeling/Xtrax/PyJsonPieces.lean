import Xtrax.PyJsonLex
import Xtrax.PyJsonRoundTrip

/-!
# Pieces of a document

Of a beginning of the text of an object nothing is read: it has no closing brace outside of its
strings (`loads_beginning`).  An end either begins outside of a string, where no brace opens any more,
or in a string: then the reader takes what is between two strings for a string, and finds no key there
that has a letter which only strings have (`loads_ending`).

`Flat` texts are those of values other than objects, and `flat_members` says what the text of an object
of such values is.
-/

namespace Xtrax.PyJson

open List

-- of all characters there are too many to be gone through
instance (priority := high) decidableChars (l : List Char) (p : Char → Prop) [DecidablePred p] :
    Decidable (∀ c ∈ l, p c) := decidableBAll p l

/-! ### Beginnings -/

section Loads

variable {depth : Nat} {text rest : List Char} {v : PyVal}

theorem loads_eq_ok (h : loads depth text = .ok v) :
    ∃ rest, scanOnce depth (skipSpace text) = .ok (v, rest) ∧ skipSpace rest = [] := by
  unfold loads at h
  split at h
  · cases h
  · obtain ⟨⟨v', rest⟩, hscan, h⟩ := Results.bind_eq_ok.mp h
    dsimp only at h
    split at h
    next hrest =>
      obtain rfl := Except.ok.inj h
      exact ⟨rest, hscan, hrest⟩
    next => cases h

theorem recursion_of_loads (h : loads depth text = .error .recursion) :
    scanOnce depth (skipSpace text) = .error .recursion := by
  unfold loads at h
  split at h
  · cases h
  · rcases Results.bind_eq_error h with h | ⟨⟨v', rest⟩, -, h⟩
    · exact h
    · dsimp only at h
      split at h
      · cases h
      · cases h

theorem loads_not_deep (h : opens text ≤ depth) : loads depth text ≠ .error .recursion := by
  intro hdeep
  have hless := opens_of_recursion (recursion_of_loads hdeep)
  have hle := (passes_skipSpace text).opens_le
  omega

theorem scanOnce_dict {entries : List (PyStr × PyVal)}
    (h : scanOnce depth text = .ok (.dict entries, rest)) :
    ∃ levels inner, depth = levels + 1 ∧ text = '{' :: inner ∧
      scanObject (scanOnce levels) inner = .ok (.dict entries, rest) := by
  unfold scanOnce at h
  split at h
  · cases h
  · cases h
  next levels inner => exact ⟨levels, inner, rfl, rfl, h⟩
  next levels inner =>
    unfold scanArray at h
    split at h
    · cases h
    · obtain ⟨a, -, h⟩ := Results.bind_eq_ok.mp h
      cases h
  · obtain ⟨a, -, h⟩ := Results.bind_eq_ok.mp h
    cases h
  · unfold scanPlain at h
    split at h
    next found hname =>
      obtain rfl := Except.ok.inj h
      unfold scanName at hname
      split at hname <;> cases hname
    next =>
      have hrest : ∀ {negative digits after}, scanRest negative digits after ≠
          .ok (.dict entries, rest) := by
        intro negative digits after h
        unfold scanRest at h
        dsimp only at h
        split at h
        · split at h
          · cases h
          · cases h
        · cases h
      unfold scanNumber at h
      split at h
      · split at h
        · exact absurd h hrest
        · cases h
      · split at h
        · exact absurd h hrest
        · cases h

theorem mem_outer_of_passes {c : Char} (hc : Plain c) (h : Passes text (c :: rest)) :
    c ∈ outer .outside text := by
  obtain ⟨u, rfl, hu⟩ := h
  rw [outer_append hu, outer, step_plain (by decide) hc]
  exact mem_append_right _ mem_cons_self

/-- **A beginning of an object** is no document. -/
theorem loads_beginning (hbrace : '}' ∉ outer .outside text)
    (hdepth : opens ('{' :: text) ≤ depth) :
    ∃ e, loads depth ('{' :: text) = .error e ∧ e ≠ .recursion := by
  cases h : loads depth ('{' :: text) with
  | error e =>
    refine ⟨e, rfl, ?_⟩
    rintro rfl
    exact loads_not_deep hdepth h
  | ok v =>
    obtain ⟨rest, hscan, -⟩ := loads_eq_ok h
    cases depth with
    | zero => cases hscan
    | succ depth =>
      have hpass := (scanObject_spec (passes_scanOnce depth) hscan).1
      exact absurd (mem_outer_of_passes (by decide) hpass) hbrace

/-! ### Ends -/

/-- Outside for inside. -/
def Spot.flip : Spot → Spot
  | .outside => .inside
  | .inside => .outside
  | .escaped => .escaped

theorem lex_flip {s s' : Spot} (hs : s ≠ .escaped) (h : lex s text = some s')
    (hother : lex s.flip text ≠ none) : s' ≠ .escaped ∧ lex s.flip text = some s'.flip := by
  induction text generalizing s with
  | nil =>
    obtain rfl := Option.some.inj h
    exact ⟨hs, rfl⟩
  | cons c text ih =>
    by_cases hplain : Plain c
    · have hflip : s.flip ≠ .escaped := by cases s <;> simp_all [Spot.flip]
      rw [lex_cons, step_plain hs hplain] at h
      rw [lex_cons, step_plain hflip hplain] at hother ⊢
      exact ih hs h hother
    · by_cases hquote : c = '"'
      · subst hquote
        cases s with
        | outside => exact ih (s := .inside) (by decide) h hother
        | inside => exact ih (s := .outside) (by decide) h hother
        | escaped => exact absurd rfl hs
      · -- outside of strings there is no backslash
        have hslash : c = '\\' := by
          by_contra hslash
          exact hplain ⟨hquote, hslash⟩
        subst hslash
        cases s with
        | outside => cases h
        | inside => exact absurd rfl hother
        | escaped => exact absurd rfl hs

theorem head_joinPairs (c : Char) (us : List Nat) :
    ∃ rest, joinPairs (c.toNat :: us) = c.toNat :: rest := by
  have hhigh : isHigh c.toNat = false := by
    rw [isHigh, Bool.and_eq_false_iff, decide_eq_false_iff_not, decide_eq_false_iff_not]
    rcases c.valid with hlow | ⟨hlow, -⟩
    · left
      have hless : c.toNat < 0xD800 := hlow
      omega
    · right
      have hless : 0xDFFF < c.toNat := hlow
      omega
  cases us with
  | nil => exact ⟨[], rfl⟩
  | cons u us =>
    rw [joinPairs, if_neg (by simp [hhigh])]
    exact ⟨_, rfl⟩

theorem head_scanString {b after : List Char} {key : PyStr} (hlex : lex .outside b ≠ none)
    (h : scanString b = .ok (key, after)) {k : CodePoint} (hk : key.head? = some k) :
    ∃ c ∈ outer .outside b, point c.toNat = k := by
  cases b with
  | nil => cases h
  | cons c b =>
    by_cases hquote : c = '"'
    · subst hquote
      obtain ⟨rfl, -⟩ := Prod.mk.inj (Except.ok.inj h)
      cases hk
    · have hslash : c ≠ '\\' := by
        rintro rfl
        exact hlex rfl
      have hmem : c ∈ outer .outside (c :: b) := by
        rw [outer, step_plain (by decide) ⟨hquote, hslash⟩]
        exact List.mem_cons_self
      unfold scanString at h
      cases hunits : scanUnits (c :: b) with
      | none =>
        rw [hunits] at h
        cases h
      | some found =>
        rw [scanUnits.eq_4 c b hquote (fun _ _ _ _ _ hc => absurd hc hslash)
          (fun _ _ hc => absurd hc hslash)] at hunits
        split at hunits
        · cases hunits
        · obtain ⟨⟨us, after'⟩, hscan, hfound⟩ := Option.bind_eq_some_iff.mp hunits
          obtain rfl := Option.some.inj hfound
          rw [scanUnits.eq_4 c b hquote (fun _ _ _ _ _ hc => absurd hc hslash)
            (fun _ _ hc => absurd hc hslash), if_neg ‹_›, hscan] at h
          obtain ⟨rfl, -⟩ := Prod.mk.inj (Except.ok.inj h)
          obtain ⟨rest, hjoined⟩ := head_joinPairs c us
          rw [hjoined] at hk
          exact ⟨c, hmem, Option.some.inj hk⟩

theorem head_keyRead {key : PyStr} (hlex : lex .inside text ≠ none) (h : KeyRead text key)
    {k : CodePoint} (hk : key.head? = some k) : ∃ c ∈ outer .inside text, point c.toNat = k := by
  obtain ⟨b, after, ⟨u, rfl, hu⟩, hkey⟩ := h
  rw [lex_append] at hlex
  have hinside : lex .inside u = some .inside := by
    refine (lex_flip (s := .outside) (by decide) hu ?_).2
    intro hnone
    rw [show Spot.flip .outside = .inside from rfl] at hnone
    rw [hnone] at hlex
    exact hlex rfl
  rw [hinside] at hlex
  obtain ⟨c, hc, hpoint⟩ := head_scanString hlex hkey hk
  refine ⟨c, ?_, hpoint⟩
  rw [outer_append hinside]
  exact mem_append_right _ hc

/-- **An end of an object's text**, other than all of it, is no dictionary with a key whose first
letter is nowhere outside of the strings. -/
theorem loads_ending (front : List Char) (hlex : lex .outside (front ++ text) ≠ none)
    (hbrace : '{' ∉ outer .outside (front ++ text)) {letter : Char}
    (hletter : ∀ c ∈ outer .outside (front ++ text), point c.toNat ≠ point letter.toNat)
    {entries : List (PyStr × PyVal)} (h : loads depth text = .ok (.dict entries)) :
    ∀ e ∈ entries, e.1.head? ≠ some (point letter.toNat) := by
  intro e he hk
  obtain ⟨rest, hscan, -⟩ := loads_eq_ok h
  obtain ⟨levels, inner, -, hinner, hobject⟩ := scanOnce_dict hscan
  have hkeys := (scanObject_spec (passes_scanOnce levels) hobject).2
  obtain ⟨entries', hentries, hkeys⟩ := hkeys
  obtain rfl := PyVal.dict.inj hentries
  have hpass : Passes text ('{' :: inner) := hinner ▸ passes_skipSpace text
  rw [lex_append] at hlex
  cases hfront : lex .outside front with
  | none =>
    rw [hfront] at hlex
    exact hlex rfl
  | some spot =>
    rw [hfront] at hlex
    rw [outer_append hfront] at hbrace hletter
    cases spot with
    | outside =>
      refine hbrace (mem_append_right _ ?_)
      exact mem_outer_of_passes (by decide) hpass
    | escaped =>
      -- what follows a backslash opens no object
      cases text with
      | nil => cases hinner
      | cons c text =>
        have hc : c ∈ escapes := by
          by_contra hc
          refine hlex ?_
          show lex .escaped (c :: text) = none
          rw [lex_cons, Spot.step, if_neg hc]
          rfl
        have hopens : ∀ c ∈ escapes, isSpace c = false ∧ c ≠ '{' := by decide
        rw [skipSpace, dropWhile_cons, (hopens c hc).1] at hinner
        exact (hopens c hc).2 (cons.inj hinner).1
    | inside =>
      obtain ⟨b, after, hb, hkey⟩ := hkeys e he
      have hread : KeyRead text e.1 := by exact ⟨b, after, (hpass.tail (by decide)).trans hb, hkey⟩
      obtain ⟨c, hc, hpoint⟩ := head_keyRead hlex hread hk
      exact hletter c (mem_append_right _ hc) hpoint

end Loads

/-! ### Texts without objects -/

/-- What may stand outside of strings, other than braces. -/
def outsideChars : List Char := "\"[],: 0123456789+-.eEnultrfasNIiy".toList

/-- Whole strings, and between them what numbers, names and lists are made of, with a number of lists
at most. -/
structure Flat (text : List Char) (n : Nat) : Prop where
  lex : lex .outside text = some .outside
  outer : ∀ c ∈ outer .outside text, c ∈ outsideChars
  opens : opens text ≤ n
  printable : ∀ c ∈ text, Printable c

section Flat

variable {floatRepr : PyFloat → List Char} {a b text : List Char} {n m : Nat}

theorem Flat.append (ha : Flat a n) (hb : Flat b m) : Flat (a ++ b) (n + m) where
  lex := by
    rw [lex_append, ha.lex]
    exact hb.lex
  outer := by
    rw [outer_append ha.lex]
    exact forall_mem_append.mpr ⟨ha.outer, hb.outer⟩
  opens := by
    rw [PyJson.opens, outer_append ha.lex, countP_append]
    exact Nat.add_le_add ha.opens hb.opens
  printable := printable_append ha.printable hb.printable

theorem Flat.mono (h : Flat text n) (hle : n ≤ m) : Flat text m := { h with opens := h.opens.trans hle }

/-- The characters of numbers and names, and those between values. -/
def loneChars : List Char := ",: 0123456789+-.eEnultrfasNIiy".toList

theorem loneChars_spec : ∀ c ∈ loneChars, Plain c ∧ c ∈ outsideChars ∧ c ≠ '[' ∧ c ≠ '{' ∧ Printable c := by
  decide

theorem flat_lone (text : List Char) (h : ∀ c ∈ text, c ∈ loneChars) : Flat text 0 := by
  have hplain : ∀ c ∈ text, Plain c := fun c hc => (loneChars_spec c (h c hc)).1
  refine ⟨lex_plain (by decide) hplain, ?_, ?_, fun c hc => (loneChars_spec c (h c hc)).2.2.2.2⟩
  · rw [outer_plain hplain]
    exact fun c hc => (loneChars_spec c (h c hc)).2.1
  · rw [opens, outer_plain hplain, Nat.le_zero, countP_eq_zero]
    intro c hc
    have hspec := loneChars_spec c (h c hc)
    simp [hspec.2.2.1, hspec.2.2.2.1]

theorem Flat.cons {c : Char} (hc : c ∈ loneChars) (h : Flat text n) : Flat (c :: text) n :=
  (Nat.zero_add n) ▸ (flat_lone [c] (by simpa using hc)).append h

theorem digit_lone {c : Char} (h : c.isDigit = true) : c ∈ loneChars := by
  obtain ⟨hlow, hhigh⟩ := Char.isDigit_iff_toNat.mp h
  have hall : ∀ n, 48 ≤ n → n ≤ 57 → Char.ofNat n ∈ loneChars := by
    intro n hlow hhigh
    interval_cases n <;> decide
  have hmem := hall c.toNat hlow hhigh
  rwa [Char.ofNat_toNat] at hmem

theorem flat_intText (n : Int) : Flat (intText n) 0 := by
  have hdigits : ∀ c ∈ Nat.toDigits 10 n.natAbs, c ∈ loneChars :=
    fun c hc => digit_lone (isDigit_toDigits _ c hc)
  refine flat_lone _ ?_
  unfold intText
  split
  · exact forall_mem_cons.mpr ⟨by decide, hdigits⟩
  · exact hdigits

/-- A text that stays in a string. -/
structure Inner (text : List Char) : Prop where
  lex : lex .inside text = some .inside
  outer : outer .inside text = []

theorem Inner.append (ha : Inner a) (hb : Inner b) : Inner (a ++ b) where
  lex := by
    rw [lex_append, ha.lex]
    exact hb.lex
  outer := by rw [outer_append ha.lex, ha.outer, hb.outer, append_nil]

theorem inner_plain (h : ∀ c ∈ text, Plain c) : Inner text := by
  induction text with
  | nil => exact ⟨rfl, rfl⟩
  | cons c text ih =>
    obtain ⟨hc, htext⟩ := forall_mem_cons.mp h
    obtain ⟨hlex, houter⟩ := ih htext
    constructor
    · rw [lex_cons, step_plain (by decide) hc]
      exact hlex
    · rw [PyJson.outer, step_plain (by decide) hc]
      exact houter

theorem inner_escape {e : Char} (he : e ∈ escapes) : Inner ['\\', e] := by
  have hstep : Spot.step .escaped e = some .inside := by rw [Spot.step, if_pos he]
  constructor
  · rw [lex_escape he]
    rfl
  · show PyJson.outer .escaped [e] = []
    rw [PyJson.outer, hstep]
    rfl

theorem inner_escapeUnit {u : Nat} (hu : u < 0x10000) : Inner (escapeUnit u) := by
  unfold escapeUnit
  iterate 7
    split; · exact inner_escape (by decide)
  split
  next hquote hslash _ _ _ _ _ hprint =>
    refine inner_plain fun c hc => ?_
    obtain rfl := mem_singleton.mp hc
    constructor
    · intro hc
      have htoNat := congrArg Char.toNat hc
      rw [toNat_ofNat (by omega)] at htoNat
      exact hquote htoNat
    · intro hc
      have htoNat := congrArg Char.toNat hc
      rw [toNat_ofNat (by omega)] at htoNat
      exact hslash htoNat
  next =>
    have hdigit : ∀ n < 16, Plain (Nat.digitChar n) := by decide
    refine (inner_escape (e := 'u') (by decide)).append (inner_plain ?_)
    simp only [forall_mem_cons, not_mem_nil, false_implies, implies_true, and_true]
    exact ⟨hdigit _ (by omega), hdigit _ (by omega), hdigit _ (by omega), hdigit _ (by omega)⟩

theorem inner_units {us : List Nat} (h : ∀ u ∈ us, u < 0x10000) :
    Inner (us.flatMap escapeUnit) := by
  induction us with
  | nil => exact ⟨rfl, rfl⟩
  | cons u us ih =>
    obtain ⟨hu, hus⟩ := forall_mem_cons.mp h
    rw [flatMap_cons]
    exact (inner_escapeUnit hu).append (ih hus)

theorem flat_quoted (s : PyStr) : Flat ('"' :: quoted s) 0 := by
  have hinner : Inner ((s.flatMap toUnits).flatMap escapeUnit) :=
    inner_units fun u hu => mem_flatMap_toUnits_lt u hu
  have houter : PyJson.outer .outside ('"' :: quoted s) = ['"'] := by
    show '"' :: PyJson.outer .inside (quoted s) = ['"']
    rw [quoted, outer_append hinner.lex, hinner.outer]
    rfl
  refine ⟨?_, ?_, ?_, printable_cons (by decide) (printable_quoted s)⟩
  · show PyJson.lex .inside (quoted s) = some .outside
    rw [quoted, lex_append, hinner.lex]
    rfl
  · rw [houter]
    decide
  · rw [opens, houter]
    decide

theorem Flat.bracket (h : Flat text n) : Flat ('[' :: text) (n + 1) where
  lex := h.lex
  outer := by
    show ∀ c ∈ '[' :: PyJson.outer .outside text, c ∈ outsideChars
    exact forall_mem_cons.mpr ⟨by decide, h.outer⟩
  opens := by
    rw [opens_open (.inl rfl)]
    exact Nat.succ_le_succ h.opens
  printable := printable_cons (by decide) h.printable

theorem flat_closing : Flat [']'] 0 where
  lex := rfl
  outer := by decide
  opens := by decide
  printable := by decide

theorem flat_itemsText {vs : List PyVal} (h : ∀ v ∈ vs, Flat (v.text floatRepr) 0) :
    Flat (itemsText floatRepr vs) 0 := by
  induction vs with
  | nil => exact flat_closing
  | cons v vs ih =>
    obtain ⟨hv, hvs⟩ := forall_mem_cons.mp h
    cases vs with
    | nil => exact hv.append flat_closing
    | cons w vs => exact hv.append (.cons (by decide) (ih hvs))

/-- **The text of an object** of values without objects: the closing brace is its first one. -/
theorem flat_members {entries : List (PyStr × PyVal)} (size : PyVal → Nat) (hne : entries ≠ [])
    (h : ∀ e ∈ entries, Flat (e.2.text floatRepr) (size e.2)) :
    ∃ body, membersText floatRepr entries = body ++ ['}'] ∧
      Flat body (entries.map fun e => size e.2).sum := by
  induction entries with
  | nil => exact absurd rfl hne
  | cons e entries ih =>
    obtain ⟨he, hentries⟩ := forall_mem_cons.mp h
    have hmember := (flat_quoted e.1).append (he.cons (c := ':') (by decide))
    rw [Nat.zero_add] at hmember
    cases entries with
    | nil =>
      refine ⟨_, ?_, hmember⟩
      rw [membersText]
      simp
    | cons m entries =>
      obtain ⟨body, hbody, hflat⟩ := ih (by simp) hentries
      refine ⟨_, ?_, hmember.append (.cons (c := ',') (by decide) hflat)⟩
      rw [membersText, hbody]
      simp

end Flat

end Xtrax.PyJson
