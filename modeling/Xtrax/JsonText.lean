import Mathlib
import Xtrax.Utf8

/-!
# JSON values and their compact text

`Json` is the value a JSON document holds, `Json.dumps` the text a serializer writes for it
with sorted keys, the separators `,` and `:`, no escaping beyond what the grammar asks for,
and a refusal of the three floats that JSON has no text for.

The text determines the value (`compact_inj`), also when more text follows it, and it holds
no control character (`compact_printable`), so that a line break can follow it as its
terminator.
-/

namespace Xtrax

open List

/-- A character that the text of a number may contain. -/
def NumberChar (c : Char) : Prop :=
  c.isDigit = true ∨ c = '-' ∨ c = '+' ∨ c = '.' ∨ c = 'e'

instance : DecidablePred NumberChar :=
  fun _ => inferInstanceAs (Decidable (_ ∨ _ ∨ _ ∨ _ ∨ _))

/-- The shortest text that reads back as a given finite float: it has a point or an
exponent, which tells it from the text of an integer. -/
@[ext]
structure FloatText where
  text : List Char
  numeric : ∀ c ∈ text, NumberChar c
  marked : ∃ c ∈ text, c = '.' ∨ c = 'e'

/-- A JSON value.  `nonFinite` is NaN or an infinity, by the name it is written under. -/
inductive Json where
  | null
  | bool (b : Bool)
  | int (n : Int)
  | float (x : FloatText)
  | nonFinite (name : String)
  | str (s : String)
  | arr (vs : List Json)
  | obj (kvs : List (String × Json))

/-! ### The text of a string -/

/-- What is written for one character of a string. -/
def escapeChar (c : Char) : List Char :=
  if c = '"' then ['\\', '"']
  else if c = '\\' then ['\\', '\\']
  else if c = '\n' then ['\\', 'n']
  else if c = '\r' then ['\\', 'r']
  else if c = '\t' then ['\\', 't']
  else if c = '\x0c' then ['\\', 'f']
  else if c = '\x08' then ['\\', 'b']
  else if c.toNat < 0x20 then
    ['\\', 'u', '0', '0', Nat.digitChar (c.toNat / 16), Nat.digitChar (c.toNat % 16)]
  else [c]

/-- A string between its quotes. -/
def quote (s : List Char) : List Char := '"' :: (s.flatMap escapeChar ++ ['"'])

/-! ### The text of a value -/

mutual

/-- The text of a value, its members in the order they are listed. -/
def Json.compact : Json → List Char
  | .null => ['n', 'u', 'l', 'l']
  | .bool true => ['t', 'r', 'u', 'e']
  | .bool false => ['f', 'a', 'l', 's', 'e']
  | .int n => n.repr.toList
  | .float x => x.text
  | .nonFinite name => name.toList
  | .str s => quote s.toList
  | .arr vs => '[' :: (compactItems vs ++ [']'])
  | .obj kvs => '{' :: (compactMembers kvs ++ ['}'])

/-- The values of an array, a comma between two of them. -/
def compactItems : List Json → List Char
  | [] => []
  | [v] => v.compact
  | v :: w :: vs => v.compact ++ ',' :: compactItems (w :: vs)

/-- The members of an object, a comma between two of them. -/
def compactMembers : List (String × Json) → List Char
  | [] => []
  | [(k, v)] => quote k.toList ++ ':' :: v.compact
  | (k, v) :: m :: kvs => quote k.toList ++ ':' :: (v.compact ++ ',' :: compactMembers (m :: kvs))

end

mutual

/-- No NaN and no infinity anywhere in the value. -/
def Json.finite : Json → Bool
  | .nonFinite _ => false
  | .arr vs => finiteItems vs
  | .obj kvs => finiteMembers kvs
  | _ => true

def finiteItems : List Json → Bool
  | [] => true
  | v :: vs => v.finite && finiteItems vs

def finiteMembers : List (String × Json) → Bool
  | [] => true
  | (_, v) :: kvs => v.finite && finiteMembers kvs

end

/-- Members in the order of their keys. -/
def sortByKey {β : Type} (kvs : List (String × β)) : List (String × β) :=
  kvs.insertionSort fun a b => a.1 ≤ b.1

mutual

/-- The value with the members of every object in the order of their keys. -/
def Json.sortKeys : Json → Json
  | .arr vs => .arr (sortKeysItems vs)
  | .obj kvs => .obj (sortByKey (sortKeysMembers kvs))
  | v => v

def sortKeysItems : List Json → List Json
  | [] => []
  | v :: vs => v.sortKeys :: sortKeysItems vs

def sortKeysMembers : List (String × Json) → List (String × Json)
  | [] => []
  | (k, v) :: kvs => (k, v.sortKeys) :: sortKeysMembers kvs

end

/-- The text of a value with sorted keys; none where a float has no text. -/
def Json.dumps (v : Json) : Option (List Char) :=
  if v.finite then some v.sortKeys.compact else none

/-! ### A string ends at its closing quote -/

/-- The first character of a string's text, read back. -/
def unescape : List Char → Option Char
  | '\\' :: 'n' :: _ => some '\n'
  | '\\' :: 'r' :: _ => some '\r'
  | '\\' :: 't' :: _ => some '\t'
  | '\\' :: 'f' :: _ => some '\x0c'
  | '\\' :: 'b' :: _ => some '\x08'
  | '\\' :: 'u' :: '0' :: '0' :: a :: b :: _ =>
    (List.range 0x20).findSome? fun n =>
      if Nat.digitChar (n / 16) = a ∧ Nat.digitChar (n % 16) = b then some (Char.ofNat n)
      else none
  | '\\' :: c :: _ => some c
  | c :: _ => some c
  | [] => none

theorem unescape_control : ∀ n, n < 0x20 → ∀ r,
    unescape (['\\', 'u', '0', '0', Nat.digitChar (n / 16), Nat.digitChar (n % 16)] ++ r)
      = some (Char.ofNat n) := by
  intro n hn r
  interval_cases n <;> rfl

theorem unescape_escapeChar (c : Char) (r : List Char) : unescape (escapeChar c ++ r) = some c := by
  unfold escapeChar
  split_ifs with h₁ h₂ h₃ h₄ h₅ h₆ h₇ h₈
  · subst h₁; rfl
  · subst h₂; rfl
  · subst h₃; rfl
  · subst h₄; rfl
  · subst h₅; rfl
  · subst h₆; rfl
  · subst h₇; rfl
  · rw [unescape_control c.toNat h₈, Char.ofNat_toNat]
  · -- a character that is not escaped is none of those that start an escape
    rw [singleton_append]
    unfold unescape
    split <;> simp_all

theorem escapeChar_append_inj {c d : Char} {r r' : List Char}
    (h : escapeChar c ++ r = escapeChar d ++ r') : c = d ∧ r = r' := by
  have hc := unescape_escapeChar c r
  rw [h, unescape_escapeChar] at hc
  obtain rfl := Option.some.inj hc
  exact ⟨rfl, append_cancel_left h⟩

theorem escapeChar_head (c : Char) (r r' : List Char) : escapeChar c ++ r ≠ '"' :: r' := by
  unfold escapeChar
  split_ifs with h₁ <;> simp_all

theorem quote_append_inj {s t : List Char} {r r' : List Char}
    (h : quote s ++ r = quote t ++ r') : s = t ∧ r = r' := by
  have hbody : s.flatMap escapeChar ++ '"' :: r = t.flatMap escapeChar ++ '"' :: r' := by
    simpa [quote] using h
  clear h
  induction s generalizing t with
  | nil =>
    cases t with
    | nil => exact ⟨rfl, (cons.inj hbody).2⟩
    | cons d t =>
      rw [flatMap_cons, append_assoc] at hbody
      exact absurd hbody.symm (escapeChar_head d _ _)
  | cons c s ih =>
    cases t with
    | nil =>
      rw [flatMap_cons, append_assoc] at hbody
      exact absurd hbody (escapeChar_head c _ _)
    | cons d t =>
      simp only [flatMap_cons, append_assoc] at hbody
      obtain ⟨rfl, htail⟩ := escapeChar_append_inj hbody
      obtain ⟨rfl, rfl⟩ := ih htail
      exact ⟨rfl, rfl⟩

/-! ### The first character tells what kind of value follows -/

/-- The kinds of values that the first character of a text tells apart. -/
inductive Shape where
  | null
  | bool
  | number
  | str
  | arr
  | obj
  deriving DecidableEq

def Json.shape : Json → Shape
  | .null => .null
  | .bool _ => .bool
  | .int _ => .number
  | .float _ => .number
  | .nonFinite _ => .number
  | .str _ => .str
  | .arr _ => .arr
  | .obj _ => .obj

/-- The kind of value that starts with a character. -/
def shapeOf (c : Char) : Option Shape :=
  if c = 'n' then some .null
  else if c = 't' ∨ c = 'f' then some .bool
  else if NumberChar c then some .number
  else if c = '"' then some .str
  else if c = '[' then some .arr
  else if c = '{' then some .obj
  else none

theorem shapeOf_numberChar {c : Char} (h : NumberChar c) : shapeOf c = some .number := by
  have hn : c ≠ 'n' := by rintro rfl; revert h; decide
  have ht : c ≠ 't' := by rintro rfl; revert h; decide
  have hf : c ≠ 'f' := by rintro rfl; revert h; decide
  simp [shapeOf, hn, ht, hf, h]

theorem isDigit_of_mem_repr {n : Nat} {c : Char} (h : c ∈ n.repr.toList) : c.isDigit = true := by
  rw [Nat.toList_repr] at h
  exact Nat.isDigit_of_mem_toDigits (by decide) (by decide) h

theorem int_repr_chars {n : Int} {c : Char} (h : c ∈ n.repr.toList) :
    c.isDigit = true ∨ c = '-' := by
  cases n with
  | ofNat n => exact Or.inl (isDigit_of_mem_repr h)
  | negSucc n =>
    rw [Int.repr, String.toList_append, mem_append] at h
    rcases h with h | h
    · exact Or.inr (by simpa using h)
    · exact Or.inl (isDigit_of_mem_repr h)

theorem int_repr_ne_nil (n : Int) : n.repr.toList ≠ [] := by
  cases n with
  | ofNat n => simp [Int.repr]
  | negSucc n => simp [Int.repr]

theorem FloatText.ne_nil (x : FloatText) : x.text ≠ [] := by
  obtain ⟨c, hc, -⟩ := x.marked
  exact ne_nil_of_mem hc

theorem compact_lead (v : Json) (hv : v.finite = true) :
    ∃ c s, v.compact = c :: s ∧ shapeOf c = some v.shape := by
  cases v with
  | null => exact ⟨_, _, by rw [Json.compact], rfl⟩
  | bool b => cases b <;> exact ⟨_, _, by rw [Json.compact], rfl⟩
  | int n =>
    obtain ⟨c, s, h⟩ := exists_cons_of_ne_nil (int_repr_ne_nil n)
    refine ⟨c, s, by rw [Json.compact, h], shapeOf_numberChar ?_⟩
    have hc : c.isDigit = true ∨ c = '-' := int_repr_chars (by rw [h]; exact mem_cons_self)
    rcases hc with hd | hd
    · exact Or.inl hd
    · exact Or.inr (Or.inl hd)
  | float x =>
    obtain ⟨c, s, h⟩ := exists_cons_of_ne_nil x.ne_nil
    refine ⟨c, s, by rw [Json.compact, h], shapeOf_numberChar (x.numeric c ?_)⟩
    rw [h]
    exact mem_cons_self
  | nonFinite name => simp [Json.finite] at hv
  | str s => exact ⟨_, _, by rw [Json.compact, quote], rfl⟩
  | arr vs => exact ⟨_, _, by rw [Json.compact], rfl⟩
  | obj kvs => exact ⟨_, _, by rw [Json.compact], rfl⟩

theorem shape_eq_of_compact {v w : Json} {r r' : List Char} (hv : v.finite = true)
    (hw : w.finite = true) (h : v.compact ++ r = w.compact ++ r') : v.shape = w.shape := by
  obtain ⟨c, s, hs, hc⟩ := compact_lead v hv
  obtain ⟨d, t, ht, hd⟩ := compact_lead w hw
  rw [hs, ht] at h
  obtain ⟨rfl, -⟩ := cons.inj h
  exact Option.some.inj (hc.symm.trans hd)

theorem compact_ne_bracket {v : Json} {r r' : List Char} (hv : v.finite = true) :
    v.compact ++ r ≠ ']' :: r' := by
  obtain ⟨c, s, hs, hc⟩ := compact_lead v hv
  intro h
  rw [hs] at h
  obtain ⟨rfl, -⟩ := cons.inj h
  exact absurd hc (by simp [shapeOf, NumberChar])

/-! ### The text determines the value -/

/-- What may follow the text of a value: nothing that could continue a number. -/
def Ends (r : List Char) : Prop := ∀ c ∈ r.head?, ¬ NumberChar c

theorem ends_nil : Ends [] := nofun

theorem ends_cons {c : Char} (r : List Char) (h : ¬ NumberChar c) : Ends (c :: r) := by
  intro d hd
  obtain rfl := Option.some.inj hd
  exact h

theorem int_numeric (n : Int) : ∀ c ∈ n.repr.toList, NumberChar c := by
  intro c hc
  rcases int_repr_chars hc with h | h
  · exact Or.inl h
  · exact Or.inr (Or.inl h)

theorem FloatText.ne_int (x : FloatText) (n : Int) : x.text ≠ n.repr.toList := by
  intro h
  obtain ⟨c, hc, hmark⟩ := x.marked
  rcases int_repr_chars (h ▸ hc) with hd | rfl
  · rcases hmark with rfl | rfl <;> exact absurd hd (by decide)
  · rcases hmark with h | h <;> exact absurd h (by decide)

theorem compactItems_cons (v : Json) (vs : List Json) :
    compactItems (v :: vs) = v.compact ++ (if vs = [] then [] else ',' :: compactItems vs) := by
  cases vs <;> simp [compactItems]

theorem compactMembers_cons (k : String) (v : Json) (kvs : List (String × Json)) :
    compactMembers ((k, v) :: kvs) =
      quote k.toList ++ ':' :: (v.compact ++
        (if kvs = [] then [] else ',' :: compactMembers kvs)) := by
  cases kvs <;> simp [compactMembers]

theorem ends_more {α : Type} {more : List α → List Char} {e : Char} (xs : List α) (r : List Char)
    (he : ¬ NumberChar e) (hcomma : ¬ NumberChar ',') [Decidable (xs = [])] :
    Ends ((if xs = [] then [] else ',' :: more xs) ++ e :: r) := by
  split
  · exact ends_cons r he
  · exact ends_cons _ hcomma

theorem number_append_inj {s t : List Char} {r r' : List Char} (hs : ∀ c ∈ s, NumberChar c)
    (ht : ∀ c ∈ t, NumberChar c) (hr : Ends r) (hr' : Ends r') (h : s ++ r = t ++ r') :
    s = t ∧ r = r' :=
  run_inj hs ht hr hr' h

mutual

/-- **The text of a value determines it**, whatever follows, as long as a number cannot be
continued by it. -/
theorem compact_append_inj : ∀ (v w : Json) (r r' : List Char), v.finite = true →
    w.finite = true → Ends r → Ends r' → v.compact ++ r = w.compact ++ r' → v = w ∧ r = r'
  | .null, w, r, r', hv, hw, _, _, h => by
    have hs := shape_eq_of_compact hv hw h
    cases w with
    | null => exact ⟨rfl, by simpa [Json.compact] using h⟩
    | _ => exact Shape.noConfusion hs
  | .bool b, w, r, r', hv, hw, _, _, h => by
    have hs := shape_eq_of_compact hv hw h
    cases w with
    | bool b' => cases b <;> cases b' <;> simp_all [Json.compact]
    | _ => exact Shape.noConfusion hs
  | .int n, w, r, r', hv, hw, hr, hr', h => by
    have hs := shape_eq_of_compact hv hw h
    cases w with
    | int m =>
      obtain ⟨hnm, rfl⟩ := number_append_inj (int_numeric n) (int_numeric m) hr hr' h
      exact ⟨congrArg Json.int (Int.repr_injective (String.toList_inj.mp hnm)), rfl⟩
    | float x =>
      obtain ⟨hnx, -⟩ := number_append_inj (int_numeric n) x.numeric hr hr' h
      exact absurd hnx.symm (x.ne_int n)
    | nonFinite name => simp [Json.finite] at hw
    | _ => exact Shape.noConfusion hs
  | .float x, w, r, r', hv, hw, hr, hr', h => by
    have hs := shape_eq_of_compact hv hw h
    cases w with
    | int m =>
      obtain ⟨hxm, -⟩ := number_append_inj x.numeric (int_numeric m) hr hr' h
      exact absurd hxm (x.ne_int m)
    | float y =>
      obtain ⟨hxy, rfl⟩ := number_append_inj x.numeric y.numeric hr hr' h
      exact ⟨congrArg Json.float (FloatText.ext hxy), rfl⟩
    | nonFinite name => simp [Json.finite] at hw
    | _ => exact Shape.noConfusion hs
  | .nonFinite name, w, r, r', hv, hw, _, _, h => by simp [Json.finite] at hv
  | .str s, w, r, r', hv, hw, _, _, h => by
    have hs := shape_eq_of_compact hv hw h
    cases w with
    | str t =>
      obtain ⟨hst, rfl⟩ := quote_append_inj h
      exact ⟨congrArg Json.str (String.toList_inj.mp hst), rfl⟩
    | _ => exact Shape.noConfusion hs
  | .arr vs, w, r, r', hv, hw, _, _, h => by
    have hs := shape_eq_of_compact hv hw h
    cases w with
    | arr ws =>
      have hitems : compactItems vs ++ ']' :: r = compactItems ws ++ ']' :: r' := by
        simpa [Json.compact] using h
      obtain ⟨rfl, rfl⟩ := compactItems_append_inj vs ws r r' hv hw hitems
      exact ⟨rfl, rfl⟩
    | _ => exact Shape.noConfusion hs
  | .obj kvs, w, r, r', hv, hw, _, _, h => by
    have hs := shape_eq_of_compact hv hw h
    cases w with
    | obj kws =>
      have hmembers : compactMembers kvs ++ '}' :: r = compactMembers kws ++ '}' :: r' := by
        simpa [Json.compact] using h
      obtain ⟨rfl, rfl⟩ := compactMembers_append_inj kvs kws r r' hv hw hmembers
      exact ⟨rfl, rfl⟩
    | _ => exact Shape.noConfusion hs

theorem compactItems_append_inj : ∀ (vs ws : List Json) (r r' : List Char),
    finiteItems vs = true → finiteItems ws = true →
    compactItems vs ++ ']' :: r = compactItems ws ++ ']' :: r' → vs = ws ∧ r = r'
  | [], [], r, r', _, _, h => ⟨rfl, (cons.inj h).2⟩
  | [], w :: ws, r, r', _, hw, h => by
    rw [finiteItems, Bool.and_eq_true] at hw
    rw [compactItems_cons, append_assoc] at h
    exact absurd h.symm (compact_ne_bracket hw.1)
  | v :: vs, [], r, r', hv, _, h => by
    rw [finiteItems, Bool.and_eq_true] at hv
    rw [compactItems_cons, append_assoc] at h
    exact absurd h (compact_ne_bracket hv.1)
  | v :: vs, w :: ws, r, r', hv, hw, h => by
    rw [finiteItems, Bool.and_eq_true] at hv hw
    rw [compactItems_cons, compactItems_cons, append_assoc, append_assoc] at h
    obtain ⟨rfl, htail⟩ := compact_append_inj v w _ _ hv.1 hw.1
      (ends_more vs r (by decide) (by decide)) (ends_more ws r' (by decide) (by decide)) h
    -- after a value comes a comma and more values, or the bracket
    cases vs with
    | nil =>
      cases ws with
      | nil => exact ⟨rfl, by simpa using htail⟩
      | cons w' ws => simp at htail
    | cons v' vs =>
      cases ws with
      | nil => simp at htail
      | cons w' ws =>
        obtain ⟨hvs, hr⟩ := compactItems_append_inj (v' :: vs) (w' :: ws) r r' hv.2 hw.2
          (by simpa using htail)
        exact ⟨by rw [hvs], hr⟩

theorem compactMembers_append_inj : ∀ (kvs kws : List (String × Json)) (r r' : List Char),
    finiteMembers kvs = true → finiteMembers kws = true →
    compactMembers kvs ++ '}' :: r = compactMembers kws ++ '}' :: r' → kvs = kws ∧ r = r'
  | [], [], r, r', _, _, h => ⟨rfl, (cons.inj h).2⟩
  | [], (k, w) :: kws, r, r', _, _, h => by
    rw [compactMembers_cons, quote] at h
    simp [compactMembers] at h
  | (k, v) :: kvs, [], r, r', _, _, h => by
    rw [compactMembers_cons, quote] at h
    simp [compactMembers] at h
  | (k, v) :: kvs, (l, w) :: kws, r, r', hv, hw, h => by
    rw [finiteMembers, Bool.and_eq_true] at hv hw
    rw [compactMembers_cons, compactMembers_cons] at h
    simp only [append_assoc, cons_append] at h
    obtain ⟨hkl, hvalue⟩ := quote_append_inj h
    obtain rfl := String.toList_inj.mp hkl
    obtain ⟨rfl, htail⟩ := compact_append_inj v w _ _ hv.1 hw.1
      (ends_more kvs r (by decide) (by decide)) (ends_more kws r' (by decide) (by decide))
      (cons.inj hvalue).2
    cases kvs with
    | nil =>
      cases kws with
      | nil => exact ⟨rfl, by simpa using htail⟩
      | cons m kws => simp at htail
    | cons m kvs =>
      cases kws with
      | nil => simp at htail
      | cons m' kws =>
        obtain ⟨hkvs, hr⟩ := compactMembers_append_inj (m :: kvs) (m' :: kws) r r' hv.2 hw.2
          (by simpa using htail)
        exact ⟨by rw [hkvs], hr⟩

end

/-! ### The text is printable -/

/-- A character that is no control character. -/
def Printable (c : Char) : Prop := 0x20 ≤ c.toNat

instance : DecidablePred Printable := fun c => inferInstanceAs (Decidable (0x20 ≤ c.toNat))

theorem printable_numberChar {c : Char} (h : NumberChar c) : Printable c := by
  rcases h with h | rfl | rfl | rfl | rfl
  · have hd : 48 ≤ c.toNat ∧ c.toNat ≤ 57 := by simpa [Char.isDigit, UInt32.le_iff_toNat_le] using h
    show 0x20 ≤ c.toNat
    omega
  all_goals decide

theorem printable_escapeChar {c d : Char} (h : d ∈ escapeChar c) : Printable d := by
  have hdigit : ∀ n, n < 16 → Printable (Nat.digitChar n) := by decide
  have hescape : ∀ e, Printable e → ∀ d ∈ ['\\', e], Printable d := by
    intro e he d hd
    rcases mem_cons.mp hd with rfl | hd
    · decide
    · exact mem_singleton.mp hd ▸ he
  unfold escapeChar at h
  split_ifs at h with h₁ h₂ h₃ h₄ h₅ h₆ h₇ h₈
  · exact hescape '"' (by decide) d h
  · exact hescape '\\' (by decide) d h
  · exact hescape 'n' (by decide) d h
  · exact hescape 'r' (by decide) d h
  · exact hescape 't' (by decide) d h
  · exact hescape 'f' (by decide) d h
  · exact hescape 'b' (by decide) d h
  · simp only [List.mem_cons, List.not_mem_nil, or_false] at h
    rcases h with rfl | rfl | rfl | rfl | rfl | rfl
    · decide
    · decide
    · decide
    · decide
    · exact hdigit _ (by omega)
    · exact hdigit _ (by omega)
  · obtain rfl := List.mem_singleton.mp h
    exact Nat.not_lt.mp h₈

theorem printable_quote {s : List Char} {c : Char} (h : c ∈ quote s) : Printable c := by
  rcases mem_cons.mp h with rfl | h
  · decide
  · rcases mem_append.mp h with h | h
    · obtain ⟨d, -, hd⟩ := mem_flatMap.mp h
      exact printable_escapeChar hd
    · obtain rfl := mem_singleton.mp h
      decide

mutual

/-- **The text of a value holds no control character.** -/
theorem compact_printable : ∀ (v : Json), v.finite = true → ∀ c ∈ v.compact, Printable c
  | .null, _, c, hc => forall_iff_forall_mem.mp (by decide) c hc
  | .bool true, _, c, hc => forall_iff_forall_mem.mp (by decide) c hc
  | .bool false, _, c, hc => forall_iff_forall_mem.mp (by decide) c hc
  | .int n, _, c, hc => printable_numberChar (int_numeric n c hc)
  | .float x, _, c, hc => printable_numberChar (x.numeric c hc)
  | .nonFinite name, hv, _, _ => by simp [Json.finite] at hv
  | .str s, _, c, hc => printable_quote hc
  | .arr vs, hv, c, hc => by
    simp only [Json.compact, mem_cons, mem_append, not_mem_nil, or_false] at hc
    rcases hc with rfl | hc | rfl
    · decide
    · exact compactItems_printable vs hv c hc
    · decide
  | .obj kvs, hv, c, hc => by
    simp only [Json.compact, mem_cons, mem_append, not_mem_nil, or_false] at hc
    rcases hc with rfl | hc | rfl
    · decide
    · exact compactMembers_printable kvs hv c hc
    · decide

theorem compactItems_printable : ∀ (vs : List Json), finiteItems vs = true →
    ∀ c ∈ compactItems vs, Printable c
  | [], _, c, hc => absurd hc not_mem_nil
  | v :: vs, hv, c, hc => by
    rw [finiteItems, Bool.and_eq_true] at hv
    rw [compactItems_cons, mem_append] at hc
    rcases hc with hc | hc
    · exact compact_printable v hv.1 c hc
    · split at hc
      · exact absurd hc not_mem_nil
      · rcases mem_cons.mp hc with rfl | hc
        · decide
        · exact compactItems_printable vs hv.2 c hc

theorem compactMembers_printable : ∀ (kvs : List (String × Json)), finiteMembers kvs = true →
    ∀ c ∈ compactMembers kvs, Printable c
  | [], _, c, hc => absurd hc not_mem_nil
  | (k, v) :: kvs, hv, c, hc => by
    rw [finiteMembers, Bool.and_eq_true] at hv
    rw [compactMembers_cons, mem_append, mem_cons, mem_append] at hc
    rcases hc with hc | rfl | hc | hc
    · exact printable_quote hc
    · decide
    · exact compact_printable v hv.1 c hc
    · split at hc
      · exact absurd hc not_mem_nil
      · rcases mem_cons.mp hc with rfl | hc
        · decide
        · exact compactMembers_printable kvs hv.2 c hc

end

/-! ### Sorted keys -/

section SortByKey

variable {β γ : Type}

theorem sortByKey_perm (kvs : List (String × β)) : (sortByKey kvs).Perm kvs :=
  perm_insertionSort _ _

theorem sortByKey_map (f : String → β → γ) (kvs : List (String × β)) :
    sortByKey (kvs.map fun p => (p.1, f p.1 p.2)) = (sortByKey kvs).map fun p => (p.1, f p.1 p.2) :=
  (map_insertionSort _ _ (fun p : String × β => (p.1, f p.1 p.2)) kvs fun _ _ _ _ => Iff.rfl).symm

theorem sortByKey_sortByKey (kvs : List (String × β)) :
    sortByKey (sortByKey kvs) = sortByKey kvs := by
  have : Std.Total fun a b : String × β => a.1 ≤ b.1 := ⟨fun a b => le_total a.1 b.1⟩
  have : IsTrans (String × β) fun a b => a.1 ≤ b.1 := ⟨fun a b c h h' => le_trans h h'⟩
  exact (pairwise_insertionSort _ kvs).insertionSort_eq

/-- Lists of members in the order of their keys, each key once, are equal when their members
are. -/
theorem eq_of_sorted {kvs kws : List (String × β)}
    (hkvs : kvs.Pairwise fun a b => a.1 ≤ b.1) (hkws : kws.Pairwise fun a b => a.1 ≤ b.1)
    (hkeys : (kvs.map (·.1)).Nodup) (hperm : kvs.Perm kws) : kvs = kws := by
  refine hperm.eq_of_pairwise ?_ hkvs hkws
  intro a b ha hb hab hba
  -- two members with one key are one member
  exact inj_on_of_nodup_map hkeys ha (hperm.mem_iff.mpr hb) (le_antisymm hab hba)

theorem sortByKey_sorted (kvs : List (String × β)) :
    (sortByKey kvs).Pairwise fun a b => a.1 ≤ b.1 := by
  have : Std.Total fun a b : String × β => a.1 ≤ b.1 := ⟨fun a b => le_total a.1 b.1⟩
  have : IsTrans (String × β) fun a b => a.1 ≤ b.1 := ⟨fun a b c h h' => le_trans h h'⟩
  exact pairwise_insertionSort _ kvs

theorem sortByKey_keys_nodup {kvs : List (String × β)}
    (hkeys : (kvs.map (·.1)).Nodup) : ((sortByKey kvs).map (·.1)).Nodup :=
  ((sortByKey_perm kvs).map (·.1)).nodup_iff.mpr hkeys

theorem sortByKey_of_perm {kvs kws : List (String × β)} (hperm : kvs.Perm kws)
    (hkeys : (kvs.map (·.1)).Nodup) : sortByKey kvs = sortByKey kws :=
  eq_of_sorted (sortByKey_sorted kvs) (sortByKey_sorted kws) (sortByKey_keys_nodup hkeys)
    (((sortByKey_perm kvs).trans hperm).trans (sortByKey_perm kws).symm)

end SortByKey

theorem sortKeysMembers_eq_map (kvs : List (String × Json)) :
    sortKeysMembers kvs = kvs.map fun p => (p.1, p.2.sortKeys) := by
  induction kvs with
  | nil => rfl
  | cons p kvs ih => rw [sortKeysMembers, ih]; rfl

theorem finiteMembers_eq_all (kvs : List (String × Json)) :
    finiteMembers kvs = kvs.all fun p => p.2.finite := by
  induction kvs with
  | nil => rfl
  | cons p kvs ih => rw [finiteMembers, ih]; rfl

theorem finiteMembers_sortByKey (kvs : List (String × Json)) :
    finiteMembers (sortByKey kvs) = finiteMembers kvs := by
  rw [finiteMembers_eq_all, finiteMembers_eq_all]
  exact (sortByKey_perm kvs).all_eq

mutual

theorem finite_sortKeys : ∀ v : Json, v.sortKeys.finite = v.finite
  | .null => rfl
  | .bool _ => rfl
  | .int _ => rfl
  | .float _ => rfl
  | .nonFinite _ => rfl
  | .str _ => rfl
  | .arr vs => finiteItems_sortKeys vs
  | .obj kvs => (finiteMembers_sortByKey _).trans (finiteMembers_sortKeys kvs)

theorem finiteItems_sortKeys : ∀ vs : List Json, finiteItems (sortKeysItems vs) = finiteItems vs
  | [] => rfl
  | v :: vs => by
    rw [sortKeysItems, finiteItems, finiteItems, finite_sortKeys v, finiteItems_sortKeys vs]

theorem finiteMembers_sortKeys : ∀ kvs : List (String × Json),
    finiteMembers (sortKeysMembers kvs) = finiteMembers kvs
  | [] => rfl
  | (k, v) :: kvs => by
    rw [sortKeysMembers, finiteMembers, finiteMembers, finite_sortKeys v,
      finiteMembers_sortKeys kvs]

end

/-! ### What is written is determined and printable -/

theorem dumps_eq_some {v : Json} {s : List Char} (h : v.dumps = some s) :
    v.finite = true ∧ v.sortKeys.compact = s := by
  unfold Json.dumps at h
  split at h
  · exact ⟨‹_›, Option.some.inj h⟩
  · exact absurd h (by simp)

/-- **Equal texts are texts of equal values**, up to the order of the members. -/
theorem dumps_inj {v w : Json} {s : List Char} (hv : v.dumps = some s) (hw : w.dumps = some s) :
    v.sortKeys = w.sortKeys := by
  obtain ⟨hfv, rfl⟩ := dumps_eq_some hv
  obtain ⟨hfw, hs⟩ := dumps_eq_some hw
  refine (compact_append_inj _ _ [] [] ?_ ?_ ends_nil ends_nil ?_).1
  · rw [finite_sortKeys, hfv]
  · rw [finite_sortKeys, hfw]
  · rw [hs]

theorem dumps_printable {v : Json} {s : List Char} (h : v.dumps = some s) :
    ∀ c ∈ s, Printable c := by
  obtain ⟨hv, rfl⟩ := dumps_eq_some h
  exact compact_printable _ (by rw [finite_sortKeys, hv])

end Xtrax
