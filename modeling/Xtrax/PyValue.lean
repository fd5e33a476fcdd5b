import Xtrax.Dict
import Xtrax.ZarrRecord

/-! # Values with any keys, normalized and written as JSON

A mapping of Python may have any hashable keys.  Normalizing it for a digest makes every key a
string with `str`; `json.dumps` has texts of its own for some keys (it writes `True` as `true`), and
it takes no key that is neither a string nor a number.

`norm` is what a value is normalized to, and `reread` what `json.loads` gives back of its text.
Normalizing what was read back gives the same as normalizing the value if no mapping in it has a key
that is written otherwise than `str` has it, and only then if all its keys are of types that Python
has built in (`same_of_fit`).
-/
namespace Xtrax.PyValue

open Dict List

open ZarrDigest (normalizeJsonValue normalizeItems normalizeMembers)

instance : DecidableEq FloatText := fun x y =>
  decidable_of_iff (x.text = y.text) ⟨FloatText.ext, congrArg FloatText.text⟩

/-- The floats that are no numbers of JSON. -/
inductive NonFinite
  | nan | inf | negInf
  deriving DecidableEq

namespace NonFinite

def str : NonFinite → String
  | nan => "nan"
  | inf => "inf"
  | negInf => "-inf"

/-- The name `json.dumps` writes. -/
def json : NonFinite → String
  | nan => "NaN"
  | inf => "Infinity"
  | negInf => "-Infinity"

end NonFinite

/-- A hashable value.  An instance of a subclass of `str`, `int` or `float` may have a `__str__`
of its own.  Such keys, and other values than strings, numbers and `None`, are sorted by their
rank. -/
inductive Key
  | string (s : String)
  | bool (b : Bool)
  | int (n : Int)
  | float (x : FloatText)
  | nonFinite (x : NonFinite)
  | none
  | sub (number : Bool) (text shown : String) (rank : Int)
  | other (cls : Nat) (rank : Int) (shown : String)
  deriving DecidableEq

namespace Key

/-- `str(k)`. -/
def str : Key → String
  | string s => s
  | bool true => "True"
  | bool false => "False"
  | int n => n.repr
  | float x => String.ofList x.text
  | nonFinite x => x.str
  | none => "None"
  | sub _ _ shown _ => shown
  | other _ _ shown => shown

/-- The name that `json.dumps` writes for a key it takes. -/
def written : Key → String
  | string s => s
  | bool true => "true"
  | bool false => "false"
  | int n => n.repr
  | float x => String.ofList x.text
  | nonFinite x => x.json
  | none => "null"
  | sub _ text _ _ => text
  | other _ _ _ => ""

/-- `json.dumps` takes the key. -/
def jsonable (allowNan : Bool) : Key → Bool
  | nonFinite _ => allowNan
  | other _ _ _ => false
  | _ => true

/-- The values a key can be compared with. -/
def kind : Key → Option Nat
  | string _ => some 0
  | bool _ | int _ | float _ | nonFinite _ => some 1
  | none => Option.none
  | sub number _ _ _ => some (if number then 1 else 0)
  | other cls _ _ => some (2 + cls)

def rank : Key → Int
  | sub _ _ _ rank | other _ rank _ => rank
  | _ => 0

/-- A value of a type that Python has built in. -/
def builtin : Key → Bool
  | sub _ _ _ _ => false
  | _ => true

/-- JSON writes the key as `str` does: it is neither a truth value nor `None` nor a float that is no
number, and has no text of its own. -/
def named : Key → Bool
  | bool _ | nonFinite _ | none => false
  | sub _ text shown _ => shown == text
  | _ => true

end Key

/-- `sorted` returns for mappings with these keys. -/
def sortable (keys : List Key) : Bool :=
  keys.length ≤ 1 || keys.all fun k => k.kind.isSome && keys.all fun k' => k'.kind = k.kind

/-- A value.  `bytes` are given by what they decode to as UTF-8, if they do; `seq` is a list or a
tuple, and `other` whatever JSON does not hold. -/
inductive Value
  | null
  | bool (b : Bool)
  | int (n : Int)
  | float (x : FloatText)
  | nonFinite (x : NonFinite)
  | str (s : String)
  | bytes (decoded : Option String)
  | seq (vs : List Value)
  | dict (entries : List (Key × Value))
  | other

/-! ## Checks at every depth -/

section Everywhere

variable (p : Value → Bool)

mutual

/-- A check passes on a value and on all values in it. -/
def Value.everywhere : Value → Bool
  | .seq vs => p (.seq vs) && everywhereItems vs
  | .dict entries => p (.dict entries) && everywhereEntries entries
  | v => p v

def everywhereItems : List Value → Bool
  | [] => true
  | v :: vs => v.everywhere && everywhereItems vs

def everywhereEntries : List (Key × Value) → Bool
  | [] => true
  | (_, v) :: entries => v.everywhere && everywhereEntries entries

end

end Everywhere

/-- A value that is normalized: bytes can be decoded, and there is nothing that JSON does not
hold. -/
def normalizable : Value → Bool
  | .bytes Option.none | .other => false
  | _ => true

/-- A value that `json.dumps` takes. -/
def jsonable (allowNan : Bool) : Value → Bool
  | .bytes _ | .other => false
  | .nonFinite _ => allowNan
  | .dict entries => entries.all fun e => e.1.jsonable allowNan
  | _ => true

/-- The entries of a mapping can be sorted. -/
def orderly : Value → Bool
  | .dict entries => sortable (entries.map (·.1))
  | _ => true

/-- The keys of a mapping are of built-in types, and distinct but for NaN, which does not equal
itself. -/
def builtinKeyed : Value → Bool
  | .dict entries => (entries.all fun e => e.1.builtin) &&
    decide ((entries.map (·.1)).Pairwise fun a b => a ≠ b ∨ a = .nonFinite .nan)
  | _ => true

/-- No mapping has a key that JSON writes otherwise than `str` does, or two of one text. -/
def wellKeyed : Value → Bool
  | .dict entries => (entries.all fun e => e.1.named) && decide (entries.map fun e => e.1.str).Nodup
  | _ => true

/-! ## Normalizing and writing -/

/-- Entries in the order `sorted` gives them, as far as two of them can have one text. -/
def sortItems (items : List (Key × Json)) : List (Key × Json) :=
  items.insertionSort fun a b => a.1.rank ≤ b.1.rank

/-- The order in which the items of a mapping are gone through. -/
abbrev Arrange := List (Key × Json) → List (Key × Json)

section Norm

-- the normal form NFC
variable (nfc : String → String) (arrange : Arrange)

mutual

def Value.norm : Value → Json
  | .null => .null
  | .bool b => .bool b
  | .int n => .int n
  | .float x => .float x
  | .nonFinite x => .nonFinite x.json
  | .str s => .str (nfc s)
  | .bytes decoded => .str (decoded.getD "")
  | .seq vs => .arr (normItems vs)
  | .dict entries =>
    .obj ((∅ : Dict String Json).update
      ((arrange (normEntries entries)).map fun e => (e.1.str, e.2))).entries
  | .other => .null

def normItems : List Value → List Json
  | [] => []
  | v :: vs => v.norm :: normItems vs

def normEntries : List (Key × Value) → List (Key × Json)
  | [] => []
  | (k, v) :: entries => (k, v.norm) :: normEntries entries

end

/-- `_normalize`, in the packing module.  Nothing where it raises. -/
def normalize (v : Value) : Option Json :=
  if v.everywhere normalizable then some (v.norm nfc id) else none

/-- `normalize_json_value`, and the refusal of what JSON does not hold by the `json.dumps` that
comes after it.  Nothing where one of the two raises. -/
def normalizeValue (v : Value) : Option Json :=
  if v.everywhere normalizable && v.everywhere orderly then some (v.norm nfc sortItems) else none

end Norm

section Reread

variable (written : Arrange)

mutual

/-- What `json.loads` gives back of the text that `json.dumps` writes for a value it takes. -/
def Value.reread : Value → Json
  | .null => .null
  | .bool b => .bool b
  | .int n => .int n
  | .float x => .float x
  | .nonFinite x => .nonFinite x.json
  | .str s => .str s
  | .seq vs => .arr (rereadItems vs)
  | .dict entries =>
    .obj ((∅ : Dict String Json).update
      ((written (rereadEntries entries)).map fun e => (e.1.written, e.2))).entries
  | .bytes _ | .other => .null

def rereadItems : List Value → List Json
  | [] => []
  | v :: vs => v.reread :: rereadItems vs

def rereadEntries : List (Key × Value) → List (Key × Json)
  | [] => []
  | (k, v) :: entries => (k, v.reread) :: rereadEntries entries

end

end Reread

/-! ## Keys -/

section Keys

variable {k k' : Key} {keys : List Key} {allowNan : Bool}

theorem str_eq_written (h : k.named = true) (hj : k.jsonable allowNan = true) :
    k.str = k.written := by
  cases k with
  | string | int | float => rfl
  | sub number text shown rank => exact eq_of_beq h
  | bool | nonFinite | none => cases h
  | other => cases hj

theorem kind_eq (h : sortable keys = true) (hk : k ∈ keys) (hk' : k' ∈ keys) :
    k = k' ∨ k.kind.isSome ∧ k'.kind = k.kind := by
  rw [sortable, Bool.or_eq_true, decide_eq_true_eq] at h
  rcases h with h | h
  · match keys, h with
    | [], _ => cases hk
    | [a], _ =>
      rw [mem_singleton.mp hk, mem_singleton.mp hk']
      exact .inl rfl
  · right
    have hall := all_eq_true.mp h k hk
    rw [Bool.and_eq_true] at hall
    exact ⟨hall.1, by simpa using all_eq_true.mp hall.2 k' hk'⟩

theorem ne_word {number : List Char} {word : String} (hnumber : ∀ c ∈ number, NumberChar c) {c : Char}
    (hc : c ∈ word.toList) (hno : ¬ NumberChar c) : String.ofList number ≠ word := by
  rintro rfl
  rw [String.toList_ofList] at hc
  exact hno (hnumber c hc)

theorem number_text (n : Int) : n.repr = String.ofList n.repr.toList := String.ofList_toList.symm

/-- A key of a built-in type that `str` and JSON write differently has no text that JSON writes for a
key beside it. -/
theorem str_ne_written (h : sortable keys = true) (hk : k ∈ keys) (hk' : k' ∈ keys)
    (hbuiltin : k.builtin = true) (hbuiltin' : k'.builtin = true) (hno : k.named = false) :
    k.str ≠ k'.written := by
  rcases kind_eq h hk hk' with rfl | ⟨hsome, hkind⟩
  · cases k with
    | bool b => cases b <;> decide
    | nonFinite x => cases x <;> decide
    | none => decide
    | string | int | float | other => cases hno
    | sub => cases hbuiltin
  · -- all other keys are numbers
    have hword : ∃ c ∈ k.str.toList, ¬ NumberChar c := by
      cases k with
      | bool b =>
        cases b with
        | true => exact ⟨'T', by decide, by decide⟩
        | false => exact ⟨'F', by decide, by decide⟩
      | nonFinite x => cases x <;> exact ⟨'n', by decide, by decide⟩
      | none => cases hsome
      | string | int | float | other => cases hno
      | sub => cases hbuiltin
    obtain ⟨c, hc, hnumber⟩ := hword
    cases k' with
    | int n =>
      intro heq
      refine ne_word (int_numeric n) hc hnumber ?_
      rw [← number_text, heq]
      rfl
    | float x => exact fun heq => ne_word x.numeric hc hnumber heq.symm
    | bool b =>
      cases k with
      | bool b' => cases b <;> cases b' <;> decide
      | nonFinite x => cases b <;> cases x <;> decide
      | none => cases hsome
      | string | int | float | other => cases hno
      | sub => cases hbuiltin
    | nonFinite x =>
      cases k with
      | bool b => cases b <;> cases x <;> decide
      | nonFinite x' => cases x <;> cases x' <;> decide
      | none => cases hsome
      | string | int | float | other => cases hno
      | sub => cases hbuiltin
    | string | none =>
      cases k with
      | bool | nonFinite => cases hkind
      | none => cases hsome
      | string | int | float | other => cases hno
      | sub => cases hbuiltin
    | other cls rank shown =>
      cases k with
      | bool | nonFinite =>
        have hcls : 2 + cls = 1 := Option.some.inj hkind
        omega
      | none => cases hsome
      | string | int | float | other => cases hno
      | sub => cases hbuiltin
    | sub => cases hbuiltin'

/-- Two keys of built-in types that can be compared and are written as `str` has them have two
texts. -/
theorem str_inj (h : sortable keys = true) (hk : k ∈ keys) (hk' : k' ∈ keys)
    (hbuiltin : k.builtin = true) (hbuiltin' : k'.builtin = true) (hno : k.named = true)
    (hno' : k'.named = true) (hj : k.jsonable allowNan = true) (hj' : k'.jsonable allowNan = true)
    (heq : k.str = k'.str) : k = k' := by
  rcases kind_eq h hk hk' with rfl | ⟨-, hkind⟩
  · rfl
  · cases k with
    | string s =>
      cases k' with
      | string s' => exact congrArg Key.string heq
      | int | float => cases hkind
      | other => cases hj'
      | bool | nonFinite | none => cases hno'
      | sub => cases hbuiltin'
    | int n =>
      cases k' with
      | int m => exact congrArg Key.int (Int.repr_injective heq)
      | float x =>
        refine absurd ?_ (x.ne_int n)
        have htext : n.repr = String.ofList x.text := heq
        rw [htext, String.toList_ofList]
      | string => cases hkind
      | other => cases hj'
      | bool | nonFinite | none => cases hno'
      | sub => cases hbuiltin'
    | float x =>
      cases k' with
      | int m =>
        refine absurd ?_ (x.ne_int m)
        have htext : String.ofList x.text = m.repr := heq
        rw [← htext, String.toList_ofList]
      | float y => exact congrArg Key.float (FloatText.ext (String.ofList_injective heq))
      | string => cases hkind
      | other => cases hj'
      | bool | nonFinite | none => cases hno'
      | sub => cases hbuiltin'
    | bool | nonFinite | none => cases hno
    | other => cases hj
    | sub => cases hbuiltin

end Keys

/-! ## Mappings -/

section Mappings

variable {p : Value → Bool}

theorem everywhereItems_iff {vs : List Value} :
    everywhereItems p vs = true ↔ ∀ v ∈ vs, v.everywhere p = true := by
  induction vs with
  | nil => simp [everywhereItems]
  | cons v vs ih => rw [everywhereItems, Bool.and_eq_true, ih, forall_mem_cons]

theorem everywhereEntries_iff {entries : List (Key × Value)} :
    everywhereEntries p entries = true ↔ ∀ e ∈ entries, e.2.everywhere p = true := by
  induction entries with
  | nil => simp [everywhereEntries]
  | cons e entries ih => rw [everywhereEntries, Bool.and_eq_true, ih, forall_mem_cons]

theorem everywhere_seq {vs : List Value} : (Value.seq vs).everywhere p = true ↔
    p (.seq vs) = true ∧ ∀ v ∈ vs, v.everywhere p = true := by
  rw [Value.everywhere, Bool.and_eq_true, everywhereItems_iff]

theorem everywhere_dict {entries : List (Key × Value)} : (Value.dict entries).everywhere p = true ↔
    p (.dict entries) = true ∧ ∀ e ∈ entries, e.2.everywhere p = true := by
  rw [Value.everywhere, Bool.and_eq_true, everywhereEntries_iff]

variable (nfc : String → String) (arrange : Arrange)

theorem normEntries_eq_map (entries : List (Key × Value)) :
    normEntries nfc arrange entries = entries.map fun e => (e.1, e.2.norm nfc arrange) := by
  induction entries with
  | nil => rfl
  | cons e entries ih => rw [normEntries, ih]; rfl

theorem rereadItems_eq_map (vs : List Value) :
    rereadItems arrange vs = vs.map (Value.reread arrange) := by
  induction vs with
  | nil => rfl
  | cons v vs ih => rw [rereadItems, ih]; rfl

theorem rereadEntries_eq_map (entries : List (Key × Value)) :
    rereadEntries arrange entries = entries.map fun e => (e.1, e.2.reread arrange) := by
  induction entries with
  | nil => rfl
  | cons e entries ih => rw [rereadEntries, ih]; rfl

/-- Members with the same keys, each key once, are the same when sorted only if they are the same
one by one. -/
theorem sortByKey_map_inj {α β : Type} {l : List α} {key : α → String} {x y : α → β}
    (hkeys : (l.map key).Nodup) :
    sortByKey (l.map fun a => (key a, x a)) = sortByKey (l.map fun a => (key a, y a)) ↔
      ∀ a ∈ l, x a = y a := by
  constructor
  · intro h a ha
    have hmem : (key a, x a) ∈ sortByKey (l.map fun a => (key a, y a)) := by
      rw [← h, (sortByKey_perm _).mem_iff]
      exact mem_map_of_mem ha
    obtain ⟨b, hb, heq⟩ := mem_map.mp ((sortByKey_perm _).mem_iff.mp hmem)
    obtain ⟨hkey, hvalue⟩ := Prod.mk.inj heq
    obtain rfl := inj_on_of_nodup_map hkeys hb ha hkey
    exact hvalue.symm
  · intro h
    rw [map_congr_left fun a ha => by rw [h a ha]]

theorem mem_keys_update {l : List (String × Json)} {e : String × Json} (he : e ∈ l) :
    e.1 ∈ ((∅ : Dict String Json).update l).entries.map (·.1) := by
  rw [mem_keys_iff, get?_update, get?_empty, Option.or_none]
  intro hnone
  rw [Option.map_eq_none_iff, getLast?_eq_none_iff] at hnone
  have hmem : e ∈ l.filter fun e' => e'.1 = e.1 := mem_filter.mpr ⟨he, by simp⟩
  rw [hnone] at hmem
  cases hmem

theorem exists_of_mem_update {l : List (String × Json)} {k : String}
    (hk : k ∈ ((∅ : Dict String Json).update l).entries.map (·.1)) : ∃ e ∈ l, e.1 = k := by
  obtain ⟨e, he, rfl⟩ := mem_map.mp hk
  rcases mem_update he with hnew | hold
  · exact ⟨e, hnew, rfl⟩
  · cases hold

end Mappings

/-! ## Normalizing what was read back -/

section Reread

variable {allowNan : Bool}

/-- A value of Python whose mappings can be sorted and that `json.dumps` takes. -/
structure Fit (allowNan : Bool) (v : Value) : Prop where
  orderly : v.everywhere orderly = true
  jsonable : v.everywhere (jsonable allowNan) = true

theorem Fit.seq {vs : List Value} (h : Fit allowNan (.seq vs)) : ∀ v ∈ vs, Fit allowNan v :=
  fun v hv => ⟨(everywhere_seq.mp h.orderly).2 v hv, (everywhere_seq.mp h.jsonable).2 v hv⟩

theorem Fit.dict {entries : List (Key × Value)} (h : Fit allowNan (.dict entries)) :
    ∀ e ∈ entries, Fit allowNan e.2 :=
  fun e he => ⟨(everywhere_dict.mp h.orderly).2 e he, (everywhere_dict.mp h.jsonable).2 e he⟩

theorem Fit.key_jsonable {entries : List (Key × Value)} (h : Fit allowNan (.dict entries)) :
    ∀ e ∈ entries, e.1.jsonable allowNan = true := by
  have hnode := (everywhere_dict.mp h.jsonable).1
  exact all_eq_true.mp hnode

theorem Fit.sortable {entries : List (Key × Value)} (h : Fit allowNan (.dict entries)) :
    sortable (entries.map (·.1)) = true := (everywhere_dict.mp h.orderly).1

theorem Fit.nodup_str {entries : List (Key × Value)} (h : Fit allowNan (.dict entries))
    (hbuiltin : builtinKeyed (.dict entries) = true) (hnamed : ∀ e ∈ entries, e.1.named = true) :
    (entries.map fun e => e.1.str).Nodup := by
  obtain ⟨hbuiltin, hnode⟩ := Bool.and_eq_true_iff.mp hbuiltin
  have hnode := of_decide_eq_true hnode
  have hkeys : ∀ k ∈ entries.map (·.1),
      k.builtin = true ∧ k.named = true ∧ k.jsonable allowNan = true := by
    intro k hk
    obtain ⟨e, he, rfl⟩ := mem_map.mp hk
    exact ⟨all_eq_true.mp hbuiltin e he, hnamed e he, h.key_jsonable e he⟩
  have hnodup : (entries.map (·.1)).Nodup := by
    refine hnode.imp_of_mem fun {a b} ha _ hab => ?_
    rcases hab with hne | rfl
    · exact hne
    · exact absurd (hkeys _ ha).2.1 (by decide)
  have hstr : ((entries.map (·.1)).map Key.str).Nodup := by
    refine hnodup.map_on fun a ha b hb heq => ?_
    obtain ⟨hbuiltin, hnamed, hjson⟩ := hkeys a ha
    obtain ⟨hbuiltin', hnamed', hjson'⟩ := hkeys b hb
    exact str_inj h.sortable ha hb hbuiltin hbuiltin' hnamed hnamed' hjson hjson' heq
  rwa [map_map] at hstr

/-- Going through items in another order. -/
def Rearranges (arrange : Arrange) : Prop := ∀ items, (arrange items).Perm items

theorem rearranges_id : Rearranges id := fun _ => .refl _

theorem rearranges_sortItems : Rearranges sortItems := fun _ => perm_insertionSort _ _

theorem entries_of_nodup {l : List (String × Json)} (h : (l.map (·.1)).Nodup) :
    ((∅ : Dict String Json).update l).entries = l := by
  rw [entries_update (by simpa using h), entries_empty, nil_append]

/-- The members that items give under some names, sorted, when the names are distinct. -/
theorem sorted_members {arrange : Arrange} (harrange : Rearranges arrange) (name : Key → String)
    (f : Json → Json) {entries : List (Key × Value)} (g : Value → Json)
    (hnodup : (entries.map fun e => name e.1).Nodup) :
    sortByKey ((((∅ : Dict String Json).update ((arrange (entries.map fun e => (e.1, g e.2))).map
        fun e => (name e.1, e.2))).entries).map fun m => (m.1, f m.2)) =
      sortByKey (entries.map fun e => (name e.1, f (g e.2))) := by
  have hperm := (harrange (entries.map fun e => (e.1, g e.2))).map fun e => (name e.1, e.2)
  rw [map_map] at hperm
  have hnames : (((arrange (entries.map fun e => (e.1, g e.2))).map fun e =>
      (name e.1, e.2)).map (·.1)).Nodup := by
    refine (hperm.map (·.1)).nodup_iff.mpr ?_
    rw [map_map]
    exact hnodup
  rw [entries_of_nodup hnames]
  refine sortByKey_of_perm ((hperm.map _).trans ?_) ?_
  · rw [map_map]
    exact .refl _
  · rw [map_map]
    exact hnames

theorem mem_sorted_members {arrange : Arrange} (harrange : Rearranges arrange) (name : Key → String)
    (f : Json → Json) (entries : List (Key × Value)) (g : Value → Json) {k : String} :
    k ∈ (sortByKey ((((∅ : Dict String Json).update
        ((arrange (entries.map fun e => (e.1, g e.2))).map fun e => (name e.1, e.2))).entries).map
          fun m => (m.1, f m.2))).map (·.1) ↔ ∃ e ∈ entries, name e.1 = k := by
  have hperm := (harrange (entries.map fun e => (e.1, g e.2))).map fun e => (name e.1, e.2)
  rw [map_map] at hperm
  rw [((sortByKey_perm _).map _).mem_iff, map_map]
  constructor
  · intro hk
    obtain ⟨m, hm, rfl⟩ := exists_of_mem_update hk
    obtain ⟨e, he, rfl⟩ := mem_map.mp (hperm.mem_iff.mp hm)
    exact ⟨e, he, rfl⟩
  · rintro ⟨e, he, rfl⟩
    exact mem_keys_update (hperm.mem_iff.mpr (mem_map_of_mem he))

variable (nfc : String → String) (arrange written : Arrange)

/-- A value is normalized to the same before and after it was written. -/
def Same (v : Value) : Prop :=
  (v.norm nfc arrange).sortKeys = normalizeJsonValue nfc (v.reread written)

variable {nfc arrange written}

theorem same_dict {entries : List (Key × Value)} : Same nfc arrange written (.dict entries) ↔
    sortByKey ((((∅ : Dict String Json).update
      ((arrange (entries.map fun e => (e.1, e.2.norm nfc arrange))).map
        fun e => (e.1.str, e.2))).entries).map fun m => (m.1, m.2.sortKeys)) =
    sortByKey ((((∅ : Dict String Json).update
      ((written (entries.map fun e => (e.1, e.2.reread written))).map
        fun e => (e.1.written, e.2))).entries).map fun m => (m.1, normalizeJsonValue nfc m.2)) := by
  rw [Same, Value.norm, Value.reread, Json.sortKeys, normalizeJsonValue, Json.obj.injEq,
    sortKeysMembers_eq_map, ZarrDigest.normalizeMembers_eq_map, normEntries_eq_map,
    rereadEntries_eq_map]

/-- A mapping whose keys are written as `str` has them is the same after it was written if its values
are. -/
theorem same_dict_iff (harrange : Rearranges arrange) (hwritten : Rearranges written)
    {entries : List (Key × Value)} (h : Fit allowNan (.dict entries))
    (hnode : wellKeyed (.dict entries) = true) :
    Same nfc arrange written (.dict entries) ↔ ∀ e ∈ entries, Same nfc arrange written e.2 := by
  obtain ⟨hnamed, hnodup⟩ := Bool.and_eq_true_iff.mp hnode
  have hnodup := of_decide_eq_true hnodup
  have hname : ∀ e ∈ entries, e.1.written = e.1.str := fun e he =>
    (str_eq_written (all_eq_true.mp hnamed e he) (h.key_jsonable e he)).symm
  have hsame : entries.map (fun e => e.1.written) = entries.map fun e => e.1.str :=
    map_congr_left hname
  rw [same_dict, sorted_members harrange Key.str Json.sortKeys (Value.norm nfc arrange) hnodup,
    sorted_members hwritten Key.written (normalizeJsonValue nfc) (Value.reread written)
      (by rw [hsame]; exact hnodup)]
  have hmembers : entries.map (fun e => (e.1.written, normalizeJsonValue nfc (e.2.reread written))) =
      entries.map fun e => (e.1.str, normalizeJsonValue nfc (e.2.reread written)) :=
    map_congr_left fun e he => by rw [hname e he]
  rw [hmembers]
  exact sortByKey_map_inj hnodup

/-- A mapping that is the same after it was written has no odd key, if its keys are of built-in
types. -/
theorem wellKeyed_of_same (harrange : Rearranges arrange) (hwritten : Rearranges written)
    {entries : List (Key × Value)} (h : Fit allowNan (.dict entries))
    (hbuiltin : builtinKeyed (.dict entries) = true)
    (hsame : Same nfc arrange written (.dict entries)) : wellKeyed (.dict entries) = true := by
  have hall := all_eq_true.mp (Bool.and_eq_true_iff.mp hbuiltin).1
  have hnamed : ∀ e ∈ entries, e.1.named = true := by
    intro e he
    by_contra hno
    -- the name that `str` gives an odd key is none that is written
    have hmem := (mem_sorted_members harrange Key.str Json.sortKeys entries
      (Value.norm nfc arrange)).mpr ⟨e, he, rfl⟩
    rw [same_dict.mp hsame] at hmem
    obtain ⟨e', he', hname⟩ := (mem_sorted_members hwritten Key.written (normalizeJsonValue nfc)
      entries (Value.reread written)).mp hmem
    exact str_ne_written h.sortable (mem_map_of_mem he) (mem_map_of_mem he')
      (hall e he) (hall e' he') (by simpa using hno) hname.symm
  exact Bool.and_eq_true_iff.mpr
    ⟨all_eq_true.mpr hnamed, decide_eq_true (h.nodup_str hbuiltin hnamed)⟩

theorem same_seq_iff {vs : List Value} :
    Same nfc arrange written (.seq vs) ↔ ∀ v ∈ vs, Same nfc arrange written v := by
  rw [Same, Value.norm, Value.reread, Json.sortKeys, normalizeJsonValue, Json.arr.injEq]
  induction vs with
  | nil => exact ⟨fun _ => nofun, fun _ => rfl⟩
  | cons v vs ih =>
    rw [normItems, sortKeysItems, rereadItems, normalizeItems, cons.injEq, ih, forall_mem_cons]
    rfl

mutual

/-- **Normalizing what was read back** gives what the value is normalized to if no mapping in it
has a key that JSON writes otherwise than `str` does; and only then, if all keys are of built-in
types. -/
theorem same_of_fit (harrange : Rearranges arrange) (hwritten : Rearranges written) :
    ∀ v : Value, Fit allowNan v →
    (v.everywhere wellKeyed = true → Same nfc arrange written v) ∧
      (v.everywhere builtinKeyed = true → Same nfc arrange written v →
        v.everywhere wellKeyed = true)
  | .null, _ | .bool _, _ | .int _, _ | .float _, _ | .nonFinite _, _ | .str _, _ =>
    ⟨fun _ => rfl, fun _ _ => rfl⟩
  | .bytes _, h => absurd h.jsonable Bool.false_ne_true
  | .other, h => absurd h.jsonable Bool.false_ne_true
  | .seq vs, h => by
    have hall := same_items harrange hwritten vs h.seq
    rw [same_seq_iff]
    constructor
    · intro hkeyed v hv
      exact (hall v hv).1 ((everywhere_seq.mp hkeyed).2 v hv)
    · intro hbuiltin hsame
      refine everywhere_seq.mpr ⟨rfl, fun v hv => ?_⟩
      exact (hall v hv).2 ((everywhere_seq.mp hbuiltin).2 v hv) (hsame v hv)
  | .dict entries, h => by
    have hall := same_entries harrange hwritten entries h.dict
    constructor
    · intro hkeyed
      obtain ⟨hnode, hkeyed⟩ := everywhere_dict.mp hkeyed
      exact (same_dict_iff harrange hwritten h hnode).mpr fun e he => (hall e he).1 (hkeyed e he)
    · intro hbuiltin hsame
      obtain ⟨hbuiltin, hbelow⟩ := everywhere_dict.mp hbuiltin
      have hnode := wellKeyed_of_same harrange hwritten h hbuiltin hsame
      have hsame := (same_dict_iff harrange hwritten h hnode).mp hsame
      exact everywhere_dict.mpr ⟨hnode, fun e he => (hall e he).2 (hbelow e he) (hsame e he)⟩

theorem same_items (harrange : Rearranges arrange) (hwritten : Rearranges written) :
    ∀ vs : List Value, (∀ v ∈ vs, Fit allowNan v) → ∀ v ∈ vs,
    (v.everywhere wellKeyed = true → Same nfc arrange written v) ∧
      (v.everywhere builtinKeyed = true → Same nfc arrange written v →
        v.everywhere wellKeyed = true)
  | [], _ => nofun
  | v :: vs, h => by
    obtain ⟨hv, hvs⟩ := forall_mem_cons.mp h
    exact forall_mem_cons.mpr
      ⟨same_of_fit harrange hwritten v hv, same_items harrange hwritten vs hvs⟩

theorem same_entries (harrange : Rearranges arrange) (hwritten : Rearranges written) :
    ∀ entries : List (Key × Value), (∀ e ∈ entries, Fit allowNan e.2) → ∀ e ∈ entries,
    (e.2.everywhere wellKeyed = true → Same nfc arrange written e.2) ∧
      (e.2.everywhere builtinKeyed = true → Same nfc arrange written e.2 →
        e.2.everywhere wellKeyed = true)
  | [], _ => nofun
  | (_, v) :: entries, h => by
    obtain ⟨hv, hentries⟩ := forall_mem_cons.mp h
    exact forall_mem_cons.mpr
      ⟨same_of_fit harrange hwritten v hv, same_entries harrange hwritten entries hentries⟩

end

end Reread

/-! ## What is read back is a value -/

variable {written : Arrange}

mutual

def ofJson : Json → Value
  | .null => .null
  | .bool b => .bool b
  | .int n => .int n
  | .float x => .float x
  | .nonFinite name =>
    .nonFinite (if name = "Infinity" then .inf else if name = "-Infinity" then .negInf else .nan)
  | .str s => .str s
  | .arr vs => .seq (ofItems vs)
  | .obj kvs => .dict (ofMembers kvs)

def ofItems : List Json → List Value
  | [] => []
  | v :: vs => ofJson v :: ofItems vs

def ofMembers : List (String × Json) → List (Key × Value)
  | [] => []
  | (k, v) :: kvs => (.string k, ofJson v) :: ofMembers kvs

end

theorem ofItems_eq_map (vs : List Json) : ofItems vs = vs.map ofJson := by
  induction vs with
  | nil => rfl
  | cons v vs ih => rw [ofItems, ih]; rfl

theorem ofMembers_eq_map (kvs : List (String × Json)) :
    ofMembers kvs = kvs.map fun e => (.string e.1, ofJson e.2) := by
  induction kvs with
  | nil => rfl
  | cons e kvs ih => rw [ofMembers, ih]; rfl

theorem wellKeyed_ofMembers {kvs : List (String × Json)} (hkeys : (kvs.map (·.1)).Nodup)
    (h : ∀ m ∈ kvs, (ofJson m.2).everywhere wellKeyed = true) :
    (Value.dict (ofMembers kvs)).everywhere wellKeyed = true := by
  have hall : ∀ e ∈ ofMembers kvs, e.1.named = true ∧ e.2.everywhere wellKeyed = true := by
    intro e he
    rw [ofMembers_eq_map] at he
    obtain ⟨m, hm, rfl⟩ := mem_map.mp he
    exact ⟨rfl, h m hm⟩
  refine everywhere_dict.mpr ⟨Bool.and_eq_true_iff.mpr ⟨?_, ?_⟩, fun e he => (hall e he).2⟩
  · exact all_eq_true.mpr fun e he => (hall e he).1
  · rw [ofMembers_eq_map, map_map]
    exact decide_eq_true hkeys

/-- A JSON value that is written and read back as it is: every key once, and no float that is no
number. -/
structure Tidy (j : Json) : Prop where
  reread : (ofJson j).reread id = j
  fit : Fit false (ofJson j)
  wellKeyed : (ofJson j).everywhere wellKeyed = true

theorem Tidy.arr {vs : List Json} (h : ∀ v ∈ vs, Tidy v) : Tidy (.arr vs) where
  reread := by
    rw [ofJson, ofItems_eq_map, Value.reread, rereadItems_eq_map, map_map]
    congr 1
    calc vs.map (Value.reread id ∘ ofJson) = vs.map id :=
          map_congr_left fun v hv => (h v hv).reread
      _ = vs := map_id vs
  fit := by
    have hall : ∀ v ∈ ofItems vs, Fit false v := by
      intro v hv
      rw [ofItems_eq_map] at hv
      obtain ⟨j, hj, rfl⟩ := mem_map.mp hv
      exact (h j hj).fit
    exact
      { orderly := everywhere_seq.mpr ⟨rfl, fun v hv => (hall v hv).orderly⟩
        jsonable := everywhere_seq.mpr ⟨rfl, fun v hv => (hall v hv).jsonable⟩ }
  wellKeyed := by
    refine everywhere_seq.mpr ⟨rfl, fun v hv => ?_⟩
    rw [ofItems_eq_map] at hv
    obtain ⟨j, hj, rfl⟩ := mem_map.mp hv
    exact (h j hj).wellKeyed

theorem Tidy.obj {kvs : List (String × Json)} (hkeys : (kvs.map (·.1)).Nodup)
    (h : ∀ e ∈ kvs, Tidy e.2) : Tidy (.obj kvs) where
  reread := by
    rw [ofJson, Value.reread, ofMembers_eq_map, rereadEntries_eq_map, map_map, id, map_map]
    have hsame : kvs.map ((fun e : Key × Json => (e.1.written, e.2)) ∘
        ((fun e : Key × Value => (e.1, e.2.reread id)) ∘
          fun e : String × Json => (Key.string e.1, ofJson e.2))) = kvs.map id :=
      map_congr_left fun e he => Prod.ext rfl (h e he).reread
    rw [hsame, map_id, entries_of_nodup hkeys]
  fit := by
    have hall : ∀ e ∈ ofMembers kvs, (∃ s, e.1 = .string s) ∧ Fit false e.2 := by
      intro e he
      rw [ofMembers_eq_map] at he
      obtain ⟨m, hm, rfl⟩ := mem_map.mp he
      exact ⟨⟨m.1, rfl⟩, (h m hm).fit⟩
    refine
      { orderly := everywhere_dict.mpr ⟨?_, fun e he => (hall e he).2.orderly⟩
        jsonable := everywhere_dict.mpr ⟨?_, fun e he => (hall e he).2.jsonable⟩ }
    · have hkind : ∀ k ∈ (ofMembers kvs).map (·.1), k.kind = some 0 := by
        intro k hk
        obtain ⟨e, he, rfl⟩ := mem_map.mp hk
        obtain ⟨s, hs⟩ := (hall e he).1
        rw [hs]
        rfl
      show sortable _ = true
      rw [sortable, Bool.or_eq_true, all_eq_true]
      right
      intro k hk
      rw [hkind k hk, Bool.and_eq_true, all_eq_true]
      exact ⟨rfl, fun k' hk' => by rw [hkind k' hk']; rfl⟩
    · refine all_eq_true.mpr fun e he => ?_
      obtain ⟨s, hs⟩ := (hall e he).1
      rw [hs]
      rfl
  wellKeyed := by exact wellKeyed_ofMembers hkeys fun m hm => (h m hm).wellKeyed

mutual

theorem tidy_reread (hwritten : Rearranges written) :
    ∀ v : Value, v.everywhere (jsonable false) = true → Tidy (v.reread written)
  | .null, _ | .bool _, _ | .int _, _ | .float _, _ | .str _, _ => ⟨rfl, ⟨rfl, rfl⟩, rfl⟩
  | .nonFinite _, h | .bytes _, h | .other, h => absurd h Bool.false_ne_true
  | .seq vs, h => by
    rw [Value.reread]
    exact .arr (tidy_rereadItems hwritten vs (everywhere_seq.mp h).2)
  | .dict entries, h => by
    have hall := tidy_rereadEntries hwritten entries (everywhere_dict.mp h).2
    rw [Value.reread]
    refine .obj (nodup _) fun e he => ?_
    rcases mem_update he with hnew | hold
    · obtain ⟨e', he', rfl⟩ := mem_map.mp hnew
      exact hall e' ((hwritten _).mem_iff.mp he')
    · cases hold

theorem tidy_rereadItems (hwritten : Rearranges written) :
    ∀ vs : List Value, (∀ v ∈ vs, v.everywhere (jsonable false) = true) →
    ∀ j ∈ rereadItems written vs, Tidy j
  | [], _ => nofun
  | v :: vs, h => by
    obtain ⟨hv, hvs⟩ := forall_mem_cons.mp h
    exact forall_mem_cons.mpr ⟨tidy_reread hwritten v hv, tidy_rereadItems hwritten vs hvs⟩

theorem tidy_rereadEntries (hwritten : Rearranges written) : ∀ entries : List (Key × Value),
    (∀ e ∈ entries, e.2.everywhere (jsonable false) = true) →
    ∀ e ∈ rereadEntries written entries, Tidy e.2
  | [], _ => nofun
  | (_, v) :: entries, h => by
    obtain ⟨hv, hentries⟩ := forall_mem_cons.mp h
    exact forall_mem_cons.mpr
      ⟨tidy_reread hwritten v hv, tidy_rereadEntries hwritten entries hentries⟩

end

theorem Tidy.norm {j : Json} (h : Tidy j) (nfc : String → String) {arrange : Arrange}
    (harrange : Rearranges arrange) :
    ((ofJson j).norm nfc arrange).sortKeys = normalizeJsonValue nfc j := by
  have hsame : Same nfc arrange id (ofJson j) :=
    (same_of_fit harrange rearranges_id (ofJson j) h.fit).1 h.wellKeyed
  rwa [Same, h.reread] at hsame

/-! ## Values without NaN -/

section Everywhere

variable {p q : Value → Bool}

mutual

theorem everywhere_mono (h : ∀ v, p v = true → q v = true) :
    ∀ v : Value, v.everywhere p = true → v.everywhere q = true
  | .null, hv | .bool _, hv | .int _, hv | .float _, hv | .nonFinite _, hv | .str _, hv
  | .bytes _, hv | .other, hv => h _ hv
  | .seq vs, hv => by
    obtain ⟨hnode, hvs⟩ := everywhere_seq.mp hv
    exact everywhere_seq.mpr ⟨h _ hnode, everywhereItems_mono h vs hvs⟩
  | .dict entries, hv => by
    obtain ⟨hnode, hentries⟩ := everywhere_dict.mp hv
    exact everywhere_dict.mpr ⟨h _ hnode, everywhereEntries_mono h entries hentries⟩

theorem everywhereItems_mono (h : ∀ v, p v = true → q v = true) : ∀ vs : List Value,
    (∀ v ∈ vs, v.everywhere p = true) → ∀ v ∈ vs, v.everywhere q = true
  | [], _ => nofun
  | v :: vs, hall => by
    obtain ⟨hv, hvs⟩ := forall_mem_cons.mp hall
    exact forall_mem_cons.mpr ⟨everywhere_mono h v hv, everywhereItems_mono h vs hvs⟩

theorem everywhereEntries_mono (h : ∀ v, p v = true → q v = true) :
    ∀ entries : List (Key × Value), (∀ e ∈ entries, e.2.everywhere p = true) →
    ∀ e ∈ entries, e.2.everywhere q = true
  | [], _ => nofun
  | (_, v) :: entries, hall => by
    obtain ⟨hv, hentries⟩ := forall_mem_cons.mp hall
    exact forall_mem_cons.mpr ⟨everywhere_mono h v hv, everywhereEntries_mono h entries hentries⟩

end

theorem everywhere_normalizable {allowNan : Bool} {v : Value}
    (h : v.everywhere (jsonable allowNan) = true) : v.everywhere normalizable = true := by
  refine everywhere_mono (fun v hv => ?_) v h
  cases v with
  | bytes | other => cases hv
  | _ => rfl

end Everywhere

section Finite

variable (nfc : String → String) {arrange : Arrange} (harrange : Rearranges arrange)

include harrange in
theorem finite_norm_entries {entries : List (Key × Value)}
    (h : ∀ e ∈ normEntries nfc arrange entries, e.2.finite = true) :
    ((Value.dict entries).norm nfc arrange).finite = true := by
  rw [Value.norm, Json.finite, finiteMembers_eq_all, all_eq_true]
  intro m hm
  rcases mem_update hm with hnew | hold
  · obtain ⟨e, he, rfl⟩ := mem_map.mp hnew
    exact h e ((harrange _).mem_iff.mp he)
  · cases hold

mutual

theorem finite_norm (harrange : Rearranges arrange) :
    ∀ v : Value, v.everywhere (jsonable false) = true → (v.norm nfc arrange).finite = true
  | .null, _ | .bool _, _ | .int _, _ | .float _, _ | .str _, _ => rfl
  | .nonFinite _, h | .bytes _, h | .other, h => absurd h Bool.false_ne_true
  | .seq vs, h => finite_normItems harrange vs (everywhere_seq.mp h).2
  | .dict entries, h =>
    finite_norm_entries nfc harrange (finite_normEntries harrange entries (everywhere_dict.mp h).2)

theorem finite_normItems (harrange : Rearranges arrange) : ∀ vs : List Value,
    (∀ v ∈ vs, v.everywhere (jsonable false) = true) → finiteItems (normItems nfc arrange vs) = true
  | [], _ => rfl
  | v :: vs, h => by
    obtain ⟨hv, hvs⟩ := forall_mem_cons.mp h
    rw [normItems, finiteItems, finite_norm harrange v hv, finite_normItems harrange vs hvs]
    rfl

theorem finite_normEntries (harrange : Rearranges arrange) : ∀ entries : List (Key × Value),
    (∀ e ∈ entries, e.2.everywhere (jsonable false) = true) →
    ∀ e ∈ normEntries nfc arrange entries, e.2.finite = true
  | [], _ => nofun
  | (_, v) :: entries, h => by
    obtain ⟨hv, hentries⟩ := forall_mem_cons.mp h
    exact forall_mem_cons.mpr
      ⟨finite_norm harrange v hv, finite_normEntries harrange entries hentries⟩

end

mutual

theorem wellKeyed_norm (harrange : Rearranges arrange) :
    ∀ v : Value, (ofJson (v.norm nfc arrange)).everywhere wellKeyed = true
  | .null | .bool _ | .int _ | .float _ | .nonFinite _ | .str _ | .bytes _ | .other => rfl
  | .seq vs => by
    refine everywhere_seq.mpr ⟨rfl, fun v hv => ?_⟩
    rw [ofItems_eq_map] at hv
    obtain ⟨j, hj, rfl⟩ := mem_map.mp hv
    exact wellKeyed_normItems harrange vs j hj
  | .dict entries => by
    rw [Value.norm, ofJson]
    refine wellKeyed_ofMembers (nodup _) fun m hm => ?_
    rcases mem_update hm with hnew | hold
    · obtain ⟨e, he, rfl⟩ := mem_map.mp hnew
      exact wellKeyed_normEntries harrange entries e ((harrange _).mem_iff.mp he)
    · cases hold

theorem wellKeyed_normItems (harrange : Rearranges arrange) : ∀ vs : List Value,
    ∀ j ∈ normItems nfc arrange vs, (ofJson j).everywhere wellKeyed = true
  | [] => nofun
  | v :: vs => forall_mem_cons.mpr
    ⟨wellKeyed_norm harrange v, wellKeyed_normItems harrange vs⟩

theorem wellKeyed_normEntries (harrange : Rearranges arrange) : ∀ entries : List (Key × Value),
    ∀ e ∈ normEntries nfc arrange entries, (ofJson e.2).everywhere wellKeyed = true
  | [] => nofun
  | (_, v) :: entries => forall_mem_cons.mpr
    ⟨wellKeyed_norm harrange v, wellKeyed_normEntries harrange entries⟩

end

end Finite

end Xtrax.PyValue
