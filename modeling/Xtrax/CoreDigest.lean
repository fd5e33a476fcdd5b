import Xtrax.PyJsonRoundTrip
import Xtrax.Results

/-! # Two digests of a record's core

The pack module computes the digest of a record's core without the rest of the package: it normalizes the
core with a function of its own, leaves the sorting to `json.dumps`, and would write NaN.
`canonical_digest` sorts while it normalizes and refuses NaN.  For values of JSON both write the same
bytes, or both raise: where an integer has too many digits, or a string has a lone surrogate.
-/
namespace Xtrax.CoreDigest

open List PyJson

/-! ## Writing -/

/-- What `json.dumps(ensure_ascii=False)` writes for one code point. -/
def escapeRaw (c : CodePoint) : PyStr :=
  if c.val = 34 then py "\\\""
  else if c.val = 92 then py "\\\\"
  else if c.val = 10 then py "\\n"
  else if c.val = 13 then py "\\r"
  else if c.val = 9 then py "\\t"
  else if c.val = 12 then py "\\f"
  else if c.val = 8 then py "\\b"
  else if c.val < 0x20 then
    py "\\u00" ++ [point (Nat.digitChar (c.val / 16)).toNat, point (Nat.digitChar (c.val % 16)).toNat]
  else [c]

def quotedRaw (s : PyStr) : PyStr := py "\"" ++ s.flatMap escapeRaw ++ py "\""

section Text

-- `float.__repr__`, or the name of NaN or an infinity
variable (floatRepr : PyFloat → PyStr)

mutual

/-- The text of a value, the entries of a dictionary in the order in which they are listed. -/
def rawText : PyVal → PyStr
  | .none => py "null"
  | .bool true => py "true"
  | .bool false => py "false"
  | .int n => py (String.ofList (intText n))
  | .float x => floatRepr x
  | .str s => quotedRaw s
  | .list vs => py "[" ++ rawItems vs ++ py "]"
  | .dict entries => py "\x7b" ++ rawMembers entries ++ py "\x7d"

def rawItems : List PyVal → PyStr
  | [] => []
  | [v] => rawText v
  | v :: w :: vs => rawText v ++ py "," ++ rawItems (w :: vs)

def rawMembers : List (PyStr × PyVal) → PyStr
  | [] => []
  | [(k, v)] => quotedRaw k ++ py ":" ++ rawText v
  | (k, v) :: m :: entries => quotedRaw k ++ py ":" ++ rawText v ++ py "," ++ rawMembers (m :: entries)

end

end Text

/-- A number that is not rounded to an infinity. -/
def isFiniteFloat : PyFloat → Bool
  | .decimal _ digits exponent => (digits : ℚ) * 10 ^ exponent < 2 ^ 1024 - 2 ^ 970
  | .nan | .infinity _ => false

mutual

/-- No NaN and no infinity anywhere. -/
def isFinite : PyVal → Bool
  | .float x => isFiniteFloat x
  | .list vs => isFiniteItems vs
  | .dict entries => isFiniteEntries entries
  | _ => true

def isFiniteItems : List PyVal → Bool
  | [] => true
  | v :: vs => isFinite v && isFiniteItems vs

def isFiniteEntries : List (PyStr × PyVal) → Bool
  | [] => true
  | (_, v) :: entries => isFinite v && isFiniteEntries entries

end

/-- `json.dumps(v, sort_keys=True, separators=(",", ":"), ensure_ascii=False)`; nothing where it raises. -/
def dumpsRaw (floatRepr : PyFloat → PyStr) (allowNan : Bool) (v : PyVal) : Option PyStr :=
  if v.printable && (allowNan || isFinite v) then some (rawText floatRepr v.sortKeys) else none

/-- `text.encode("utf-8")`; nothing where there is a lone surrogate. -/
def encodeUtf8 (text : PyStr) : Option (List UInt8) :=
  if text.any fun c => 0xD800 ≤ c.val ∧ c.val ≤ 0xDFFF then none
  else some (text.flatMap fun c => utf8Point c.val)

/-! ## The digest of the pack module -/

def coreFields : List String :=
  ["input_digest", "input_payload", "meta", "content_digest", "run_id", "env", "committed_at"]

/-- `{k: record.get(k) for k in _CORE_FIELDS}`. -/
def core (record : List (PyStr × PyVal)) : List (PyStr × PyVal) :=
  coreFields.map fun k => (py k, (record.lookup (py k)).getD .none)

section Digests

-- the normal form NFC, `float.__repr__` and the hexadecimal sha256
variable (nfc : PyStr → PyStr) (floatRepr : PyFloat → PyStr) (sha256 : List UInt8 → String)

mutual

def normalize : PyVal → PyVal
  | .dict entries => .dict (normalizeEntries entries)
  | .list vs => .list (normalizeItems vs)
  | .str s => .str (nfc s)
  | v => v

def normalizeItems : List PyVal → List PyVal
  | [] => []
  | v :: vs => normalize v :: normalizeItems vs

def normalizeEntries : List (PyStr × PyVal) → List (PyStr × PyVal)
  | [] => []
  | (k, v) :: entries => (k, normalize v) :: normalizeEntries entries

end

/-- `compute_record_digest`; nothing where it raises. -/
def computeRecordDigest (record : List (PyStr × PyVal)) : Option String := do
  let text ← dumpsRaw floatRepr true (normalize nfc (.dict (core record)))
  let bytes ← encodeUtf8 text
  return sha256 bytes

/-! ## The canonical digest -/

mutual

/-- `normalize_json_value`.  Sorting the items before or after their values are normalized is the same. -/
def normalizeJsonValue : PyVal → PyVal
  | .list vs => .list (normalizeJsonItems vs)
  | .dict entries => .dict (sortEntries (normalizeJsonEntries entries))
  | .str s => .str (nfc s)
  | v => v

def normalizeJsonItems : List PyVal → List PyVal
  | [] => []
  | v :: vs => normalizeJsonValue v :: normalizeJsonItems vs

def normalizeJsonEntries : List (PyStr × PyVal) → List (PyStr × PyVal)
  | [] => []
  | (k, v) :: entries => (k, normalizeJsonValue v) :: normalizeJsonEntries entries

end

def canonicalJsonBytes (payload : PyVal) : Option (List UInt8) := do
  let text ← dumpsRaw floatRepr false payload
  encodeUtf8 text

/-- `canonical_digest`; nothing where it raises. -/
def canonicalDigest (payload : List (PyStr × PyVal)) : Option String :=
  (canonicalJsonBytes floatRepr (normalizeJsonValue nfc (.dict payload))).map sha256

end Digests

/-! ## Values of JSON -/

/-- A value of JSON without NaN and infinities, each name once in an object. -/
inductive IsJson : PyVal → Prop
  | none : IsJson .none
  | bool (b : Bool) : IsJson (.bool b)
  | int (n : Int) : IsJson (.int n)
  | float {x : PyFloat} (h : isFiniteFloat x = true) : IsJson (.float x)
  | str (s : PyStr) : IsJson (.str s)
  | list {vs : List PyVal} (h : ∀ v ∈ vs, IsJson v) : IsJson (.list vs)
  | dict {entries : List (PyStr × PyVal)} (nodup : (entries.map Prod.fst).Nodup)
      (h : ∀ e ∈ entries, IsJson e.2) : IsJson (.dict entries)

section

variable {nfc : PyStr → PyStr} {floatRepr : PyFloat → PyStr} {sha256 : List UInt8 → String} {v : PyVal}

theorem normalizeItems_eq_map (vs : List PyVal) : normalizeItems nfc vs = vs.map (normalize nfc) := by
  induction vs with
  | nil => rfl
  | cons v vs ih => rw [normalizeItems, ih, map_cons]

theorem normalizeEntries_eq_map (entries : List (PyStr × PyVal)) :
    normalizeEntries nfc entries = entries.map fun e => (e.1, normalize nfc e.2) := by
  induction entries with
  | nil => rfl
  | cons e entries ih => rw [normalizeEntries, ih, map_cons]

theorem normalizeJsonItems_eq_map (vs : List PyVal) :
    normalizeJsonItems nfc vs = vs.map (normalizeJsonValue nfc) := by
  induction vs with
  | nil => rfl
  | cons v vs ih => rw [normalizeJsonItems, ih, map_cons]

theorem normalizeJsonEntries_eq_map (entries : List (PyStr × PyVal)) :
    normalizeJsonEntries nfc entries = entries.map fun e => (e.1, normalizeJsonValue nfc e.2) := by
  induction entries with
  | nil => rfl
  | cons e entries ih => rw [normalizeJsonEntries, ih, map_cons]

/-! ## Sorting -/

theorem sortEntries_map {β γ : Type} (f : β → γ) (entries : List (PyStr × β)) :
    sortEntries (entries.map fun e => (e.1, f e.2)) = (sortEntries entries).map fun e => (e.1, f e.2) := by
  have hinsert : ∀ (k : PyStr) (v : β) (sorted : List (PyStr × β)),
      insertEntry k (f v) (sorted.map fun e => (e.1, f e.2)) =
        (insertEntry k v sorted).map fun e => (e.1, f e.2) := by
    intro k v sorted
    induction sorted with
    | nil => rfl
    | cons e sorted ih =>
      rw [map_cons, insertEntry, insertEntry]
      split
      · rfl
      · split
        · rfl
        · rw [ih, map_cons]
  induction entries using reverseRecOn with
  | nil => rfl
  | append_singleton entries e ih =>
    unfold sortEntries at ih ⊢
    rw [map_append, foldl_append, ih, foldl_append]
    exact hinsert e.1 e.2 _

theorem sortEntries_map_sorted {β γ : Type} (f : β → γ) (entries : List (PyStr × β)) :
    sortEntries ((sortEntries entries).map fun e => (e.1, f e.2)) =
      sortEntries (entries.map fun e => (e.1, f e.2)) := by
  rw [sortEntries_map, sortEntries_sorted (sortEntries_pairwise _), ← sortEntries_map]

/-- **Both ways of normalizing** come to the same when the keys are sorted. -/
theorem sortKeys_normalize (h : IsJson v) :
    (normalize nfc v).sortKeys = (normalizeJsonValue nfc v).sortKeys := by
  induction h with
  | none => rfl
  | bool b => rfl
  | int n => rfl
  | float h => rfl
  | str s => rfl
  | @list vs h ih =>
    rw [normalize, normalizeJsonValue, PyVal.sortKeys, PyVal.sortKeys, sortKeysItems_eq_map,
      sortKeysItems_eq_map, normalizeItems_eq_map, normalizeJsonItems_eq_map, map_map, map_map]
    exact congrArg PyVal.list (map_congr_left ih)
  | @dict entries nodup h ih =>
    rw [normalize, normalizeJsonValue, sortKeys_dict, sortKeys_dict, written, written,
      sortKeysEntries_eq_map, sortKeysEntries_eq_map, normalizeEntries_eq_map,
      normalizeJsonEntries_eq_map, sortEntries_map_sorted PyVal.sortKeys, map_map, map_map]
    refine congrArg (fun entries => PyVal.dict (sortEntries entries)) (map_congr_left fun e he => ?_)
    exact congrArg (Prod.mk e.1) (ih e he)

/-! ## What both write -/

theorem printableItems_eq_all (vs : List PyVal) : printableItems vs = vs.all PyVal.printable := by
  induction vs with
  | nil => rfl
  | cons v vs ih => rw [printableItems, ih, all_cons]

theorem printableEntries_eq_all (entries : List (PyStr × PyVal)) :
    printableEntries entries = entries.all fun e => e.2.printable := by
  induction entries with
  | nil => rfl
  | cons e entries ih => rw [printableEntries, ih, all_cons]

theorem isFiniteItems_eq_all (vs : List PyVal) : isFiniteItems vs = vs.all isFinite := by
  induction vs with
  | nil => rfl
  | cons v vs ih => rw [isFiniteItems, ih, all_cons]

theorem isFiniteEntries_eq_all (entries : List (PyStr × PyVal)) :
    isFiniteEntries entries = entries.all fun e => isFinite e.2 := by
  induction entries with
  | nil => rfl
  | cons e entries ih => rw [isFiniteEntries, ih, all_cons]

theorem all_sortEntries {β : Type} {entries : List (PyStr × β)} (h : (entries.map Prod.fst).Nodup)
    (p : β → Bool) : ((sortEntries entries).all fun e => p e.2) = entries.all fun e => p e.2 :=
  (sortEntries_perm h).all_eq

theorem nodup_normalizeJson {entries : List (PyStr × PyVal)} (h : (entries.map Prod.fst).Nodup) :
    ((entries.map fun e => (e.1, normalizeJsonValue nfc e.2)).map Prod.fst).Nodup := by
  rw [map_map]
  exact h

theorem all_congr_mem {α : Type} {l : List α} {p q : α → Bool} (h : ∀ a ∈ l, p a = q a) :
    l.all p = l.all q := by
  rw [Bool.eq_iff_iff, all_eq_true, all_eq_true]
  exact forall₂_congr fun a ha => by rw [h a ha]

theorem printable_normalize (h : IsJson v) :
    (normalize nfc v).printable = (normalizeJsonValue nfc v).printable := by
  induction h with
  | none => rfl
  | bool b => rfl
  | int n => rfl
  | float h => rfl
  | str s => rfl
  | @list vs h ih =>
    rw [normalize, normalizeJsonValue, PyVal.printable, PyVal.printable, printableItems_eq_all,
      printableItems_eq_all, normalizeItems_eq_map, normalizeJsonItems_eq_map, all_map, all_map]
    exact all_congr_mem ih
  | @dict entries nodup h ih =>
    rw [normalize, normalizeJsonValue, PyVal.printable, PyVal.printable, printableEntries_eq_all,
      printableEntries_eq_all, normalizeEntries_eq_map, normalizeJsonEntries_eq_map,
      all_sortEntries (nodup_normalizeJson nodup), all_map, all_map]
    exact all_congr_mem ih

theorem isFinite_normalizeJsonValue (h : IsJson v) : isFinite (normalizeJsonValue nfc v) = true := by
  induction h with
  | none => rfl
  | bool b => rfl
  | int n => rfl
  | float h => exact h
  | str s => rfl
  | @list vs h ih =>
    rw [normalizeJsonValue, isFinite, isFiniteItems_eq_all, normalizeJsonItems_eq_map, all_map]
    exact all_eq_true.mpr ih
  | @dict entries nodup h ih =>
    rw [normalizeJsonValue, isFinite, isFiniteEntries_eq_all, normalizeJsonEntries_eq_map,
      all_sortEntries (nodup_normalizeJson nodup), all_map]
    exact all_eq_true.mpr ih

theorem dumpsRaw_normalize (h : IsJson v) :
    dumpsRaw floatRepr true (normalize nfc v) = dumpsRaw floatRepr false (normalizeJsonValue nfc v) := by
  unfold dumpsRaw
  rw [printable_normalize h, sortKeys_normalize h, isFinite_normalizeJsonValue h]
  simp

theorem isJson_core {record : List (PyStr × PyVal)} (h : IsJson (.dict record)) :
    IsJson (.dict (core record)) := by
  cases h with
  | dict nodup hvalues =>
    have hnames : (core record).map Prod.fst = coreFields.map py := by
      rw [core, map_map]
      rfl
    have hnodup : (coreFields.map py).Nodup := by decide
    refine .dict (by rwa [hnames]) fun e he => ?_
    obtain ⟨k, -, rfl⟩ := mem_map.mp he
    cases hlookup : record.lookup (py k) with
    | none => exact .none
    | some v => exact hvalues (py k, v) ((Results.lookup_eq_some nodup).mp hlookup)

/-- **The two digests agree**: what the pack module computes of a record is the canonical digest of its
core. -/
theorem computeRecordDigest_eq {record : List (PyStr × PyVal)} (h : IsJson (.dict record)) :
    computeRecordDigest nfc floatRepr sha256 record =
      canonicalDigest nfc floatRepr sha256 (core record) := by
  unfold computeRecordDigest canonicalDigest canonicalJsonBytes
  rw [dumpsRaw_normalize (isJson_core h)]
  cases dumpsRaw floatRepr false (normalizeJsonValue nfc (.dict (core record))) with
  | none => rfl
  | some text => cases hbytes : encodeUtf8 text <;> simp [hbytes]

end

/-! ## A record -/

namespace Example

def nfc (s : PyStr) : PyStr := if s = [point 101, point 0x301] then [point 0xE9] else s

/-- Names that are out of order, one of them not in normal form. -/
def record : List (PyStr × PyVal) :=
  [(py "meta", .dict [(py "b", .list [.int 1, .none]), ([point 101, point 0x301], .str [point 101, point 0x301]),
      (py "a", .dict [])]),
    (py "run_id", .str (py "run")), (py "schema", .str (py "xtrax.unit/1"))]

theorem isJson_record : IsJson (.dict record) := by
  refine .dict (by decide) fun e he => ?_
  simp only [record, mem_cons, not_mem_nil, or_false] at he
  rcases he with rfl | rfl | rfl
  · refine .dict (by decide) fun e he => ?_
    simp only [mem_cons, not_mem_nil, or_false] at he
    rcases he with rfl | rfl | rfl
    · refine .list fun v hv => ?_
      simp only [mem_cons, not_mem_nil, or_false] at hv
      rcases hv with rfl | rfl
      · exact .int 1
      · exact .none
    · exact .str _
    · exact .dict nodup_nil (forall_mem_nil _)
  · exact .str _
  · exact .str _

theorem digests_agree :
    computeRecordDigest nfc (fun _ => py "0.5") (fun bytes => bytes.length.repr) record =
      canonicalDigest nfc (fun _ => py "0.5") (fun bytes => bytes.length.repr) (core record) :=
  computeRecordDigest_eq isJson_record

end Example

end Xtrax.CoreDigest
