import Mathlib
import Xtrax.Dict
import Xtrax.ZarrDigestInjective

/-! # The normal form of a value

`normalize_json_value` makes of any value one that JSON holds: texts in NFC, lists, and mappings with
texts as keys, in the order of the keys that they had.  `canonical_json_bytes` writes it with sorted
keys.

What a value is normalized to does not depend on the order in which its mappings were filled
(`normalize_arranged`).  Normalizing once more changes nothing but the order of entries just where no
text was decoded from bytes that are not in NFC (`fixedPoint_iff`).
-/
namespace Xtrax.NormalForm

open List

/-! ## Keys -/

/-- What Python says about keys of mappings beside their order: what `str` gives, and whether two keys
can be compared. -/
structure Keys (κ : Type) where
  str : κ → String
  comparable : κ → κ → Bool
  symm : ∀ a b, comparable a b = true → comparable b a = true

section Keys

variable {κ β : Type} [LinearOrder κ] (K : Keys κ)

def sortItems (entries : List (κ × β)) : List (κ × β) := entries.insertionSort fun a b => a.1 ≤ b.1

/-- `sorted(value.items())`.  Two keys of a mapping are not equal, so values are not compared. -/
def sorted (entries : List (κ × β)) : Option (List (κ × β)) :=
  if entries.Pairwise fun a b => K.comparable a.1 b.1 then some (sortItems entries) else none

/-- The mapping that the loop over the sorted items fills. -/
def collect (entries : List (κ × β)) : Option (List (String × β)) :=
  (sorted K entries).map fun entries =>
    ((∅ : Dict String β).update (entries.map fun e => (K.str e.1, e.2))).entries

/-- No greater key has the text of this one. -/
def Survives (keys : List κ) (k : κ) : Prop := ∀ k' ∈ keys, K.str k' = K.str k → k' ≤ k

variable {K} {entries : List (κ × β)}

theorem sortItems_perm : (sortItems entries).Perm entries := perm_insertionSort _ entries

theorem sortItems_sorted : (sortItems entries).Pairwise fun a b => a.1 ≤ b.1 := by
  have : Std.Total fun a b : κ × β => a.1 ≤ b.1 := ⟨fun a b => le_total a.1 b.1⟩
  have : IsTrans (κ × β) fun a b => a.1 ≤ b.1 := ⟨fun a b c h h' => le_trans h h'⟩
  exact pairwise_insertionSort _ entries

theorem collect_sortItems : collect K (sortItems entries) = collect K entries := by
  have hself : sortItems (sortItems entries) = sortItems entries := sortItems_sorted.insertionSort_eq
  simp only [collect, sorted, hself, sortItems_perm.pairwise_iff fun {_ _} => K.symm _ _]

theorem sortItems_map {α : Type} (f : β → α) :
    sortItems (entries.map fun e => (e.1, f e.2)) = (sortItems entries).map fun e => (e.1, f e.2) :=
  (map_insertionSort _ _ (fun e : κ × β => (e.1, f e.2)) entries fun _ _ _ _ => Iff.rfl).symm

theorem getLast?_eq_some_iff {l : List (κ × β)} {e : κ × β} (h : l.Pairwise fun a b => a.1 ≤ b.1)
    (hkeys : (l.map Prod.fst).Nodup) : l.getLast? = some e ↔ e ∈ l ∧ ∀ a ∈ l, a.1 ≤ e.1 := by
  rcases eq_nil_or_concat' l with rfl | ⟨front, last, rfl⟩
  · simp
  · have hlast : ∀ a ∈ front ++ [last], a.1 ≤ last.1 := by
      intro a ha
      rcases mem_append.mp ha with ha | ha
      · exact (pairwise_append.mp h).2.2 a ha last mem_cons_self
      · rw [mem_singleton.mp ha]
    have hmem : last ∈ front ++ [last] := mem_append_right _ mem_cons_self
    rw [getLast?_concat, Option.some.injEq]
    constructor
    · rintro rfl
      exact ⟨hmem, hlast⟩
    · rintro ⟨he, habove⟩
      exact inj_on_of_nodup_map hkeys hmem he (le_antisymm (habove _ hmem) (hlast e he))

theorem collect_spec {texts : List (String × β)} (hkeys : (entries.map Prod.fst).Nodup)
    (h : collect K entries = some texts) : (texts.map Prod.fst).Nodup ∧
    ∀ t x, (t, x) ∈ texts ↔
      ∃ e ∈ entries, Survives K (entries.map Prod.fst) e.1 ∧ K.str e.1 = t ∧ e.2 = x := by
  obtain ⟨sortedEntries, hsorted, rfl⟩ := Option.map_eq_some_iff.mp h
  obtain rfl := Option.some.inj (Option.ite_none_right_eq_some.mp hsorted).2
  refine ⟨Dict.nodup _, fun t x => ?_⟩
  have hmem {a : κ × β} : a ∈ sortItems entries ↔ a ∈ entries := sortItems_perm.mem_iff
  rw [← Dict.get?_eq_some_iff, Dict.get?_update, Dict.get?_empty, Option.or_none, filter_map,
    getLast?_map, Option.map_map, Option.map_eq_some_iff]
  have hlast (e : κ × β) := getLast?_eq_some_iff (e := e)
    (sortItems_sorted.filter fun e => decide (K.str e.1 = t))
    (((sortItems_perm.map _).nodup_iff.mpr hkeys).sublist (filter_sublist.map _))
  constructor
  · rintro ⟨e, he, hx⟩
    obtain ⟨he, habove⟩ := (hlast e).mp he
    obtain ⟨he, ht⟩ := mem_filter.mp he
    have ht : K.str e.1 = t := of_decide_eq_true ht
    refine ⟨e, hmem.mp he, forall_mem_map.mpr fun e' he' htext => ?_, ht, hx⟩
    exact habove e' (mem_filter.mpr ⟨hmem.mpr he', decide_eq_true (htext.trans ht)⟩)
  · rintro ⟨e, he, hsurvives, ht, hx⟩
    refine ⟨e, (hlast e).mpr ⟨mem_filter.mpr ⟨hmem.mpr he, decide_eq_true ht⟩, fun e' he' => ?_⟩, hx⟩
    obtain ⟨he', ht'⟩ := mem_filter.mp he'
    exact hsurvives e'.1 (mem_map_of_mem (hmem.mp he')) ((of_decide_eq_true ht').trans ht.symm)

def textKeys : Keys String := ⟨id, fun _ _ => true, fun _ _ h => h⟩

theorem collect_textKeys {kvs : List (String × β)} (hkeys : (kvs.map Prod.fst).Nodup) :
    collect textKeys kvs = some (sortByKey kvs) := by
  have hnodup : (((∅ : Dict String β).entries ++ sortByKey kvs).map Prod.fst).Nodup :=
    sortByKey_keys_nodup hkeys
  have hsorted : sorted textKeys kvs = some (sortByKey kvs) := if_pos (pairwise_of_forall fun _ _ => rfl)
  rw [collect, hsorted, Option.map_some]
  exact congrArg some ((congrArg _ (congrArg _ (map_id _))).trans (Dict.entries_update hnodup))

end Keys

/-! ## Values -/

/-- What is left as it is. -/
inductive Leaf
  | null
  | bool (b : Bool)
  | int (n : Int)
  | float (x : FloatText)
  | nonFinite (name : String)

def Leaf.json : Leaf → Json
  | null => .null
  | bool b => .bool b
  | int n => .int n
  | float x => .float x
  | nonFinite name => .nonFinite name

/-- A value that is not left as an object which JSON does not hold.  `bytes` are given by what
they decode to as UTF-8, a numpy scalar by its `item`, and a list, a tuple or an array by what a
loop goes through.  On `endless` normalizing raises: a scalar that is its own `item`, or an array
without dimensions. -/
inductive Value (κ : Type)
  | leaf (l : Leaf)
  | str (s : String)
  | bytes (decoded : Option String)
  | seq (items : List (Value κ))
  | dict (entries : List (κ × Value κ))
  | generic (item : Value κ)
  | endless

mutual

/-- A JSON value as a value of Python. -/
def ofJson : Json → Value String
  | .null => .leaf .null
  | .bool b => .leaf (.bool b)
  | .int n => .leaf (.int n)
  | .float x => .leaf (.float x)
  | .nonFinite name => .leaf (.nonFinite name)
  | .str s => .str s
  | .arr vs => .seq (ofItems vs)
  | .obj kvs => .dict (ofMembers kvs)

def ofItems : List Json → List (Value String)
  | [] => []
  | v :: vs => ofJson v :: ofItems vs

def ofMembers : List (String × Json) → List (String × Value String)
  | [] => []
  | (k, v) :: kvs => (k, ofJson v) :: ofMembers kvs

end

section Normalize

variable {κ γ : Type} [LinearOrder κ] (nfc : String → String) (K : Keys κ)

mutual

/-- `normalize_json_value`; nothing where it raises.  The keys stay as they are, so the items may
be sorted after their values are normalized. -/
def normalizeJsonValue : Value κ → Option Json
  | .leaf l => some l.json
  | .str s => some (.str (nfc s))
  | .bytes decoded => decoded.map .str
  | .seq items => (normalizeItems items).map .arr
  | .dict entries => (normalizeEntries entries).bind fun entries => (collect K entries).map .obj
  | .generic item => normalizeJsonValue item
  | .endless => none

def normalizeItems : List (Value κ) → Option (List Json)
  | [] => some []
  | v :: vs => do return (← normalizeJsonValue v) :: (← normalizeItems vs)

def normalizeEntries : List (κ × Value κ) → Option (List (κ × Json))
  | [] => some []
  | (k, v) :: entries => do return (k, ← normalizeJsonValue v) :: (← normalizeEntries entries)

end

/-- `canonical_json_bytes`; nothing where it raises. -/
def canonicalJsonBytes (payload : Json) : Option (List UInt8) := payload.dumps.map utf8

def canonicalDigest (sha256 : List UInt8 → γ) (payload : List (κ × Value κ)) : Option γ :=
  (normalizeJsonValue nfc K (.dict payload)).bind fun normalized =>
    (canonicalJsonBytes normalized).map sha256

mutual

/-- The value with the entries of every mapping in the order of their keys: two values have it in
common if they differ only in the order in which their mappings were filled. -/
def Value.arranged : Value κ → Value κ
  | .seq items => .seq (arrangedItems items)
  | .dict entries => .dict (sortItems (arrangedEntries entries))
  | .generic item => .generic item.arranged
  | v => v

def arrangedItems : List (Value κ) → List (Value κ)
  | [] => []
  | v :: vs => v.arranged :: arrangedItems vs

def arrangedEntries : List (κ × Value κ) → List (κ × Value κ)
  | [] => []
  | (k, v) :: entries => (k, v.arranged) :: arrangedEntries entries

end

/-- Every mapping in the value has each key once. -/
inductive Value.Keyed : Value κ → Prop
  | leaf l : Keyed (.leaf l)
  | str s : Keyed (.str s)
  | bytes decoded : Keyed (.bytes decoded)
  | seq {items} : (∀ v ∈ items, Keyed v) → Keyed (.seq items)
  | dict {entries} : (entries.map Prod.fst).Nodup → (∀ e ∈ entries, Keyed e.2) →
    Keyed (.dict entries)
  | generic {item} : Keyed item → Keyed (.generic item)
  | endless : Keyed .endless

/-- No text that stays is decoded from bytes without being in NFC. -/
inductive BytesComposed : Value κ → Prop
  | leaf l : BytesComposed (.leaf l)
  | str s : BytesComposed (.str s)
  | bytes {decoded} : (∀ s, decoded = some s → nfc s = s) → BytesComposed (.bytes decoded)
  | seq {items} : (∀ v ∈ items, BytesComposed v) → BytesComposed (.seq items)
  | dict {entries} : (∀ e ∈ entries, Survives K (entries.map Prod.fst) e.1 → BytesComposed e.2) →
    BytesComposed (.dict entries)
  | generic {item} : BytesComposed item → BytesComposed (.generic item)
  | endless : BytesComposed .endless

/-! ### Induction on values -/

omit [LinearOrder κ] in
theorem Value.induct {P : Value κ → Prop} (leaf : ∀ l, P (.leaf l)) (str : ∀ s, P (.str s))
    (bytes : ∀ decoded, P (.bytes decoded)) (seq : ∀ items, (∀ v ∈ items, P v) → P (.seq items))
    (dict : ∀ entries, (∀ e ∈ entries, P e.2) → P (.dict entries))
    (generic : ∀ item, P item → P (.generic item)) (endless : P .endless) : ∀ v, P v
  | .leaf l => leaf l
  | .str s => str s
  | .bytes decoded => bytes decoded
  | .seq items => seq items fun v _ => Value.induct leaf str bytes seq dict generic endless v
  | .dict entries => dict entries fun e _ =>
    Value.induct leaf str bytes seq dict generic endless e.2
  | .generic item => generic item (Value.induct leaf str bytes seq dict generic endless item)
  | .endless => endless
termination_by v => sizeOf v
decreasing_by
  · have := List.sizeOf_lt_of_mem ‹v ∈ items›
    simp only [Value.seq.sizeOf_spec]
    omega
  · have := List.sizeOf_lt_of_mem ‹e ∈ entries›
    have : sizeOf e.2 < sizeOf e := by
      obtain ⟨k, v⟩ := e
      simp
    simp only [Value.dict.sizeOf_spec]
    omega
  · simp

/-- What a value is normalized to, where it is. -/
def norm (v : Value κ) : Json := (normalizeJsonValue nfc K v).getD .null

variable {nfc K}

theorem norm_of {v : Value κ} {j : Json} (h : normalizeJsonValue nfc K v = some j) :
    norm nfc K v = j := by rw [norm, h, Option.getD_some]

theorem normalizeItems_eq_some {vs : List (Value κ)} {js : List Json} :
    normalizeItems nfc K vs = some js ↔
      (∀ v ∈ vs, normalizeJsonValue nfc K v = some (norm nfc K v)) ∧ js = vs.map (norm nfc K) := by
  induction vs generalizing js with
  | nil => simp [normalizeItems, eq_comm]
  | cons v vs ih =>
    cases hv : normalizeJsonValue nfc K v with
    | none => simp [normalizeItems, hv]
    | some j => simp [normalizeItems, hv, norm_of hv, eq_comm (a := js), Option.bind_eq_some_iff, ih, and_assoc]

theorem normalizeEntries_eq_some {es : List (κ × Value κ)} {rs : List (κ × Json)} :
    normalizeEntries nfc K es = some rs ↔
      (∀ e ∈ es, normalizeJsonValue nfc K e.2 = some (norm nfc K e.2)) ∧
        rs = es.map fun e => (e.1, norm nfc K e.2) := by
  induction es generalizing rs with
  | nil => simp [normalizeEntries, eq_comm]
  | cons e es ih =>
    cases hv : normalizeJsonValue nfc K e.2 with
    | none => simp [normalizeEntries, hv]
    | some j => simp [normalizeEntries, hv, norm_of hv, eq_comm (a := rs), Option.bind_eq_some_iff, ih, and_assoc]

/-! ## The order of entries -/

theorem normalizeEntries_sortItems (es : List (κ × Value κ)) :
    normalizeEntries nfc K (sortItems es) = (normalizeEntries nfc K es).map sortItems := by
  refine Option.ext fun rs => ?_
  rw [normalizeEntries_eq_some, Option.map_eq_some_iff]
  simp only [normalizeEntries_eq_some, sortItems_perm.mem_iff, ← sortItems_map]
  constructor
  · rintro ⟨hall, rfl⟩
    exact ⟨_, ⟨hall, rfl⟩, rfl⟩
  · rintro ⟨_, ⟨hall, rfl⟩, rfl⟩
    exact ⟨hall, rfl⟩

theorem normalizeItems_arranged {vs : List (Value κ)}
    (h : ∀ v ∈ vs, normalizeJsonValue nfc K v.arranged = normalizeJsonValue nfc K v) :
    normalizeItems nfc K (arrangedItems vs) = normalizeItems nfc K vs := by
  induction vs with
  | nil => rfl
  | cons v vs ih =>
    obtain ⟨hv, hvs⟩ := forall_mem_cons.mp h
    rw [arrangedItems, normalizeItems, normalizeItems, hv, ih hvs]

theorem normalizeEntries_arranged {es : List (κ × Value κ)}
    (h : ∀ e ∈ es, normalizeJsonValue nfc K e.2.arranged = normalizeJsonValue nfc K e.2) :
    normalizeEntries nfc K (arrangedEntries es) = normalizeEntries nfc K es := by
  induction es with
  | nil => rfl
  | cons e es ih =>
    obtain ⟨he, hes⟩ := forall_mem_cons.mp h
    rw [arrangedEntries, normalizeEntries, normalizeEntries, he, ih hes]

theorem normalize_arranged (v : Value κ) :
    normalizeJsonValue nfc K v.arranged = normalizeJsonValue nfc K v := by
  induction v using Value.induct with
  | leaf l => rfl
  | str s => rfl
  | bytes decoded => rfl
  | seq items ih =>
    rw [Value.arranged, normalizeJsonValue, normalizeJsonValue, normalizeItems_arranged ih]
  | dict entries ih =>
    rw [Value.arranged, normalizeJsonValue, normalizeJsonValue, normalizeEntries_sortItems,
      normalizeEntries_arranged ih, Option.bind_map]
    exact congrArg _ (funext fun rs => congrArg _ collect_sortItems)
  | generic item ih => exact ih
  | endless => rfl

/-! ## Normalizing once more -/

/-- The result `j` is normalized once more, and is left as it is just where the value's bytes are in
NFC. -/
def Settles (nfc : String → String) (K : Keys κ) (v : Value κ) (j : Json) : Prop :=
  normalizeJsonValue nfc textKeys (ofJson j) = some (ZarrDigest.normalizeJsonValue nfc j) ∧
    (ZarrDigest.normalizeJsonValue nfc j = j.sortKeys ↔ BytesComposed nfc K v)

theorem normalizeItems_ofItems {js : List Json} (h : ∀ j ∈ js,
    normalizeJsonValue nfc textKeys (ofJson j) = some (ZarrDigest.normalizeJsonValue nfc j)) :
    normalizeItems nfc textKeys (ofItems js) = some (ZarrDigest.normalizeItems nfc js) := by
  induction js with
  | nil => rfl
  | cons j js ih =>
    obtain ⟨hj, hjs⟩ := forall_mem_cons.mp h
    rw [ofItems, normalizeItems, hj, ih hjs]
    rfl

theorem normalizeEntries_ofMembers {kvs : List (String × Json)} (h : ∀ m ∈ kvs,
    normalizeJsonValue nfc textKeys (ofJson m.2) = some (ZarrDigest.normalizeJsonValue nfc m.2)) :
    normalizeEntries nfc textKeys (ofMembers kvs) = some (ZarrDigest.normalizeMembers nfc kvs) := by
  induction kvs with
  | nil => rfl
  | cons m kvs ih =>
    obtain ⟨hm, hkvs⟩ := forall_mem_cons.mp h
    rw [ofMembers, normalizeEntries, hm, ih hkvs]
    rfl

theorem normalizeItems_eq_sortKeys {js : List Json} :
    ZarrDigest.normalizeItems nfc js = sortKeysItems js ↔
      ∀ j ∈ js, ZarrDigest.normalizeJsonValue nfc j = j.sortKeys := by
  induction js with
  | nil => simp [ZarrDigest.normalizeItems, sortKeysItems]
  | cons j js ih => rw [ZarrDigest.normalizeItems, sortKeysItems, cons.injEq, ih, forall_mem_cons]

theorem settles_dict {entries : List (κ × Value κ)} {texts : List (String × Json)}
    (hkeys : (entries.map Prod.fst).Nodup)
    (hall : ∀ e ∈ entries, Settles nfc K e.2 (norm nfc K e.2))
    (htexts : collect K (entries.map fun e => (e.1, norm nfc K e.2)) = some texts) :
    Settles nfc K (.dict entries) (.obj texts) := by
  have hsame : (entries.map fun e => (e.1, norm nfc K e.2)).map Prod.fst = entries.map Prod.fst := by
    rw [map_map]
    rfl
  obtain ⟨hnodup, hmem⟩ := collect_spec (hsame ▸ hkeys) htexts
  have hstays : ∀ m : String × Json, m ∈ texts ↔ ∃ e ∈ entries,
      Survives K (entries.map Prod.fst) e.1 ∧ (K.str e.1, norm nfc K e.2) = m := by
    intro m
    rw [hmem m.1 m.2, hsame]
    simp [Prod.ext_iff]
  constructor
  · have hmembers : normalizeEntries nfc textKeys (ofMembers texts) =
        some (ZarrDigest.normalizeMembers nfc texts) := normalizeEntries_ofMembers fun m hm => by
      obtain ⟨e, he, -, rfl⟩ := (hstays m).mp hm
      exact (hall e he).1
    have hnames : ((ZarrDigest.normalizeMembers nfc texts).map Prod.fst).Nodup := by
      rw [ZarrDigest.normalizeMembers_eq_map, map_map]
      exact hnodup
    rw [ofJson, normalizeJsonValue, hmembers, Option.bind_some, collect_textKeys hnames,
      Option.map_some, ZarrDigest.normalizeJsonValue]
  · rw [ZarrDigest.normalizeJsonValue, Json.sortKeys, Json.obj.injEq,
      ZarrDigest.normalizeMembers_eq_map, sortKeysMembers_eq_map,
      sortByKey_map fun _ j => ZarrDigest.normalizeJsonValue nfc j,
      sortByKey_map fun _ (j : Json) => j.sortKeys, map_inj_left]
    constructor
    · intro h
      refine .dict fun e he hsurvives => (hall e he).2.mp ?_
      have hmember := (hstays _).mpr ⟨e, he, hsurvives, rfl⟩
      exact (Prod.mk.inj (h _ ((sortByKey_perm _).mem_iff.mpr hmember))).2
    · intro h m hm
      obtain ⟨e, he, hsurvives, rfl⟩ := (hstays m).mp ((sortByKey_perm _).mem_iff.mp hm)
      cases h with
      | dict h => rw [(hall e he).2.mpr (h e he hsurvives)]

theorem settles (hnfc : ∀ s, nfc (nfc s) = nfc s) {v : Value κ} {j : Json} (hv : v.Keyed)
    (hj : normalizeJsonValue nfc K v = some j) : Settles nfc K v j := by
  induction v using Value.induct generalizing j with
  | leaf l =>
    cases hj
    cases l <;> exact ⟨rfl, iff_of_true rfl (.leaf _)⟩
  | str s =>
    cases hj
    exact ⟨rfl, iff_of_true (congrArg Json.str (hnfc s)) (.str s)⟩
  | bytes decoded =>
    obtain ⟨s, rfl, rfl⟩ := Option.map_eq_some_iff.mp hj
    refine ⟨rfl, fun h => .bytes fun t ht => ?_, fun h => ?_⟩
    · exact Option.some.inj ht ▸ Json.str.inj h
    · cases h with
      | bytes h => exact congrArg Json.str (h s rfl)
  | seq items ih =>
    obtain ⟨js, hjs, rfl⟩ := Option.map_eq_some_iff.mp hj
    obtain ⟨hitems, rfl⟩ := normalizeItems_eq_some.mp hjs
    have hall : ∀ v ∈ items, Settles nfc K v (norm nfc K v) := by
      intro v hmem
      cases hv with
      | seq hkeyed => exact ih v hmem (hkeyed v hmem) (hitems v hmem)
    constructor
    · rw [ofJson, normalizeJsonValue, normalizeItems_ofItems (forall_mem_map.mpr fun v hv =>
        (hall v hv).1), Option.map_some, ZarrDigest.normalizeJsonValue]
    · rw [ZarrDigest.normalizeJsonValue, Json.sortKeys, Json.arr.injEq, normalizeItems_eq_sortKeys,
        forall_mem_map]
      refine ⟨fun h => .seq fun v hv => (hall v hv).2.mp (h v hv), fun h v hv => ?_⟩
      cases h with
      | seq h => exact (hall v hv).2.mpr (h v hv)
  | dict entries ih =>
    obtain ⟨rs, hrs, hj⟩ := Option.bind_eq_some_iff.mp hj
    obtain ⟨texts, htexts, rfl⟩ := Option.map_eq_some_iff.mp hj
    obtain ⟨hentries, rfl⟩ := normalizeEntries_eq_some.mp hrs
    obtain ⟨hkeys, hkeyed⟩ : (entries.map Prod.fst).Nodup ∧ ∀ e ∈ entries, e.2.Keyed := by
      cases hv with
      | dict hkeys hkeyed => exact ⟨hkeys, hkeyed⟩
    have hall : ∀ e ∈ entries, Settles nfc K e.2 (norm nfc K e.2) := fun e he =>
      ih e he (hkeyed e he) (hentries e he)
    exact settles_dict hkeys hall htexts
  | generic item ih =>
    cases hv with
    | generic hitem =>
      obtain ⟨hsome, hiff⟩ := ih hitem hj
      refine ⟨hsome, hiff.trans ⟨.generic, fun h => ?_⟩⟩
      cases h with
      | generic h => exact h
  | endless => cases hj

theorem canonicalJsonBytes_congr {i j : Json} (h : i.sortKeys = j.sortKeys) :
    canonicalJsonBytes i = canonicalJsonBytes j := by
  have hfinite : i.finite = j.finite := by rw [← finite_sortKeys i, ← finite_sortKeys j, h]
  rw [canonicalJsonBytes, canonicalJsonBytes, Json.dumps, Json.dumps, h, hfinite]

/-- The result `j` of normalizing `v` is a fixed point of the digest. -/
structure FixedPoint (nfc : String → String) (K : Keys κ) (v : Value κ) (j : Json) : Prop where
  again : ∃ j', normalizeJsonValue nfc textKeys (ofJson j) = some j' ∧ j'.sortKeys = j.sortKeys
  anyOrder : ∀ w : Value κ, w.arranged = v.arranged → ∃ i, normalizeJsonValue nfc K w = some i ∧
    canonicalJsonBytes i = canonicalJsonBytes j
  redigest : ∀ {γ : Type} (sha256 : List UInt8 → γ) payload stored, v = .dict payload →
    j = .obj stored →
    canonicalDigest nfc textKeys sha256 (ofMembers stored) = canonicalDigest nfc K sha256 payload

/-- A value that is normalized is normalized to a fixed point of the digest just where its bytes, as
far as they stay, hold texts in NFC. -/
theorem fixedPoint_iff (nfc : String → String) (K : Keys κ) (hnfc : ∀ s, nfc (nfc s) = nfc s)
    (v : Value κ) (j : Json) (hv : v.Keyed) (hj : normalizeJsonValue nfc K v = some j) :
    FixedPoint nfc K v j ↔ BytesComposed nfc K v := by
  obtain ⟨hsome, hiff⟩ := settles hnfc hv hj
  have hsorted := ZarrDigest.sortKeys_normalizeJsonValue nfc j
  constructor
  · intro h
    obtain ⟨j', hj', hsame⟩ := h.again
    obtain rfl := Option.some.inj (hsome.symm.trans hj')
    exact hiff.mp (hsorted.symm.trans hsame)
  · intro h
    have hsame := hsorted.trans (hiff.mpr h)
    refine ⟨⟨_, hsome, hsame⟩, fun w hw => ⟨j, ?_, rfl⟩, ?_⟩
    · rw [← normalize_arranged, hw, normalize_arranged, hj]
    · rintro γ sha256 payload stored rfl rfl
      rw [ofJson] at hsome
      rw [canonicalDigest, canonicalDigest, hj, hsome, Option.bind_some, Option.bind_some,
        canonicalJsonBytes_congr hsame]

end Normalize

/-! A decomposed text as bytes. -/

/-- NFC, as far as one letter with its accent goes. -/
def composeAcute (s : String) : String := if s = "e\u0301" then "\u00e9" else s

def decomposed : Value String := .dict [("a", .bytes (some "e\u0301"))]

theorem composeAcute_idem (s : String) : composeAcute (composeAcute s) = composeAcute s := by
  by_cases hs : s = "e\u0301"
  · subst hs
    decide
  · have hself : composeAcute s = s := if_neg hs
    rw [hself, hself]

theorem keyed_decomposed : decomposed.Keyed := by
  refine .dict (nodup_singleton "a") fun e he => ?_
  rw [mem_singleton.mp he]
  exact .bytes _

theorem normalize_decomposed : normalizeJsonValue composeAcute textKeys decomposed =
    some (.obj [("a", .str "e\u0301")]) := rfl

theorem fixedPoint_iff_decomposed :
    FixedPoint composeAcute textKeys decomposed (.obj [("a", .str "e\u0301")]) ↔
      BytesComposed composeAcute textKeys decomposed :=
  fixedPoint_iff composeAcute textKeys composeAcute_idem decomposed _ keyed_decomposed
    normalize_decomposed

/-- The stored form of the decomposed text is not left as it is. -/
theorem decomposed_not_fixed : ∃ j, normalizeJsonValue composeAcute textKeys decomposed = some j ∧
    ¬ FixedPoint composeAcute textKeys decomposed j := by
  refine ⟨_, normalize_decomposed, fun h => ?_⟩
  obtain ⟨j', hj', hsame⟩ := h.again
  obtain rfl : .obj [("a", .str "\u00e9")] = j' := Option.some.inj hj'
  have hmembers := Json.obj.inj hsame
  simp [sortKeysMembers, Json.sortKeys, sortByKey] at hmembers

end Xtrax.NormalForm
