import Xtrax.Freshness
import Xtrax.PyJson
import Xtrax.Results

/-!
# Node metadata

The slots of node metadata: how `load_node_metadata_schema` reads them from a TOML document, and
what `validate_node_metadata` accepts under them.  A length that is a boolean passes as an integer,
as it does in Python.
-/

namespace Xtrax.NodeMetadata

open Except List

open Toml (Value Entries)
open Freshness (strip)
open PyJson (PyStr PyVal py)

/-! ### The schema -/

/-- An `int` of Python: its booleans are integers. -/
inductive PyInt
  | bool (b : Bool)
  | int (n : Int)
  deriving DecidableEq

def PyInt.value : PyInt → Int
  | bool b => b.toInt
  | int n => n

/-- `KNOWN_SLOT_TYPES`. -/
inductive SlotType
  | string | array | object | enum
  deriving DecidableEq

def SlotType.ofName : String → Option SlotType
  | "string" => some .string
  | "array" => some .array
  | "object" => some .object
  | "enum" => some .enum
  | _ => none

/-- `SlotDefinition`, as the loader makes it: a length is positive, and arrays hold citations. -/
structure SlotDefinition where
  id : String
  required : Bool
  type : SlotType
  minLength : Option PyInt
  positive : ∀ n, minLength = some n → 1 ≤ n.value
  values : Option (List String)
  fields : Option (Dict String String)
  itemType : Option String
  citations : type = .array → itemType = some "citation"

/-- `NodeMetadataSchema`, as the loader makes it: no two slots have one id. -/
structure NodeMetadataSchema where
  version : String
  schemaVersion : String
  slots : List SlotDefinition
  distinct : (slots.map SlotDefinition.id).Nodup

/-! ### The loader -/

/-- What an error of the loader is about: `schema`, or `slots[index]`. -/
inductive Context
  | schema
  | slot (index : Nat)
  deriving DecidableEq

/-- The errors of the loader, with what their messages show. -/
inductive SchemaError (F : Type)
  | schemaTable
  | version (v : String)
  | slotList
  | slotTable (index : Nat)
  | duplicateSlots
  | missingString (context : Context) (key : String)
  | emptyList (context : Context) (key : String)
  | emptyEntry (context : Context) (key : String)
  | unknownType (context : Context) (type : String)
  | required (context : Context)
  | minLength (context : Context)
  | enumValues (context : Context)
  | objectFields (context : Context)
  | fieldName (context : Context)
  | fieldType (context : Context) (type : Value F) (name : String)
  | itemType (context : Context) (type : String)

section Loader

variable {F : Type}

/-- `data.get(key)` -/
def get (data : Entries F) (key : String) : Option (Value F) := data.lookup key

/-- `not s.strip()` -/
def isBlank (s : String) : Bool := strip s = ""

def requireStr (data : Entries F) (key : String) (context : Context) :
    Except (SchemaError F) String :=
  match get data key with
  | some (.text s) => if isBlank s then .error (.missingString context key) else .ok (strip s)
  | _ => .error (.missingString context key)

def requireStrList (data : Entries F) (key : String) (context : Context) :
    Except (SchemaError F) (List String) :=
  match get data key with
  | some (.array (item :: items)) => (item :: items).mapM fun
    | .text s => if isBlank s then .error (.emptyEntry context key) else .ok (strip s)
    | _ => .error (.emptyEntry context key)
  | _ => .error (.emptyList context key)

def parseType (raw : Entries F) (context : Context) : Except (SchemaError F) SlotType := do
  let typeName ← requireStr raw "type" context
  match SlotType.ofName typeName with
  | some type => return type
  | none => throw (.unknownType context typeName)

def parseRequired (raw : Entries F) (context : Context) : Except (SchemaError F) Bool :=
  match get raw "required" with
  | some (.boolean b) => .ok b
  | _ => .error (.required context)

/-- The minimal length of a slot: `isinstance(True, int)` holds. -/
def parseMinLength (raw : Entries F) (context : Context) :
    Except (SchemaError F) (Option {n : PyInt // 1 ≤ n.value}) :=
  let positive (n : PyInt) : Except (SchemaError F) (Option {n : PyInt // 1 ≤ n.value}) :=
    if h : n.value < 1 then .error (.minLength context) else .ok (some ⟨n, by omega⟩)
  match get raw "min_length" with
  | none => .ok none
  | some (.integer n) => positive (.int n)
  | some (.boolean b) => positive (.bool b)
  | some _ => .error (.minLength context)

/-- The values of an enumeration. -/
def parseValues (raw : Entries F) (type : SlotType) (context : Context) :
    Except (SchemaError F) (Option (List String)) :=
  if type = .enum then
    match get raw "values" with
    | some (.array (_ :: _)) => some <$> requireStrList raw "values" context
    | _ => .error (.enumValues context)
  else .ok none

/-- One field of an object slot, added under its stripped name. -/
def addField (context : Context) (fields : Dict String String) (field : String × Value F) :
    Except (SchemaError F) (Dict String String) :=
  if isBlank field.1 then .error (.fieldName context)
  else if field.2.isText "string" then .ok (fields.set (strip field.1) "string")
  else .error (.fieldType context field.2 field.1)

/-- The fields of an object. -/
def parseFields (raw : Entries F) (type : SlotType) (context : Context) :
    Except (SchemaError F) (Option (Dict String String)) :=
  if type = .object then
    match get raw "fields" with
    | some (.table (field :: fields)) => some <$> (field :: fields).foldlM (addField context) ∅
    | _ => .error (.objectFields context)
  else .ok none

def parseItemType (raw : Entries F) (type : SlotType) (context : Context) :
    Except (SchemaError F) {o : Option String // type = .array → o = some "citation"} :=
  if harray : type = .array then do
    let itemType ← requireStr raw "item_type" context
    if hcitation : itemType = "citation" then return ⟨some itemType, fun _ => by rw [hcitation]⟩
    else throw (.itemType context itemType)
  else return ⟨none, fun h => absurd h harray⟩

def parseSlot (raw : Entries F) (index : Nat) : Except (SchemaError F) SlotDefinition := do
  let id ← requireStr raw "id" (.slot index)
  let type ← parseType raw (.slot index)
  let required ← parseRequired raw (.slot index)
  let minLength ← parseMinLength raw (.slot index)
  let values ← parseValues raw type (.slot index)
  let fields ← parseFields raw type (.slot index)
  let itemType ← parseItemType raw type (.slot index)
  return { id, required, type, values, fields
           itemType := itemType.val
           citations := itemType.property
           minLength := minLength.map Subtype.val
           positive := fun n hn => by
             obtain ⟨m, -, rfl⟩ := Option.map_eq_some_iff.mp hn
             exact m.2 }

/-- `SEMVER_RE.match`, over the characters that `\d` takes; the version has no blank at its end. -/
def isSemver (isDecimal : Char → Bool) (version : String) : Bool :=
  let number (text : List Char) : Option (List Char) :=
    match text.span isDecimal with
    | ([], _) => none
    | (_, rest) => some rest
  let point (text : List Char) : Option (List Char) :=
    match text with
    | '.' :: rest => some rest
    | _ => none
  match number version.toList >>= point >>= number >>= point >>= number with
  | some [] => true
  | some ('-' :: tag) => !tag.isEmpty && tag.all fun c => c.isAlphanum || c = '.'
  | _ => false

def parseSlots (raw : List (Value F)) : Except (SchemaError F) (List SlotDefinition) :=
  raw.zipIdx.mapM fun
    | (.table item, index) => parseSlot item index
    | (_, index) => .error (.slotTable index)

/-- The table `[schema]`: its version and its schema version. -/
def parseVersions (isDecimal : Char → Bool) (data : Entries F) :
    Except (SchemaError F) (String × String) :=
  match get data "schema" with
  | some (.table schemaRaw) => do
    let version ← requireStr schemaRaw "version" .schema
    if isSemver isDecimal version then
      let schemaVersion ← requireStr schemaRaw "schema_version" .schema
      return (version, schemaVersion)
    else throw (.version version)
  | _ => .error .schemaTable

def slotList (data : Entries F) : Except (SchemaError F) (List (Value F)) :=
  match get data "slots" with
  | some (.array (item :: items)) => .ok (item :: items)
  | _ => .error .slotList

/-- `load_node_metadata_schema`, of what `tomllib.loads` gives. -/
def loadNodeMetadataSchema (isDecimal : Char → Bool) (data : Entries F) :
    Except (SchemaError F) NodeMetadataSchema := do
  let (version, schemaVersion) ← parseVersions isDecimal data
  let raw ← slotList data
  let slots ← parseSlots raw
  if distinct : (slots.map SlotDefinition.id).Nodup then
    return { version, schemaVersion, slots, distinct }
  else throw .duplicateSlots

/-! ### What the loader takes from a document -/

open Results (bind_eq_ok exists_of_forall₂ mapM_eq_ok)

theorem requireStr_eq_ok {raw : Entries F} {key s : String} {context : Context}
    (h : requireStr raw key context = .ok s) : ∃ t, get raw key = some (.text t) ∧ s = strip t := by
  unfold requireStr at h
  split at h
  · rename_i t ht
    split_ifs at h
    exact ⟨t, ht, (ok.inj h).symm⟩
  · cases h

theorem parseMinLength_eq_ok {raw : Entries F} {context : Context}
    {minLength : Option {n : PyInt // 1 ≤ n.value}}
    (h : parseMinLength raw context = .ok minLength) :
    minLength.map Subtype.val = (get raw "min_length").bind fun
      | .integer n => some (.int n)
      | .boolean b => some (.bool b)
      | _ => none := by
  unfold parseMinLength at h
  dsimp only at h
  split at h
  · rename_i hnone
    obtain rfl := ok.inj h
    rw [hnone]
    rfl
  · rename_i n hn
    split_ifs at h
    obtain rfl := ok.inj h
    rw [hn]
    rfl
  · rename_i b hb
    split_ifs at h
    obtain rfl := ok.inj h
    rw [hb]
    rfl
  · cases h

theorem parseType_eq_ok {raw : Entries F} {context : Context} {type : SlotType}
    (h : parseType raw context = .ok type) :
    ∃ t, get raw "type" = some (.text t) ∧ SlotType.ofName (strip t) = some type := by
  obtain ⟨typeName, hname, h⟩ := bind_eq_ok.mp h
  obtain ⟨t, ht, rfl⟩ := requireStr_eq_ok hname
  split at h
  · rename_i hsome
    obtain rfl := ok.inj h
    exact ⟨t, ht, hsome⟩
  · cases h

theorem parseSlot_eq_ok {raw : Entries F} {index : Nat} {slot : SlotDefinition}
    (h : parseSlot raw index = .ok slot) :
    (∃ t, get raw "type" = some (.text t) ∧ SlotType.ofName (strip t) = some slot.type) ∧
      slot.minLength = (get raw "min_length").bind fun
        | .integer n => some (.int n)
        | .boolean b => some (.bool b)
        | _ => none := by
  obtain ⟨id, -, h⟩ := bind_eq_ok.mp h
  obtain ⟨type, htype, h⟩ := bind_eq_ok.mp h
  obtain ⟨required, -, h⟩ := bind_eq_ok.mp h
  obtain ⟨minLength, hlength, h⟩ := bind_eq_ok.mp h
  obtain ⟨values, -, h⟩ := bind_eq_ok.mp h
  obtain ⟨fields, -, h⟩ := bind_eq_ok.mp h
  obtain ⟨itemType, -, h⟩ := bind_eq_ok.mp h
  obtain rfl := ok.inj h
  exact ⟨parseType_eq_ok htype, parseMinLength_eq_ok hlength⟩

theorem parseSlots_eq_ok {raw : List (Value F)} {slots : List SlotDefinition}
    (h : parseSlots raw = .ok slots) : List.Forall₂ (fun item slot => ∃ entries index,
      item = .table entries ∧ parseSlot entries index = .ok slot) raw slots := by
  have hpairs := mapM_eq_ok.mp h
  have hraw : raw = raw.zipIdx.map Prod.fst := zipIdx_map_fst 0 raw |>.symm
  rw [hraw, forall₂_map_left_iff]
  refine hpairs.imp ?_
  rintro ⟨item, index⟩ slot hslot
  cases item with
  | table entries => exact ⟨entries, index, rfl, hslot⟩
  | _ => cases hslot

theorem loadNodeMetadataSchema_eq_ok {isDecimal : Char → Bool} {data : Entries F}
    {schema : NodeMetadataSchema} (h : loadNodeMetadataSchema isDecimal data = .ok schema) :
    ∃ raw, get data "slots" = some (.array raw) ∧ parseSlots raw = .ok schema.slots := by
  obtain ⟨versions, -, h⟩ := bind_eq_ok.mp h
  obtain ⟨raw, hraw, h⟩ := bind_eq_ok.mp h
  obtain ⟨slots, hslots, h⟩ := bind_eq_ok.mp h
  split_ifs at h
  obtain rfl := ok.inj h
  refine ⟨raw, ?_, hslots⟩
  unfold slotList at hraw
  split at hraw
  · rename_i hget
    obtain rfl := ok.inj hraw
    exact hget
  · cases hraw

/-- The length of a string slot is a boolean. -/
def BooleanLength (slot : SlotDefinition) : Prop :=
  slot.type = .string ∧ ∃ b, slot.minLength = some (.bool b)

/-- The table of a string slot whose `min_length` is a boolean. -/
def BooleanTable (raw : Entries F) : Prop :=
  (∃ t, get raw "type" = some (.text t) ∧ strip t = "string") ∧
    ∃ b, get raw "min_length" = some (.boolean b)

theorem SlotType.ofName_eq_string {name : String} :
    SlotType.ofName name = some .string ↔ name = "string" := by
  unfold SlotType.ofName
  split <;> simp_all

theorem booleanLength_iff {raw : Entries F} {index : Nat} {slot : SlotDefinition}
    (h : parseSlot raw index = .ok slot) : BooleanLength slot ↔ BooleanTable raw := by
  obtain ⟨⟨t, ht, htype⟩, hlength⟩ := parseSlot_eq_ok h
  have hstring : slot.type = .string ↔ ∃ t, get raw "type" = some (.text t) ∧ strip t = "string" := by
    constructor
    · intro hslot
      rw [hslot] at htype
      exact ⟨t, ht, SlotType.ofName_eq_string.mp htype⟩
    · rintro ⟨t', ht', hstrip⟩
      rw [ht] at ht'
      obtain rfl := Value.text.inj (Option.some.inj ht')
      rw [hstrip] at htype
      exact (Option.some.inj htype).symm
  have hboolean : (∃ b, slot.minLength = some (.bool b)) ↔
      ∃ b, get raw "min_length" = some (.boolean b) := by
    rw [hlength]
    cases get raw "min_length" with
    | none => exact iff_of_false nofun nofun
    | some v => cases v <;> simp
  exact and_congr hstring hboolean

/-- The document has a string slot whose `min_length` is a boolean. -/
def HasBooleanLength (data : Entries F) : Prop :=
  ∃ raw, get data "slots" = some (.array raw) ∧ ∃ entries, .table entries ∈ raw ∧
    BooleanTable entries

theorem hasBooleanLength_iff {isDecimal : Char → Bool} {data : Entries F}
    {schema : NodeMetadataSchema} (h : loadNodeMetadataSchema isDecimal data = .ok schema) :
    HasBooleanLength data ↔ ∃ slot ∈ schema.slots, BooleanLength slot := by
  obtain ⟨raw, hraw, hslots⟩ := loadNodeMetadataSchema_eq_ok h
  have hpairs := parseSlots_eq_ok hslots
  constructor
  · rintro ⟨raw', hraw', entries, hmem, htable⟩
    rw [hraw] at hraw'
    obtain rfl := Value.array.inj (Option.some.inj hraw')
    obtain ⟨slot, hslot, entries', index, heq, hparse⟩ := exists_of_forall₂ hpairs hmem
    obtain rfl := Value.table.inj heq
    exact ⟨slot, hslot, (booleanLength_iff hparse).mpr htable⟩
  · rintro ⟨slot, hslot, hlength⟩
    obtain ⟨item, hitem, entries, index, rfl, hparse⟩ := exists_of_forall₂ hpairs.flip hslot
    exact ⟨raw, hraw, entries, hitem, (booleanLength_iff hparse).mp hlength⟩

end Loader

/-! ### The validator -/

/-- What an error is about: `key`, `key[index]` or `key.name`. -/
inductive Place
  | slot (key : PyStr)
  | item (key : PyStr) (index : Nat)
  | field (key : PyStr) (name : String)
  deriving DecidableEq

inductive Problem
  | expectedString
  | short (minLength : PyInt)
  | expectedOneOf (allowed : List String)
  | expectedArray
  | expectedObject
  | citationObject
  | citationText
  | expectedText
  deriving DecidableEq

/-- The errors of `validate_node_metadata`. -/
inductive MetadataError
  | unknownSlots (keys : List PyStr)
  | missingSlot (id : String)
  | value (place : Place) (problem : Problem)
  deriving DecidableEq

/-- `str.isspace`, of a code point. -/
def isSpace (c : CodePoint) : Bool := Engine.isSpace (Char.ofNat c.val)

def stripped (s : PyStr) : PyStr :=
  ((s.dropWhile isSpace).reverse.dropWhile isSpace).reverse

/-- A string that is not blank stands under the key. -/
def hasText (entries : List (PyStr × PyVal)) (key : String) : Bool :=
  match entries.lookup (py key) with
  | some (.str s) => !(stripped s).isEmpty
  | _ => false

def validateCitation (place : Place) : PyVal → Except MetadataError Unit
  | .dict entries =>
    if hasText entries "doi" || hasText entries "url" || hasText entries "text" then .ok ()
    else .error (.value place .citationText)
  | _ => .error (.value place .citationObject)

def validateSlotValue (slot : SlotDefinition) (key : PyStr) (v : PyVal) :
    Except MetadataError Unit :=
  let fail (problem : Problem) : Except MetadataError Unit := .error (.value (.slot key) problem)
  match slot.type, v with
  | .string, .str s =>
    match slot.minLength with
    | some n => if ((stripped s).length : Int) < n.value then fail (.short n) else .ok ()
    | none => .ok ()
  | .string, _ => fail .expectedString
  | .enum, .str s =>
    if s ∈ (slot.values.getD []).map py then .ok () else fail (.expectedOneOf (slot.values.getD []))
  | .enum, _ => fail (.expectedOneOf (slot.values.getD []))
  | .array, .list vs =>
    if slot.itemType = some "citation" then
      vs.zipIdx.forM fun (item, index) => validateCitation (.item key index) item
    else .ok ()
  | .array, _ => fail .expectedArray
  | .object, .dict entries =>
    match slot.fields with
    | some fields => fields.entries.forM fun (name, _) =>
      if hasText entries name then .ok () else .error (.value (.field key name) .expectedText)
    | none => .ok ()
  | .object, _ => fail .expectedObject

/-- `slots_by_id` -/
def NodeMetadataSchema.slot? (schema : NodeMetadataSchema) (key : PyStr) : Option SlotDefinition :=
  schema.slots.find? fun slot => py slot.id = key

/-- `validate_node_metadata`, of a dictionary. -/
def validateNodeMetadata (schema : NodeMetadataSchema) (metadata : List (PyStr × PyVal)) :
    Except MetadataError Unit := do
  let unknown := (metadata.map Prod.fst).filter fun key => (schema.slot? key).isNone
  if unknown ≠ [] then
    throw (.unknownSlots (unknown.mergeSort fun a b => !decide (b < a)))
  schema.slots.forM fun slot =>
    if slot.required ∧ py slot.id ∉ metadata.map Prod.fst then .error (.missingSlot slot.id)
    else .ok ()
  metadata.forM fun (key, v) =>
    match schema.slot? key with
    | some slot => validateSlotValue slot key v
    -- no key is unknown here
    | none => .ok ()

/-! ### What is accepted -/

open Results (bind_eq_ok forM_eq_ok)

theorem length_stripped (s : PyStr) : (stripped s).length ≤ s.length := by
  have hdrop : ∀ s : PyStr, (s.dropWhile isSpace).length ≤ s.length :=
    fun s => (dropWhile_suffix _).length_le
  calc (stripped s).length
      = ((s.dropWhile isSpace).reverse.dropWhile isSpace).length := length_reverse
    _ ≤ (s.dropWhile isSpace).reverse.length := hdrop _
    _ = (s.dropWhile isSpace).length := length_reverse
    _ ≤ s.length := hdrop s

theorem exists_of_hasText {entries : List (PyStr × PyVal)} {key : String}
    (h : hasText entries key = true) : ∃ s, entries.lookup (py key) = some (.str s) := by
  unfold hasText at h
  split at h
  · exact ⟨_, ‹_›⟩
  · cases h

theorem validateCitation_ok {place : Place} {v : PyVal} (h : validateCitation place v = .ok ()) :
    ∃ entries, v = .dict entries := by
  unfold validateCitation at h
  split at h
  · exact ⟨_, rfl⟩
  · cases h

/-- What an accepted value of a slot is. -/
def Fits (slot : SlotDefinition) (v : PyVal) : Prop :=
  match slot.type with
  | .string => ∃ s, v = .str s ∧ ∀ n, slot.minLength = some n → n.value ≤ s.length
  | .enum => ∃ s, v = .str s ∧ s ∈ (slot.values.getD []).map py
  | .array => ∃ vs, v = .list vs ∧ ∀ item ∈ vs, ∃ entries, item = .dict entries
  | .object => ∃ entries, v = .dict entries ∧ ∀ fields, slot.fields = some fields →
      ∀ field ∈ fields.entries, ∃ s, entries.lookup (py field.1) = some (.str s)

theorem fits_of_validate {slot : SlotDefinition} {key : PyStr} {v : PyVal}
    (h : validateSlotValue slot key v = .ok ()) : Fits slot v := by
  unfold validateSlotValue at h
  unfold Fits
  cases htype : slot.type with
  | string =>
    rw [htype] at h
    cases v with
    | str s =>
      refine ⟨s, rfl, fun n hn => ?_⟩
      have hlength := length_stripped s
      simp only [hn] at h
      split at h
      · cases h
      · omega
    | _ => cases h
  | enum =>
    rw [htype] at h
    cases v with
    | str s =>
      refine ⟨s, rfl, ?_⟩
      dsimp only at h
      split at h
      · assumption
      · cases h
    | _ => cases h
  | array =>
    rw [htype] at h
    cases v with
    | list vs =>
      refine ⟨vs, rfl, fun item hitem => ?_⟩
      simp only [slot.citations htype, if_true] at h
      obtain ⟨index, hindex⟩ := mem_iff_getElem?.mp hitem
      exact validateCitation_ok (forM_eq_ok h (item, index) (mk_mem_zipIdx_iff_getElem?.mpr hindex))
    | _ => cases h
  | object =>
    rw [htype] at h
    cases v with
    | dict entries =>
      refine ⟨entries, rfl, fun fields hfields field hfield => ?_⟩
      simp only [hfields] at h
      have hone := forM_eq_ok h field hfield
      split at hone
      · exact exists_of_hasText ‹_›
      · cases hone
    | _ => cases h

theorem slot?_eq_some {schema : NodeMetadataSchema} {key : PyStr} {slot : SlotDefinition}
    (h : schema.slot? key = some slot) : slot ∈ schema.slots ∧ py slot.id = key := by
  have hkey := find?_some h
  exact ⟨mem_of_find?_eq_some h, of_decide_eq_true hkey⟩

/-- Accepted metadata has the required slots, and every value fits a slot of its key. -/
structure Accepted (schema : NodeMetadataSchema) (metadata : List (PyStr × PyVal)) : Prop where
  required : ∀ slot ∈ schema.slots, slot.required = true → py slot.id ∈ metadata.map Prod.fst
  fits : ∀ e ∈ metadata, ∃ slot, schema.slot? e.1 = some slot ∧ Fits slot e.2

theorem accepted_of_validate {schema : NodeMetadataSchema} {metadata : List (PyStr × PyVal)}
    (h : validateNodeMetadata schema metadata = .ok ()) : Accepted schema metadata := by
  unfold validateNodeMetadata at h
  dsimp only at h
  split at h
  · cases h
  · rename_i hknown
    obtain ⟨_, hrequired, hvalues⟩ := bind_eq_ok.mp h
    refine ⟨fun slot hslot hreq => ?_, fun e he => ?_⟩
    · have hone := forM_eq_ok hrequired slot hslot
      by_contra hmissing
      rw [if_pos ⟨hreq, hmissing⟩] at hone
      cases hone
    · have hone := forM_eq_ok hvalues e he
      cases hslot : schema.slot? e.1 with
      | some slot =>
        simp only [hslot] at hone
        exact ⟨slot, rfl, fits_of_validate hone⟩
      | none =>
        -- an unknown key was refused before
        have hmem : e.1 ∈ (metadata.map Prod.fst).filter fun key => (schema.slot? key).isNone :=
          mem_filter.mpr ⟨mem_map_of_mem he, by rw [hslot]; rfl⟩
        rw [not_not.mp hknown] at hmem
        cases hmem

end Xtrax.NodeMetadata
