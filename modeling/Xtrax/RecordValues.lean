import Xtrax.PyValue
import Xtrax.ZarrStagedDigest

/-! # Records of Python values, read back

`write_unit_record` and `commit_key` take mappings of Python values.  The digest of a record is taken
over normalized copies, and what is stored is the JSON text: of the values as they are in a unit's
`unit.json`, and in a committed group's attributes of the normalized payload and metadata and of the
environment as it is.
-/
namespace Xtrax.RecordValues

open Results List Option PyValue ZarrDigest ZarrRecord

/-- A mapping whose keys are names. -/
abbrev Fields := List (String × Value)

def Fields.value (fields : Fields) : Value := .dict (fields.map fun e => (.string e.1, e.2))

def Fields.withDigest (fields : Fields) (digest : String) : Fields :=
  fields ++ [("record_digest", .str digest)]

/-! ## The record of a unit -/

def coreStrFields : List String := ["input_digest", "content_digest", "run_id", "committed_at"]

def coreDictFields : List String := ["input_payload", "meta", "env"]

def coreFields : List String :=
  ["input_digest", "input_payload", "meta", "content_digest", "run_id", "env", "committed_at"]

/-- What `record_problem` finds. -/
inductive Problem
  | lacks (field : String)
  | notObject (field : String)
  /-- "record_digest does not match the record's core" -/
  | mismatch
  /-- A value that is not normalized; for bytes that are not UTF-8 the exception goes on. -/
  | value

inductive Refusal
  | hasRecord
  | artefacts (names : List String)
  | invalid (problem : Problem)
  | notJson
  /-- Whatever hashing the members or normalizing the values raises. -/
  | raised

section Unit

variable (nfc : String → String) (sha256 : List UInt8 → String)

/-- `{k: record.get(k) for k in _CORE_FIELDS}`. -/
def core (record : Fields) : Fields :=
  coreFields.map fun k => (k, (record.lookup k).getD .null)

/-- `compute_record_digest`, in the packing module.  Nothing where it raises. -/
def computeRecordDigest (record : Fields) : Option String :=
  (normalize nfc (core record).value).map fun core => sha256 (utf8 core.sortKeys.compact)

def lacksField (record : Fields) (field : String) : Bool :=
  match record.lookup field with
  | some (.str s) => s = "" && field ≠ "run_id"
  | _ => true

def notObject (record : Fields) (field : String) : Bool :=
  match record.lookup field with
  | some (.dict _) => false
  | _ => true

def hasDigest (record : Fields) (digest : String) : Bool :=
  match record.lookup "record_digest" with
  | some (.str s) => s = digest
  | _ => false

def recordProblem (record : Fields) : Option Problem :=
  match (coreStrFields ++ ["record_digest"]).find? (lacksField record) with
  | some field => some (.lacks field)
  | none =>
    match coreDictFields.find? (notObject record) with
    | some field => some (.notObject field)
    | none =>
      match computeRecordDigest nfc sha256 record with
      | none => some .value
      | some digest => if hasDigest record digest then none else some .mismatch

/-- The arguments of `write_unit_record`. -/
structure UnitArgs where
  inputDigest : String
  runId : String
  inputPayload : Option (List (Key × Value)) := none
  metadata : Option (List (Key × Value)) := none
  env : Option (List (Key × Value)) := none
  committedAt : Option String := none

/-- What `write_unit_record` finds: the unit's record, the files named like pack artefacts, the
digest of the members, the time, and whether another writer comes first. -/
structure UnitState where
  hasRecord : Bool
  artefacts : List String
  contentDigest : Option String
  now : String
  overtaken : Bool

/-- The record without its digest. -/
def UnitArgs.record (args : UnitArgs) (contentDigest now : String) : Fields :=
  [("schema", .str "xtrax.unit/1"), ("input_digest", .str args.inputDigest),
    ("input_payload", .dict (args.inputPayload.getD [])), ("meta", .dict (args.metadata.getD [])),
    ("content_digest", .str contentDigest), ("run_id", .str args.runId),
    ("env", .dict (args.env.getD [])),
    ("committed_at", .str (match args.committedAt with
      | none | some "" => now
      | some committedAt => committedAt))]

def writeUnitRecord (unit : UnitState) (args : UnitArgs) : Except Refusal Fields :=
  if unit.hasRecord then throw .hasRecord
  else if unit.artefacts ≠ [] then throw (.artefacts unit.artefacts)
  else
    match unit.contentDigest with
    | none => throw .raised
    | some contentDigest =>
      let record := args.record contentDigest unit.now
      match computeRecordDigest nfc sha256 (record.withDigest "-") with
      | none => throw .raised
      | some digest =>
        let record := record.withDigest digest
        match recordProblem nfc sha256 record with
        | some problem => throw (.invalid problem)
        | none =>
          if !(record.value.everywhere orderly && record.value.everywhere (jsonable false)) then
            throw .notJson
          else if unit.overtaken then throw .hasRecord
          else return record

/-- The record that is parsed from what `_pretty` wrote. -/
def parsed (record : Fields) : Fields :=
  match record.value.reread sortItems with
  | .obj kvs => kvs.map fun e => (e.1, ofJson e.2)
  | _ => []

def UnitArgs.mappings (args : UnitArgs) : List Value :=
  [.dict (args.inputPayload.getD []), .dict (args.metadata.getD []), .dict (args.env.getD [])]

end Unit

/-! ## The record of a key -/

/-- The arguments of `commit_key`, with what is staged and the time. -/
structure CommitArgs where
  inputDigest : String
  inputPayload : List (Key × Value) := []
  metadata : List (Key × Value) := []
  runId : String
  env : List (Key × Value)
  verifyDuplicate : Bool := false
  staged : Content
  stagedAttrs : Mapping := []
  now : String

/-- What `commit_key` comes to: the record and what is then at the key, or what it makes of a group
that is there. -/
inductive Returned
  | committed (record : Fields) (target : Dir)
  | existing (outcome : ZarrRecord.Outcome)

section Commit

-- the order in which zarr writes the members of a mapping, and whether it writes NaN
variable (nfc : String → String) (sha256 : List UInt8 → String) (content : Dir → Content)
  (written : Arrange) (allowNan : Bool)

/-- `dict(normalize_json_value(dict(m)) if m else {})`.  Nothing where this, or the digest of what it
gives, raises. -/
def normalizedMapping (m : List (Key × Value)) : Option Value :=
  if m = [] then some (.dict []) else (normalizeValue nfc (.dict m)).map ofJson

/-- `record_dict` before its digest is added. -/
def CommitArgs.recordDict (args : CommitArgs) (contentDigest : String) : Option Fields := do
  let inputPayload ← normalizedMapping nfc args.inputPayload
  let metadata ← normalizedMapping nfc args.metadata
  return [("input_digest", .str args.inputDigest), ("input_payload", inputPayload),
    ("meta", metadata), ("content_digest", .str contentDigest), ("run_id", .str args.runId),
    ("env", .dict args.env), ("committed_at", .str args.now)]

def canonicalDigest (payload : Fields) : Option String := do
  let normalized ← normalizeValue nfc payload.value
  let text ← normalized.dumps
  return sha256 (utf8 text)

/-- `record_dict`; absent where the digest, or writing it as an attribute, raises. -/
def CommitArgs.record (args : CommitArgs) (contentDigest : String) : Option Fields := do
  let recordDict ← args.recordDict nfc contentDigest
  let digest ← canonicalDigest nfc sha256 recordDict
  let record := recordDict.withDigest digest
  if record.value.everywhere (jsonable allowNan) then return record else none

/-- The arguments as far as a group that is there matters. -/
def CommitArgs.toExisting (args : CommitArgs) : ZarrRecord.CommitArgs where
  inputDigest := args.inputDigest
  runId := args.runId
  env := []
  verifyDuplicate := args.verifyDuplicate
  staged := args.staged
  now := args.now

def commitKey (root : Dir) (parents : List Dir) (target : Dir) (args : CommitArgs) :
    Except Raised Returned := do
  checkPrefix root parents
  match args.staged with
  | .raised | .damaged _ => throw .other
  | .digest contentDigest =>
    match args.record nfc sha256 allowNan contentDigest with
    | none => throw .other
    | some record =>
      match target with
      | .absent | .empty =>
        let attrs := args.stagedAttrs.filter fun e => e.1 != commitAttr
        return .committed record
          (.group (attrs ++ [(commitAttr, record.value.reread written)]))
      | target => return .existing (← onExisting nfc sha256 content target args.toExisting)

end Commit

/-! ## Fields -/

section Fields

variable {nfc : String → String} {sha256 : List UInt8 → String} {arrange written : Arrange}
  {fields : Fields}

theorem keys_value (name : Key → String) (hname : ∀ s, name (.string s) = s) :
    (fields.map fun e => ((.string e.1, e.2) : Key × Value)).map (fun e => name e.1) =
      fields.map (·.1) := by
  rw [List.map_map]
  exact List.map_congr_left fun e _ => hname e.1

theorem sortKeys_norm_value (harrange : Rearranges arrange) (hnames : (fields.map (·.1)).Nodup) :
    (fields.value.norm nfc arrange).sortKeys =
      .obj (sortByKey (fields.map fun e => (e.1, (e.2.norm nfc arrange).sortKeys))) := by
  rw [Fields.value, Value.norm, Json.sortKeys, sortKeysMembers_eq_map, normEntries_eq_map,
    sorted_members harrange Key.str Json.sortKeys (Value.norm nfc arrange)
      (by rw [keys_value Key.str fun _ => rfl]; exact hnames), List.map_map]
  rfl

theorem reread_value (hwritten : Rearranges written) (hnames : (fields.map (·.1)).Nodup) :
    ∃ kvs, fields.value.reread written = .obj kvs ∧
      kvs.Perm (fields.map fun e => (e.1, e.2.reread written)) := by
  have hperm := (hwritten (rereadEntries written
    (fields.map fun e => (.string e.1, e.2)))).map fun e => (e.1.written, e.2)
  rw [rereadEntries_eq_map, List.map_map, List.map_map] at hperm
  refine ⟨_, by rw [Fields.value, Value.reread], ?_⟩
  rw [rereadEntries_eq_map, List.map_map, entries_of_nodup]
  · exact hperm
  · refine (hperm.map (·.1)).nodup_iff.mpr ?_
    rw [List.map_map]
    exact hnames

/-- A mapping with names for keys is normalized to what it is read back as exactly if all its values
are. -/
theorem norm_value_eq_iff (harrange : Rearranges arrange) (hnames : (fields.map (·.1)).Nodup) :
    (fields.value.norm nfc arrange).sortKeys =
        normalizeJsonValue nfc (.obj (fields.map fun e => (e.1, e.2.reread written))) ↔
      ∀ e ∈ fields, Same nfc arrange written e.2 := by
  rw [sortKeys_norm_value harrange hnames, normalizeJsonValue, normalizeMembers_eq_map,
    List.map_map, Json.obj.injEq]
  exact sortByKey_map_inj hnames

theorem Fields.fit {allowNan : Bool} (h : Fit allowNan fields.value) :
    ∀ e ∈ fields, Fit allowNan e.2 := fun _ he => h.dict _ (mem_map_of_mem he)

end Fields

/-! ## A unit's record, parsed -/

section Unit

variable {nfc : String → String} {sha256 : List UInt8 → String} {record : Fields} {unit : UnitState}
  {args : UnitArgs}

/-- The record with its digest. -/
def UnitArgs.signed (args : UnitArgs) (contentDigest now digest : String) : Fields :=
  (args.record contentDigest now).withDigest digest

theorem writeUnitRecord_eq_ok (h : writeUnitRecord nfc sha256 unit args = .ok record) :
    ∃ contentDigest digest, record = args.signed contentDigest unit.now digest ∧
      computeRecordDigest nfc sha256 record = some digest ∧
      recordProblem nfc sha256 record = none ∧ Fit false record.value := by
  unfold writeUnitRecord at h
  split at h
  · cases h
  split at h
  · cases h
  split at h
  · cases h
  next contentDigest hcontent =>
  dsimp only at h
  split at h
  · cases h
  next digest hdigest =>
  split at h
  · cases h
  next hproblem =>
  split at h
  · cases h
  next hjson =>
  split at h
  · cases h
  · obtain rfl := Except.ok.inj h
    rw [Bool.not_eq_true', Bool.not_eq_false, Bool.and_eq_true] at hjson
    exact ⟨contentDigest, digest, rfl, hdigest, hproblem, hjson.1, hjson.2⟩

theorem names_signed (contentDigest now digest : String) :
    ((args.signed contentDigest now digest).map (·.1)).Nodup := by
  show ["schema", "input_digest", "input_payload", "meta", "content_digest", "run_id", "env",
    "committed_at", "record_digest"].Nodup
  decide

theorem lookup_parsed (hnames : (record.map (·.1)).Nodup) (k : String) :
    (parsed record).lookup k = (record.lookup k).map fun v => ofJson (v.reread sortItems) := by
  obtain ⟨kvs, hkvs, hperm⟩ := reread_value rearranges_sortItems hnames
  have hnames' : ((record.map fun e => (e.1, e.2.reread sortItems)).map Prod.fst).Nodup := by
    rw [List.map_map]
    exact hnames
  rw [parsed, hkvs]
  show (kvs.map fun e => (e.1, ofJson e.2)).lookup k = _
  rw [lookup_map, lookup_perm hnames' hperm, lookup_map (Value.reread sortItems), Option.map_map]
  rfl

theorem core_parsed (hnames : (record.map (·.1)).Nodup) :
    core (parsed record) = (core record).map fun e => (e.1, ofJson (e.2.reread sortItems)) := by
  rw [core, core, List.map_map]
  refine List.map_congr_left fun k _ => ?_
  rw [lookup_parsed hnames]
  show _ = (k, ofJson (((record.lookup k).getD .null).reread sortItems))
  cases record.lookup k <;> rfl

theorem names_core : ((core record).map (·.1)).Nodup := by
  show coreFields.Nodup
  decide

theorem jsonable_core (h : record.value.everywhere (jsonable false) = true) :
    ∀ e ∈ core record, e.2.everywhere (jsonable false) = true := by
  intro e he
  obtain ⟨k, -, rfl⟩ := mem_map.mp he
  show ((record.lookup k).getD .null).everywhere (jsonable false) = true
  cases hk : record.lookup k with
  | none => rfl
  | some v =>
    obtain ⟨front, back, hrecord, -⟩ := lookup_eq_some_iff.mp hk
    have hmem : (k, v) ∈ record := by
      rw [hrecord]
      exact mem_append_right _ mem_cons_self
    exact (everywhere_dict.mp h).2 _ (mem_map_of_mem hmem)

theorem jsonable_value {fields : Fields} (h : ∀ e ∈ fields, e.2.everywhere (jsonable false) = true) :
    fields.value.everywhere (jsonable false) = true := by
  refine everywhere_dict.mpr ⟨all_eq_true.mpr fun e he => ?_, fun e he => ?_⟩
  all_goals obtain ⟨e', he', rfl⟩ := mem_map.mp he
  · rfl
  · exact h e' he'

theorem computeRecordDigest_of_jsonable (h : ∀ e ∈ core record, e.2.everywhere (jsonable false) = true) :
    computeRecordDigest nfc sha256 record =
      some (sha256 (utf8 ((core record).value.norm nfc id).sortKeys.compact)) := by
  rw [computeRecordDigest, PyValue.normalize, if_pos (everywhere_normalizable (jsonable_value h))]
  rfl

/-- **The parsed record has the digest of the record** exactly if the values of its core are
normalized to the same after they were written. -/
theorem digest_parsed_iff (hsha : Function.Injective sha256) (hnames : (record.map (·.1)).Nodup)
    (h : record.value.everywhere (jsonable false) = true) :
    computeRecordDigest nfc sha256 (parsed record) = computeRecordDigest nfc sha256 record ↔
      ∀ e ∈ core record, Same nfc id sortItems e.2 := by
  have hcore := jsonable_core h
  have htidy : ∀ e ∈ core record, Tidy (e.2.reread sortItems) := fun e he =>
    tidy_reread rearranges_sortItems e.2 (hcore e he)
  have hparsed : ∀ e ∈ core (parsed record), e.2.everywhere (jsonable false) = true := by
    rw [core_parsed hnames]
    intro e he
    obtain ⟨e', he', rfl⟩ := List.mem_map.mp he
    exact (htidy e' he').fit.jsonable
  have hfinite : ∀ {fields : Fields}, (∀ e ∈ fields, e.2.everywhere (jsonable false) = true) →
      (fields.value.norm nfc id).sortKeys.finite = true := by
    intro fields hall
    rw [finite_sortKeys, finite_norm nfc rearranges_id _ (jsonable_value hall)]
  have hread : ((core (parsed record)).value.norm nfc id).sortKeys =
      normalizeJsonValue nfc (.obj ((core record).map fun e => (e.1, e.2.reread sortItems))) := by
    rw [sortKeys_norm_value rearranges_id names_core, core_parsed hnames, normalizeJsonValue,
      normalizeMembers_eq_map, List.map_map, List.map_map]
    have hmembers : ∀ e ∈ core record, (e.1, ((ofJson (e.2.reread sortItems)).norm nfc id).sortKeys) =
        (e.1, normalizeJsonValue nfc (e.2.reread sortItems)) := fun e he => by
      rw [(htidy e he).norm nfc rearranges_id]
    exact congrArg (fun members => Json.obj (sortByKey members)) (List.map_congr_left hmembers)
  rw [computeRecordDigest_of_jsonable hcore, computeRecordDigest_of_jsonable hparsed, Option.some.injEq,
    ← norm_value_eq_iff rearranges_id names_core, ← hread]
  constructor
  · intro heq
    have htext := utf8_injective (hsha heq)
    refine (compact_append_inj _ _ [] [] (hfinite hcore) (hfinite hparsed) ends_nil ends_nil ?_).1
    rw [htext]
  · intro heq
    rw [heq]

theorem core_signed (contentDigest now digest : String) :
    ∃ committedAt, core (args.signed contentDigest now digest) =
      [("input_digest", .str args.inputDigest), ("input_payload", .dict (args.inputPayload.getD [])),
        ("meta", .dict (args.metadata.getD [])), ("content_digest", .str contentDigest),
        ("run_id", .str args.runId), ("env", .dict (args.env.getD [])),
        ("committed_at", .str committedAt)] := ⟨_, rfl⟩

theorem same_core_iff (contentDigest now digest : String) :
    (∀ e ∈ core (args.signed contentDigest now digest), Same nfc id sortItems e.2) ↔
      ∀ v ∈ args.mappings, Same nfc id sortItems v := by
  obtain ⟨committedAt, hcore⟩ := core_signed contentDigest now digest
  have hstr : ∀ s, Same nfc id sortItems (.str s) := fun _ => rfl
  rw [hcore, UnitArgs.mappings]
  simp [hstr]

theorem recordProblem_eq_none : recordProblem nfc sha256 record = none ↔
    (∀ field ∈ coreStrFields ++ ["record_digest"], lacksField record field = false) ∧
      (∀ field ∈ coreDictFields, notObject record field = false) ∧
      ∃ digest, computeRecordDigest nfc sha256 record = some digest ∧
        hasDigest record digest = true := by
  unfold recordProblem
  cases hstr : (coreStrFields ++ ["record_digest"]).find? (lacksField record) with
  | some field =>
    constructor
    · intro h
      cases h
    · intro h
      have hlacks := h.1 field (mem_of_find?_eq_some hstr)
      rw [find?_some hstr] at hlacks
      cases hlacks
  | none =>
    have hstr := fun field hfield => Bool.eq_false_of_not_eq_true
      (find?_eq_none.mp hstr field hfield)
    cases hdict : coreDictFields.find? (notObject record) with
    | some field =>
      constructor
      · intro h
        cases h
      · intro h
        have hobject := h.2.1 field (mem_of_find?_eq_some hdict)
        rw [find?_some hdict] at hobject
        cases hobject
    | none =>
      have hdict := fun field hfield => Bool.eq_false_of_not_eq_true
        (find?_eq_none.mp hdict field hfield)
      cases hdigest : computeRecordDigest nfc sha256 record with
      | none => simp
      | some digest =>
        constructor
        · intro h
          by_cases hverifies : hasDigest record digest = true
          · exact ⟨hstr, hdict, digest, rfl, hverifies⟩
          · simp [hverifies] at h
        · rintro ⟨-, -, digest', heq, hverifies⟩
          obtain rfl := some.inj heq
          simp [hverifies]

theorem fields_parsed (hnames : (record.map (·.1)).Nodup) (k : String) :
    lacksField (parsed record) k = lacksField record k ∧
      notObject (parsed record) k = notObject record k ∧
      ∀ digest, hasDigest (parsed record) digest = hasDigest record digest := by
  have hvalue : ∀ k, (parsed record).lookup k = none ∧ record.lookup k = none ∨
      ∃ v, (parsed record).lookup k = some (ofJson (v.reread sortItems)) ∧
        record.lookup k = some v := by
    intro k
    rw [lookup_parsed hnames]
    cases record.lookup k with
    | none => exact .inl ⟨rfl, rfl⟩
    | some v => exact .inr ⟨v, rfl, rfl⟩
  refine ⟨?_, ?_, fun digest => ?_⟩
  · rw [lacksField, lacksField]
    rcases hvalue k with ⟨hparsed, hk⟩ | ⟨v, hparsed, hk⟩
    · rw [hparsed, hk]
    · rw [hparsed, hk]
      cases v <;> rfl
  · rw [notObject, notObject]
    rcases hvalue k with ⟨hparsed, hk⟩ | ⟨v, hparsed, hk⟩
    · rw [hparsed, hk]
    · rw [hparsed, hk]
      cases v <;> rfl
  · rw [hasDigest, hasDigest]
    rcases hvalue "record_digest" with ⟨hparsed, hk⟩ | ⟨v, hparsed, hk⟩
    · rw [hparsed, hk]
    · rw [hparsed, hk]
      cases v <;> rfl

theorem recordProblem_parsed {contentDigest now digest : String}
    (hrecord : record = args.signed contentDigest now digest)
    (hdigest : computeRecordDigest nfc sha256 record = some digest)
    (hproblem : recordProblem nfc sha256 record = none) :
    recordProblem nfc sha256 (parsed record) = none ↔
      computeRecordDigest nfc sha256 (parsed record) = computeRecordDigest nfc sha256 record := by
  have hnames : (record.map (·.1)).Nodup := by
    rw [hrecord]
    exact names_signed contentDigest now digest
  have hhas : ∀ digest', hasDigest record digest' = true ↔ digest' = digest := by
    intro digest'
    have hlookup : record.lookup "record_digest" = some (.str digest) := by
      rw [hrecord]
      rfl
    rw [hasDigest, hlookup]
    exact decide_eq_true_iff.trans eq_comm
  obtain ⟨hstr, hdict, -⟩ := recordProblem_eq_none.mp hproblem
  rw [recordProblem_eq_none, hdigest]
  constructor
  · rintro ⟨-, -, digest', hdigest', hverifies⟩
    rw [(fields_parsed hnames "").2.2, hhas] at hverifies
    rw [hdigest', hverifies]
  · intro hsame
    refine ⟨fun field hfield => ?_, fun field hfield => ?_, digest, hsame, ?_⟩
    · rw [(fields_parsed hnames field).1]
      exact hstr field hfield
    · rw [(fields_parsed hnames field).2.1]
      exact hdict field hfield
    · rw [(fields_parsed hnames "").2.2, hhas]

/-- **The record that is parsed from a written one** has no problem exactly if its mappings are
normalized to the same after they were written. -/
theorem recordProblem_written_iff (hsha : Function.Injective sha256)
    (h : writeUnitRecord nfc sha256 unit args = .ok record) :
    recordProblem nfc sha256 (parsed record) = none ↔
      ∀ v ∈ args.mappings, Same nfc id sortItems v := by
  obtain ⟨contentDigest, digest, hrecord, hdigest, hproblem, hfit⟩ := writeUnitRecord_eq_ok h
  have hnames : (record.map (·.1)).Nodup := by
    rw [hrecord]
    exact names_signed contentDigest unit.now digest
  rw [recordProblem_parsed hrecord hdigest hproblem, digest_parsed_iff hsha hnames hfit.jsonable,
    hrecord, same_core_iff]

theorem fit_mappings (h : writeUnitRecord nfc sha256 unit args = .ok record) :
    ∀ v ∈ args.mappings, Fit false v := by
  obtain ⟨contentDigest, digest, rfl, -, -, hfit⟩ := writeUnitRecord_eq_ok h
  have hmem : ∀ v ∈ args.mappings, ∃ e ∈ args.signed contentDigest unit.now digest, e.2 = v := by
    simp [UnitArgs.mappings, UnitArgs.signed, UnitArgs.record, Fields.withDigest]
  intro v hv
  obtain ⟨e, he, rfl⟩ := hmem v hv
  exact Fields.fit hfit e he

end Unit

/-! ## A key's record, read back -/

section Commit

variable {nfc : String → String} {sha256 : List UInt8 → String} {content : Dir → Content}
  {written : Arrange} {allowNan : Bool} {args : CommitArgs} {root target target' : Dir}
  {parents : List Dir} {record : Fields}

/-- The record before it has a digest. -/
def CommitArgs.unsigned (args : CommitArgs) (contentDigest : String) (inputPayload metadata : Value) :
    Fields :=
  [("input_digest", .str args.inputDigest), ("input_payload", inputPayload), ("meta", metadata),
    ("content_digest", .str contentDigest), ("run_id", .str args.runId), ("env", .dict args.env),
    ("committed_at", .str args.now)]

/-- A mapping that `normalizedMapping` gives. -/
def Normalized (nfc : String → String) (v : Value) : Prop :=
  v = .dict [] ∨ ∃ m, v = ofJson (Value.norm nfc sortItems m)

theorem normalized_of_eq_some {m : List (Key × Value)} {v : Value}
    (h : normalizedMapping nfc m = some v) : Normalized nfc v := by
  unfold normalizedMapping at h
  split at h
  · exact .inl (some.inj h).symm
  · obtain ⟨j, hj, rfl⟩ := map_eq_some_iff.mp h
    unfold normalizeValue at hj
    split at hj
    · obtain rfl := some.inj hj
      exact .inr ⟨_, rfl⟩
    · cases hj

theorem Normalized.wellKeyed {v : Value} (h : Normalized nfc v) :
    v.everywhere wellKeyed = true := by
  rcases h with rfl | ⟨m, rfl⟩
  · rfl
  · exact wellKeyed_norm nfc rearranges_sortItems m

theorem record_eq_some {contentDigest : String}
    (h : args.record nfc sha256 allowNan contentDigest = some record) :
    ∃ inputPayload metadata digest, Normalized nfc inputPayload ∧ Normalized nfc metadata ∧
      record = (args.unsigned contentDigest inputPayload metadata).withDigest digest ∧
      canonicalDigest nfc sha256 (args.unsigned contentDigest inputPayload metadata) = some digest ∧
      record.value.everywhere (jsonable allowNan) = true := by
  obtain ⟨recordDict, hdict, h⟩ := bind_eq_some_iff.mp h
  obtain ⟨inputPayload, hpayload, hdict⟩ := bind_eq_some_iff.mp hdict
  obtain ⟨metadata, hmeta, hdict⟩ := bind_eq_some_iff.mp hdict
  obtain rfl := some.inj hdict
  obtain ⟨digest, hdigest, h⟩ := bind_eq_some_iff.mp h
  dsimp only at h
  split at h
  next hjson =>
    obtain rfl := some.inj h
    exact ⟨inputPayload, metadata, digest, normalized_of_eq_some hpayload,
      normalized_of_eq_some hmeta, rfl, hdigest, hjson⟩
  next => cases h

theorem commitKey_committed (h : commitKey nfc sha256 content written allowNan root parents target
      args = .ok (.committed record target')) :
    (∃ contentDigest, args.record nfc sha256 allowNan contentDigest = some record) ∧
      ∃ attrs, attrs.lookup commitAttr = none ∧
        target' = .group (attrs ++ [(commitAttr, record.value.reread written)]) := by
  obtain ⟨-, -, h⟩ := bind_eq_ok.mp h
  split at h
  · cases h
  · cases h
  next contentDigest hstaged =>
  split at h
  · cases h
  next found hrecord =>
  have hother : (args.stagedAttrs.filter fun e => e.1 != commitAttr).lookup commitAttr = none := by
    refine lookup_eq_none_iff.mpr fun e he => ?_
    have hne := (mem_filter.mp he).2
    rw [bne_iff_ne] at hne
    exact bne_iff_ne.mpr hne.symm
  have hnew : ∀ {x : Except Raised Returned}, x = .ok (.committed found
      (.group ((args.stagedAttrs.filter fun e => e.1 != commitAttr) ++
        [(commitAttr, found.value.reread written)]))) →
      x = .ok (.committed record target') →
      (∃ contentDigest, args.record nfc sha256 allowNan contentDigest = some record) ∧
        ∃ attrs, attrs.lookup commitAttr = none ∧
          target' = .group (attrs ++ [(commitAttr, record.value.reread written)]) := by
    intro x hx hok
    rw [hx] at hok
    obtain ⟨rfl, rfl⟩ := Returned.committed.inj (Except.ok.inj hok)
    exact ⟨⟨contentDigest, hrecord⟩, _, hother, rfl⟩
  split at h
  · exact hnew rfl h
  · exact hnew rfl h
  · obtain ⟨outcome, -, h⟩ := bind_eq_ok.mp h
    cases h

theorem digest_stored {fields : Fields} {digest : String} {kvs : Mapping}
    (hnames : ((fields.withDigest digest).map (·.1)).Nodup)
    (hkvs : kvs.Perm ((fields.withDigest digest).map fun e => (e.1, e.2.reread written))) :
    ZarrRecord.computeRecordDigest nfc sha256 kvs =
      (normalizeJsonValue nfc (.obj (fields.map fun e => (e.1, e.2.reread written)))).dumps.map
        fun text => sha256 (utf8 text) := by
  have hkeys : (kvs.map (·.1)).Nodup := by
    refine (hkvs.map (·.1)).nodup_iff.mpr ?_
    rw [List.map_map]
    exact hnames
  have hother : ∀ e ∈ fields, e.1 ≠ "record_digest" := by
    intro e he heq
    rw [Fields.withDigest, List.map_append, List.nodup_append] at hnames
    exact hnames.2.2 e.1 (List.mem_map_of_mem he) "record_digest" (by simp) heq
  rw [computeRecordDigest_of_perm hkvs hkeys, ZarrRecord.computeRecordDigest, Fields.withDigest,
    List.map_append,
    List.filter_append, List.filter_eq_self.mpr]
  · rw [List.map_cons, List.map_nil, List.filter_cons_of_neg (by simp), List.filter_nil,
      List.append_nil]
  · intro e he
    obtain ⟨e', he', rfl⟩ := List.mem_map.mp he
    exact bne_iff_ne.mpr (hother e' he')

/-- **The digest of what is stored** is the digest of the record exactly if the values of the record
are normalized to the same after they were written. -/
theorem digest_stored_iff (hsha : Function.Injective sha256) {fields : Fields} {digest : String}
    {kvs : Mapping} (hnames : ((fields.withDigest digest).map (·.1)).Nodup)
    (hkvs : kvs.Perm ((fields.withDigest digest).map fun e => (e.1, e.2.reread written)))
    (hdigest : canonicalDigest nfc sha256 fields = some digest) :
    ZarrRecord.computeRecordDigest nfc sha256 kvs = some digest ↔
      ∀ e ∈ fields, Same nfc sortItems written e.2 := by
  have hfields : (fields.map (·.1)).Nodup := by
    rw [Fields.withDigest, map_append] at hnames
    exact (nodup_append.mp hnames).1
  obtain ⟨normalized, hnormalized, hdigest⟩ := bind_eq_some_iff.mp hdigest
  obtain ⟨text, htext, hdigest⟩ := bind_eq_some_iff.mp hdigest
  obtain rfl := some.inj hdigest
  unfold normalizeValue at hnormalized
  split at hnormalized
  next =>
    obtain rfl := some.inj hnormalized
    rw [digest_stored hnames hkvs, ← norm_value_eq_iff rearranges_sortItems hfields]
    constructor
    · intro h
      obtain ⟨text', htext', heq⟩ := map_eq_some_iff.mp h
      obtain rfl := utf8_injective (hsha heq)
      rw [dumps_inj htext htext', sortKeys_normalizeJsonValue]
    · intro heq
      obtain ⟨hfinite, rfl⟩ := dumps_eq_some htext
      rw [← heq, Json.dumps, if_pos (by rw [finite_sortKeys]; exact hfinite), heq,
        sortKeys_normalizeJsonValue]
      rfl
  next => cases hnormalized

theorem fromDict_stored {contentDigest digest : String} {inputPayload metadata : Value}
    {kvs : Mapping}
    (hlookup : ∀ k, kvs.lookup k =
      (((args.unsigned contentDigest inputPayload metadata).withDigest digest).lookup k).map
        (Value.reread written)) :
    ∃ found, CommitRecord.fromDict kvs = some found ∧ found.recordDigest = .str digest := by
  rw [CommitRecord.fromDict]
  simp only [hlookup]
  exact ⟨_, rfl, rfl⟩

theorem readRecord_eq_some {attrs data : Mapping} (hattrs : attrs.lookup commitAttr = some (.obj data)) :
    (∃ found, readRecord nfc sha256 (.group attrs) = some (some found)) ↔
      ∃ found digest, CommitRecord.fromDict data = some found ∧
        ZarrRecord.computeRecordDigest nfc sha256 data = some digest ∧
        found.recordDigest = .str digest := by
  constructor
  · rintro ⟨found, h⟩
    obtain ⟨status, hstatus, hfound⟩ := map_eq_some_iff.mp h
    cases status with
    | error reason => cases hfound
    | ok record =>
      obtain ⟨hdata, digest, hdigest, hverifies⟩ := (status_eq_ok_iff hattrs).mp hstatus
      exact ⟨record, digest, hdata, hdigest, hverifies⟩
  · rintro ⟨found, digest, hdata, hdigest, hverifies⟩
    refine ⟨found, ?_⟩
    rw [readRecord, (status_eq_ok_iff hattrs).mpr ⟨hdata, digest, hdigest, hverifies⟩]
    rfl

/-- **The record of a committed key** is read back exactly if all its values are normalized to the same
after they were written. -/
theorem readRecord_stored_iff (hsha : Function.Injective sha256) (hwritten : Rearranges written)
    {contentDigest digest : String} {inputPayload metadata : Value} {attrs : Mapping}
    (hattrs : attrs.lookup commitAttr = none)
    (hdigest : canonicalDigest nfc sha256 (args.unsigned contentDigest inputPayload metadata) =
      some digest) :
    (∃ found, readRecord nfc sha256 (.group (attrs ++ [(commitAttr,
        ((args.unsigned contentDigest inputPayload metadata).withDigest digest).value.reread
          written)])) = some (some found)) ↔
      ∀ e ∈ args.unsigned contentDigest inputPayload metadata, Same nfc sortItems written e.2 := by
  have hnames :
      (((args.unsigned contentDigest inputPayload metadata).withDigest digest).map (·.1)).Nodup := by
    show recordFields.Nodup
    decide
  obtain ⟨kvs, hkvs, hperm⟩ := reread_value hwritten hnames
  have hread : ((((args.unsigned contentDigest inputPayload metadata).withDigest digest).map
      fun e => (e.1, e.2.reread written)).map Prod.fst).Nodup := by
    rw [List.map_map]
    exact hnames
  have hstored : (attrs ++ [(commitAttr,
      ((args.unsigned contentDigest inputPayload metadata).withDigest digest).value.reread
        written)]).lookup commitAttr = some (.obj kvs) := by
    rw [hkvs, List.lookup_append, hattrs, List.lookup_cons, beq_self_eq_true]
    rfl
  obtain ⟨found, hfound, hverifies⟩ := fromDict_stored fun k => by
    rw [lookup_perm hread hperm, lookup_map]
  rw [readRecord_eq_some hstored, ← digest_stored_iff hsha hnames hperm hdigest]
  constructor
  · rintro ⟨found', digest', hfound', hdigest', hverifies'⟩
    obtain rfl := Option.some.inj (hfound.symm.trans hfound')
    obtain rfl := Json.str.inj (hverifies.symm.trans hverifies')
    exact hdigest'
  · intro h
    exact ⟨found, digest, hfound, h, hverifies⟩

theorem orderly_of_digest {fields : Fields} {digest : String}
    (h : canonicalDigest nfc sha256 fields = some digest) :
    fields.value.everywhere orderly = true := by
  obtain ⟨normalized, hnormalized, -⟩ := bind_eq_some_iff.mp h
  unfold normalizeValue at hnormalized
  split at hnormalized
  next hall => exact (Bool.and_eq_true_iff.mp hall).2
  next => cases hnormalized

/-- **The record of a committed key** is read back exactly if its environment is normalized to the same
after it was written. -/
theorem readRecord_committed_iff (hsha : Function.Injective sha256) (hwritten : Rearranges written)
    (h : commitKey nfc sha256 content written allowNan root parents target args =
      .ok (.committed record target')) :
    Fit allowNan (.dict args.env) ∧
      ((∃ found, readRecord nfc sha256 target' = some (some found)) ↔
        Same nfc sortItems written (.dict args.env)) := by
  obtain ⟨⟨contentDigest, hrecord⟩, attrs, hattrs, rfl⟩ := commitKey_committed h
  obtain ⟨inputPayload, metadata, digest, hpayload, hmeta, rfl, hdigest, hjson⟩ :=
    record_eq_some hrecord
  have horderly := orderly_of_digest hdigest
  have hfit : ∀ e ∈ args.unsigned contentDigest inputPayload metadata, Fit allowNan e.2 := by
    intro e he
    exact ⟨(everywhere_dict.mp horderly).2 _ (mem_map_of_mem he),
      (everywhere_dict.mp hjson).2 _ (mem_map_of_mem (mem_append_left _ he))⟩
  have hsame : ∀ e ∈ args.unsigned contentDigest inputPayload metadata,
      e.2.everywhere wellKeyed = true → Same nfc sortItems written e.2 := fun e he =>
    (same_of_fit rearranges_sortItems hwritten e.2 (hfit e he)).1
  refine ⟨hfit ("env", .dict args.env) (by simp [CommitArgs.unsigned]), ?_⟩
  rw [readRecord_stored_iff hsha hwritten hattrs hdigest]
  constructor
  · exact fun hall => hall ("env", .dict args.env) (by simp [CommitArgs.unsigned])
  · intro henv e he
    have hfields : e.2 = .dict args.env ∨ e.2.everywhere wellKeyed = true := by
      simp only [CommitArgs.unsigned, mem_cons, not_mem_nil, or_false] at he
      rcases he with rfl | rfl | rfl | rfl | rfl | rfl | rfl
      · exact .inr rfl
      · exact .inr hpayload.wellKeyed
      · exact .inr hmeta.wellKeyed
      · exact .inr rfl
      · exact .inr rfl
      · exact .inl rfl
      · exact .inr rfl
    rcases hfields with heq | hkeyed
    · rw [heq]
      exact henv
    · exact hsame e he hkeyed

end Commit

/-! ## Records verify -/

section Verify

variable {nfc : String → String} {sha256 : List UInt8 → String} {content : Dir → Content}
  {written : Arrange} {allowNan : Bool}

theorem verifies_unit (hsha : Function.Injective sha256) {unit : UnitState} {args : UnitArgs}
    {record : Fields} (h : writeUnitRecord nfc sha256 unit args = .ok record) :
    ((∀ v ∈ args.mappings, v.everywhere wellKeyed = true) →
      recordProblem nfc sha256 (parsed record) = none) ∧
    ((∀ v ∈ args.mappings, v.everywhere builtinKeyed = true) →
      (recordProblem nfc sha256 (parsed record) = none ↔
        ∀ v ∈ args.mappings, v.everywhere wellKeyed = true)) := by
  have hfit := fit_mappings h
  have hsame : ∀ v ∈ args.mappings, (v.everywhere wellKeyed = true → Same nfc id sortItems v) ∧
      (v.everywhere builtinKeyed = true → Same nfc id sortItems v →
        v.everywhere wellKeyed = true) := fun v hv =>
    same_of_fit rearranges_id rearranges_sortItems v (hfit v hv)
  rw [recordProblem_written_iff hsha h]
  constructor
  · exact fun hkeyed v hv => (hsame v hv).1 (hkeyed v hv)
  · intro hbuiltin
    constructor
    · exact fun hall v hv => (hsame v hv).2 (hbuiltin v hv) (hall v hv)
    · exact fun hkeyed v hv => (hsame v hv).1 (hkeyed v hv)

theorem verifies_key (hsha : Function.Injective sha256) (hwritten : Rearranges written)
    {root : Dir} {parents : List Dir} {target target' : Dir} {args : CommitArgs} {record : Fields}
    (h : commitKey nfc sha256 content written allowNan root parents target args =
      .ok (.committed record target')) :
    ((Value.dict args.env).everywhere wellKeyed = true →
      ∃ found, readRecord nfc sha256 target' = some (some found)) ∧
    ((Value.dict args.env).everywhere builtinKeyed = true →
      ((∃ found, readRecord nfc sha256 target' = some (some found)) ↔
        (Value.dict args.env).everywhere wellKeyed = true)) := by
  obtain ⟨hfit, hread⟩ := readRecord_committed_iff hsha hwritten h
  obtain ⟨hkeyed, hback⟩ : (_ → Same nfc sortItems written (.dict args.env)) ∧ _ :=
    same_of_fit rearranges_sortItems hwritten _ hfit
  rw [hread]
  exact ⟨hkeyed, fun hbuiltin => ⟨hback hbuiltin, hkeyed⟩⟩

/-- **A record that was written verifies when it is read back** if JSON writes the keys of the mappings
in it as `str` does: of all mappings that a unit's record takes, and of the environment that a key's
record takes.  If all these keys are of types that Python has built in, it does not verify
otherwise. -/
theorem verifies_iff (hsha : Function.Injective sha256) (hwritten : Rearranges written) :
    (∀ unit args record, writeUnitRecord nfc sha256 unit args = .ok record →
      ((∀ v ∈ args.mappings, v.everywhere wellKeyed = true) →
        recordProblem nfc sha256 (parsed record) = none) ∧
      ((∀ v ∈ args.mappings, v.everywhere builtinKeyed = true) →
        (recordProblem nfc sha256 (parsed record) = none ↔
          ∀ v ∈ args.mappings, v.everywhere wellKeyed = true))) ∧
    (∀ root parents target args record target',
      commitKey nfc sha256 content written allowNan root parents target args =
        .ok (.committed record target') →
      ((Value.dict args.env).everywhere wellKeyed = true →
        ∃ found, readRecord nfc sha256 target' = some (some found)) ∧
      ((Value.dict args.env).everywhere builtinKeyed = true →
        ((∃ found, readRecord nfc sha256 target' = some (some found)) ↔
          (Value.dict args.env).everywhere wellKeyed = true))) := by
  exact ⟨fun _ _ _ h => verifies_unit hsha h, fun _ _ _ _ _ _ h => verifies_key hsha hwritten h⟩

namespace TrueKey

open ZarrRecord.OtherWriter

def unit : UnitState where
  hasRecord := false
  artefacts := []
  contentDigest := some "c"
  now := "t"
  overtaken := false

/-- `meta={True: 1}`. -/
def args : UnitArgs where
  inputDigest := "d"
  runId := "r"
  metadata := some [(.bool true, .int 1)]

/-- `env={True: 1}`. -/
def commit : CommitArgs where
  inputDigest := "d"
  runId := "r"
  env := [(.bool true, .int 1)]
  staged := .digest "c"
  now := "t"

/-- `commit_key`, in a store where nothing is at the key. -/
def committed (args : CommitArgs) : Except Raised Returned :=
  commitKey id asText (fun _ => .digest "c") id true (.group []) [] .absent args

def recordAndTarget : Except Raised Returned → Option (Fields × Dir)
  | .ok (.committed record target) => some (record, target)
  | _ => none

theorem eq_ok_of_recordAndTarget {x : Except Raised Returned} {record : Fields} {target : Dir}
    (h : recordAndTarget x = some (record, target)) : x = .ok (.committed record target) := by
  unfold recordAndTarget at h
  split at h
  · cases h
    rfl
  · cases h

theorem eq_ok_of_toOption {x : Except Refusal Fields} {record : Fields}
    (h : x.toOption = some record) : x = .ok record := by
  cases x with
  | error e => cases h
  | ok found => exact congrArg Except.ok (some.inj h)

/-- Both records are written, and neither verifies. -/
theorem written_not_verified :
    (∃ record, writeUnitRecord id asText unit args = .ok record ∧
      recordProblem id asText (parsed record) ≠ none) ∧
    ∃ record target, committed commit = .ok (.committed record target) ∧
      ¬ ∃ found, readRecord id asText target = some (some found) := by
  have hsha := ZarrStagedDigest.Seeded.asText_injective
  constructor
  · have hwritten : (writeUnitRecord id asText unit args).toOption.isSome = true := by
      decide +kernel
    obtain ⟨record, hrecord⟩ := Option.isSome_iff_exists.mp hwritten
    have hok := eq_ok_of_toOption hrecord
    refine ⟨record, hok, ?_⟩
    rw [Ne, (verifies_unit hsha hok).2 (by decide)]
    decide
  · have hwritten : (recordAndTarget (committed commit)).isSome = true := by decide
    obtain ⟨⟨record, target⟩, hrecord⟩ := Option.isSome_iff_exists.mp hwritten
    have hok := eq_ok_of_recordAndTarget hrecord
    refine ⟨record, target, hok, ?_⟩
    rw [(verifies_key hsha rearranges_id hok).2 (by decide)]
    decide

/-- With the text `True` for a key, both verify. -/
theorem verifies_text_key :
    (∃ record, writeUnitRecord id asText unit
        { args with metadata := some [(.string "True", .int 1)] } = .ok record ∧
      recordProblem id asText (parsed record) = none) ∧
    ∃ record target, committed { commit with env := [(.string "True", .int 1)] } =
        .ok (.committed record target) ∧
      ∃ found, readRecord id asText target = some (some found) := by
  obtain ⟨hunit, hkey⟩ := verifies_iff ZarrStagedDigest.Seeded.asText_injective rearranges_id
  constructor
  · have hwritten : (writeUnitRecord id asText unit
        { args with metadata := some [(.string "True", .int 1)] }).toOption.isSome = true := by
      decide +kernel
    obtain ⟨record, hrecord⟩ := Option.isSome_iff_exists.mp hwritten
    have hok := eq_ok_of_toOption hrecord
    refine ⟨record, hok, (hunit _ _ _ hok).1 ?_⟩
    decide
  · have hwritten : (recordAndTarget (committed
        { commit with env := [(.string "True", .int 1)] })).isSome = true := by decide
    obtain ⟨⟨record, target⟩, hrecord⟩ := Option.isSome_iff_exists.mp hwritten
    have hok := eq_ok_of_recordAndTarget hrecord
    refine ⟨record, target, hok, (hkey _ _ _ _ _ _ hok).1 ?_⟩
    decide

end TrueKey

end Verify

end Xtrax.RecordValues
