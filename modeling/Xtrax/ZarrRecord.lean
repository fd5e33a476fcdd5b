import Xtrax.ZarrDigestInjective

/-! # The commit record of a key, read in two places

A committed group holds its record as a JSON mapping under `xtrax.commit`.  `read_record`
verifies the record's digest over the mapping as it is stored.  `commit_key`, when its rename
finds a group at the key, does so too and then verifies the digest once more, over the mapping
it makes of the record: the eight fields, with `{}` for an absent `input_payload`, `meta` or
`env`, and no other field.

`lookup` only does the first.  The two answer alike exactly when the second digest is the
first one (`agrees_iff`), which it is for the mappings `commit_key` writes
(`record_not_drifts`).
-/
namespace Xtrax.ZarrRecord

open List ZarrDigest

/-! ## Records -/

/-- A JSON mapping. -/
abbrev Mapping := List (String × Json)

def commitAttr : String := "xtrax.commit"

/-- `v == s` for a string `s`. -/
instance (v : Json) (s : String) : Decidable (v = .str s) :=
  match v with
  | .str t => decidable_of_iff (t = s) ⟨congrArg Json.str, Json.str.inj⟩
  | .null | .bool _ | .int _ | .float _ | .nonFinite _ | .arr _ | .obj _ => isFalse nofun

/-- `CommitRecord`, with `metadata` for its field `meta`.  `from_dict` takes the values as they
come. -/
structure CommitRecord where
  inputDigest : Json
  inputPayload : Json
  metadata : Json
  contentDigest : Json
  runId : Json
  env : Json
  committedAt : Json
  recordDigest : Json

def CommitRecord.toDict (r : CommitRecord) : Mapping :=
  [("input_digest", r.inputDigest), ("input_payload", r.inputPayload), ("meta", r.metadata),
    ("content_digest", r.contentDigest), ("run_id", r.runId), ("env", r.env),
    ("committed_at", r.committedAt), ("record_digest", r.recordDigest)]

/-- `CommitRecord.from_dict`; absent where a `KeyError` is raised. -/
def CommitRecord.fromDict (data : Mapping) : Option CommitRecord := do
  return {
    inputDigest := ← data.lookup "input_digest"
    inputPayload := (data.lookup "input_payload").getD (.obj [])
    metadata := (data.lookup "meta").getD (.obj [])
    contentDigest := ← data.lookup "content_digest"
    runId := ← data.lookup "run_id"
    env := (data.lookup "env").getD (.obj [])
    committedAt := ← data.lookup "committed_at"
    recordDigest := ← data.lookup "record_digest" }

/-! ## What is on disk -/

/-- What is at a path, as far as records are concerned. -/
inductive Dir where
  | absent
  | empty
  | noMetadata
  /-- A `zarr.json` that zarr cannot open as a group, with what it says and its attributes. -/
  | unreadable (exc : String) (attrs : Mapping)
  | array (attrs : Mapping)
  | group (attrs : Mapping)

/-- `(path / "zarr.json").is_file()`. -/
def Dir.hasMetadata : Dir → Bool
  | .absent | .empty | .noMetadata => false
  | .unreadable .. | .array _ | .group _ => true

/-- `_has_commit_attr`: valid or tampered. -/
def Dir.hasCommitAttr : Dir → Bool
  | .absent | .empty | .noMetadata => false
  | .unreadable _ attrs | .array attrs | .group attrs => (attrs.lookup commitAttr).isSome

/-- What `zarr_content_digest` of a directory comes to. -/
inductive Content where
  | digest (d : String)
  /-- It raises something that is read as damage. -/
  | damaged (reason : String)
  | raised

section Reading

-- Unicode normalization form NFC, the hash, and `zarr_content_digest`
variable (nfc : String → String) (sha256 : List UInt8 → String) (content : Dir → Content)

/-- `_compute_record_digest`: `canonical_digest` of the mapping without its `record_digest`;
absent where it raises. -/
def computeRecordDigest (d : Mapping) : Option String :=
  (normalizeJsonValue nfc (.obj (d.filter fun e => e.1 != "record_digest"))).dumps.map
    fun text => sha256 (utf8 text)

/-- `_read_record_status`: the record, or the reason why there is none; absent where it
raises. -/
def readRecordStatus : Dir → Option (Except String CommitRecord)
  | .absent | .empty | .noMetadata | .array _ => some (.error "not a zarr group")
  | .unreadable exc _ => some (.error ("unreadable zarr group: " ++ exc))
  | .group attrs =>
    match attrs.lookup commitAttr with
    | none | some .null => some (.error "uncommitted group (no commit record)")
    | some (.obj data) =>
      match CommitRecord.fromDict data with
      | none => some (.error "commit record tampered or malformed (missing fields)")
      | some record => do
        let digest ← computeRecordDigest nfc sha256 data
        if record.recordDigest = .str digest then return .ok record
        else return .error "commit record tampered (record_digest mismatch)"
    | some _ => some (.error "commit record tampered or malformed (not a mapping)")

def readRecord (target : Dir) : Option (Option CommitRecord) :=
  (readRecordStatus nfc sha256 target).map Except.toOption

/-! ## `lookup` -/

inductive LookupResult where
  | reuse (record : CommitRecord)
  | missing
  | stale (record : CommitRecord)
  | corrupt (reason : String)

/-- `lookup`; absent where it raises. -/
def lookup (target : Dir) (inputDigest : String) (verify : Bool) : Option LookupResult :=
  match target with
  | .absent => some .missing
  | target => do
    match ← readRecordStatus nfc sha256 target with
    | .error reason => return .corrupt reason
    | .ok record =>
      if record.inputDigest ≠ .str inputDigest then return .stale record
      if verify then
        match content target with
        | .raised => none
        | .damaged reason => return .corrupt ("failed to compute content digest " ++ reason)
        | .digest actual =>
          if record.contentDigest ≠ .str actual then return .corrupt "content digest mismatch"
      return .reuse record

/-! ## `commit_key` -/

def groupIsValid (target : Dir) : Option Bool := do
  match ← readRecord nfc sha256 target with
  | none => return false
  | some record =>
    match content target with
    | .raised => none
    | .damaged _ => return false
    | .digest actual => return record.contentDigest = .str actual

/-- The arguments of `commit_key`, with what the staged directory's digest comes to and the
time. -/
structure CommitArgs where
  inputDigest : String
  inputPayload : Mapping := []
  metadata : Mapping := []
  runId : String
  env : Mapping
  verifyDuplicate : Bool := false
  staged : Content
  now : String

/-- `record_dict` before its digest is added. -/
def CommitArgs.recordDict (args : CommitArgs) (contentDigest : String) : Mapping :=
  [("input_digest", .str args.inputDigest),
    ("input_payload", normalizeJsonValue nfc (.obj args.inputPayload)),
    ("meta", normalizeJsonValue nfc (.obj args.metadata)),
    ("content_digest", .str contentDigest), ("run_id", .str args.runId), ("env", .obj args.env),
    ("committed_at", .str args.now)]

inductive Raised where
  /-- `UnknownPrefixError`: the depth of the prefix, and the reason if one is given. -/
  | unknownPrefix (depth : Nat) (reason : Option String)
  /-- `CommitConflictError`: the stored record, and the reason. -/
  | conflict (existing : Option CommitRecord) (reason : String)
  | other

inductive Outcome where
  | committed (record : CommitRecord)
  | duplicate (record : CommitRecord)

/-- The prefix checks, on the store's root and the directories between it and the key, from
the top. -/
def checkPrefix (root : Dir) (parents : List Dir) : Except Raised Unit :=
  if !(parents.getLastD root).hasMetadata then throw (.unknownPrefix parents.length none)
  else match parents.findIdx? Dir.hasCommitAttr with
    | some depth => throw (.unknownPrefix (depth + 1)
        (some "is a committed key; keys cannot be nested inside committed keys"))
    | none => return

/-- The record that is written into the staged directory. -/
def CommitArgs.record (args : CommitArgs) : Except Raised Mapping :=
  match args.staged with
  | .raised | .damaged _ => throw .other
  | .digest contentDigest =>
    match computeRecordDigest nfc sha256 (args.recordDict nfc contentDigest) with
    | none => throw .other
    | some digest => return args.recordDict nfc contentDigest ++ [("record_digest", .str digest)]

/-- The text of `v[:12]`; absent where the slice raises.  That of a list is JSON's here. -/
def firstTwelve : Json → Option String
  | .str s => some (String.ofList (s.toList.take 12))
  | .arr vs => some (String.ofList (Json.arr (vs.take 12)).compact)
  | _ => none

/-- What `commit_key` does when the rename finds the target not empty. -/
def onExisting (target : Dir) (args : CommitArgs) : Except Raised Outcome :=
  match readRecord nfc sha256 target with
  | none => throw .other
  | some none => throw (.conflict none "uncommitted or tampered group already at target")
  | some (some existing) =>
    match computeRecordDigest nfc sha256 existing.toDict with
    | none => throw .other
    | some digest =>
      if existing.recordDigest ≠ .str digest then
        throw (.conflict (some existing) "uncommitted or tampered group already at target")
      else if existing.inputDigest = .str args.inputDigest then
        if !args.verifyDuplicate then return .duplicate existing
        else match args.staged with
          | .raised | .damaged _ => throw .other
          | .digest contentDigest =>
            if existing.contentDigest ≠ .str contentDigest then
              match firstTwelve existing.contentDigest with
              | none => throw .other
              | some committed => throw (.conflict (some existing)
                  ("same input_digest, different content (committed " ++ committed ++ ", staged "
                    ++ String.ofList (contentDigest.toList.take 12)
                    ++ "): a nondeterministic producer, tampering, or a damaged committed key"))
            else match groupIsValid nfc sha256 content target with
              | none => throw .other
              | some true => return .duplicate existing
              | some false => throw (.conflict (some existing)
                  ("same input_digest and content as the staged group, but the committed key on "
                    ++ "disk no longer matches its own record: a damaged committed key"))
      else throw (.conflict (some existing) "different input_digest already committed")

def commitKey (root : Dir) (parents : List Dir) (target : Dir) (args : CommitArgs) :
    Except Raised Outcome := do
  checkPrefix root parents
  let recordDict ← args.record nfc sha256
  match target with
  | .absent | .empty =>
    match CommitRecord.fromDict recordDict with
    | none => throw .other
    | some record => return .committed record
  | target => onExisting nfc sha256 content target args

end Reading

/-! ## The digest of a mapping -/

section Finite

variable (nfc : String → String)

mutual

theorem finite_normalizeJsonValue : ∀ v : Json, (normalizeJsonValue nfc v).finite = v.finite
  | .null => rfl
  | .bool _ => rfl
  | .int _ => rfl
  | .float _ => rfl
  | .nonFinite _ => rfl
  | .str _ => rfl
  | .arr vs => finiteItems_normalizeItems vs
  | .obj kvs => (finiteMembers_sortByKey _).trans (finiteMembers_normalizeMembers kvs)

theorem finiteItems_normalizeItems : ∀ vs : List Json,
    finiteItems (normalizeItems nfc vs) = finiteItems vs
  | [] => rfl
  | v :: vs => by
    rw [normalizeItems, finiteItems, finite_normalizeJsonValue v, finiteItems_normalizeItems vs,
      finiteItems]

theorem finiteMembers_normalizeMembers : ∀ kvs : List (String × Json),
    finiteMembers (normalizeMembers nfc kvs) = finiteMembers kvs
  | [] => rfl
  | (k, v) :: kvs => by
    rw [normalizeMembers, finiteMembers, finite_normalizeJsonValue v,
      finiteMembers_normalizeMembers kvs, finiteMembers]

end

end Finite

variable {nfc : String → String} {sha256 : List UInt8 → String} {content : Dir → Content}
  {data attrs : Mapping} {record : CommitRecord} {target : Dir} {d : String}

/-- A mapping has a digest when every other field than the digest is free of NaN and
infinities. -/
theorem exists_digest_iff : (∃ digest, computeRecordDigest nfc sha256 data = some digest) ↔
    ∀ e ∈ data, e.1 ≠ "record_digest" → e.2.finite = true := by
  have hfinite : (normalizeJsonValue nfc (.obj (data.filter fun e => e.1 != "record_digest"))).finite
      = (data.filter fun e => e.1 != "record_digest").all fun p => p.2.finite := by
    rw [finite_normalizeJsonValue]
    exact finiteMembers_eq_all _
  unfold computeRecordDigest Json.dumps
  rw [hfinite]
  split
  · next hall =>
    refine ⟨fun _ e he hne => ?_, fun _ => ⟨_, rfl⟩⟩
    exact all_eq_true.mp hall e (mem_filter.mpr ⟨he, by simpa using hne⟩)
  · next hall =>
    refine ⟨fun ⟨_, h⟩ => (nomatch h), fun h => absurd (all_eq_true.mpr ?_) hall⟩
    intro e he
    obtain ⟨he, hne⟩ := mem_filter.mp he
    exact h e he (by simpa using hne)

theorem mem_of_lookup {k : String} {v : Json} (h : data.lookup k = some v) : (k, v) ∈ data := by
  obtain ⟨front, back, rfl, -⟩ := lookup_eq_some_iff.mp h
  exact mem_append_right _ mem_cons_self

theorem fromDict_eq_some (h : CommitRecord.fromDict data = some record) :
    data.lookup "input_digest" = some record.inputDigest ∧
      data.lookup "content_digest" = some record.contentDigest ∧
      data.lookup "run_id" = some record.runId ∧
      data.lookup "committed_at" = some record.committedAt ∧
      data.lookup "record_digest" = some record.recordDigest ∧
      record.inputPayload = (data.lookup "input_payload").getD (.obj []) ∧
      record.metadata = (data.lookup "meta").getD (.obj []) ∧
      record.env = (data.lookup "env").getD (.obj []) := by
  unfold CommitRecord.fromDict at h
  simp only [Option.pure_def, Option.bind_eq_bind, Option.bind_eq_some_iff, Option.some.injEq] at h
  obtain ⟨_, hinput, _, hcontent, _, hrun, _, hat, _, hdigest, rfl⟩ := h
  exact ⟨hinput, hcontent, hrun, hat, hdigest, rfl, rfl, rfl⟩

/-- A field of the record is a field of the mapping, or the default for one it lacks. -/
theorem mem_toDict (h : CommitRecord.fromDict data = some record) {e : String × Json}
    (he : e ∈ record.toDict) : e ∈ data ∨ data.lookup e.1 = none ∧ e.2 = .obj [] := by
  obtain ⟨hinput, hcontent, hrun, hat, hdigest, hpayload, hmeta, henv⟩ := fromDict_eq_some h
  have hdefault : ∀ k, (k, (data.lookup k).getD (.obj [])) ∈ data ∨
      data.lookup k = none ∧ (data.lookup k).getD (.obj []) = .obj [] := by
    intro k
    cases hk : data.lookup k with
    | none => exact .inr ⟨rfl, rfl⟩
    | some v => exact .inl (mem_of_lookup hk)
  unfold CommitRecord.toDict at he
  rw [hpayload, hmeta, henv] at he
  simp only [mem_cons, not_mem_nil, or_false] at he
  rcases he with rfl | rfl | rfl | rfl | rfl | rfl | rfl | rfl
  · exact .inl (mem_of_lookup hinput)
  · exact hdefault "input_payload"
  · exact hdefault "meta"
  · exact .inl (mem_of_lookup hcontent)
  · exact .inl (mem_of_lookup hrun)
  · exact hdefault "env"
  · exact .inl (mem_of_lookup hat)
  · exact .inl (mem_of_lookup hdigest)

theorem exists_digest_toDict (h : CommitRecord.fromDict data = some record) {digest : String}
    (hdigest : computeRecordDigest nfc sha256 data = some digest) :
    ∃ again, computeRecordDigest nfc sha256 record.toDict = some again := by
  refine exists_digest_iff.mpr fun e he hne => ?_
  rcases mem_toDict h he with hmem | ⟨-, hdefault⟩
  · exact exists_digest_iff.mp ⟨digest, hdigest⟩ e hmem hne
  · rw [hdefault]
    rfl

/-! ## Mappings with the eight fields -/

def recordFields : List String :=
  ["input_digest", "input_payload", "meta", "content_digest", "run_id", "env", "committed_at",
    "record_digest"]

theorem computeRecordDigest_of_perm {other : Mapping} (hperm : data.Perm other)
    (hkeys : (data.map (·.1)).Nodup) :
    computeRecordDigest nfc sha256 data = computeRecordDigest nfc sha256 other := by
  unfold computeRecordDigest
  rw [normalizeJsonValue, normalizeJsonValue, normalizeMembers_eq_map, normalizeMembers_eq_map]
  congr 3
  refine sortByKey_of_perm ((hperm.filter _).map _) ?_
  rw [List.map_map]
  exact hkeys.sublist (List.filter_sublist.map _)

/-- **A mapping with exactly the eight fields**, in any order, is the mapping of its record up
to order. -/
theorem computeRecordDigest_toDict (hfields : (data.map (·.1)).Perm recordFields)
    (h : CommitRecord.fromDict data = some record) :
    computeRecordDigest nfc sha256 record.toDict = computeRecordDigest nfc sha256 data := by
  have hnodup : (record.toDict.map (·.1)).Nodup := by
    change recordFields.Nodup
    decide
  have hsubset : record.toDict ⊆ data := by
    intro e he
    rcases mem_toDict h he with hmem | ⟨habsent, -⟩
    · exact hmem
    · have hkey : e.1 ∈ data.map (·.1) :=
        hfields.mem_iff.mpr (mem_map_of_mem (f := (·.1)) he : e.1 ∈ record.toDict.map (·.1))
      obtain ⟨e', hmem, hsame⟩ := mem_map.mp hkey
      have := lookup_eq_none_iff.mp habsent e' hmem
      simp [hsame] at this
  have hlength : data.length ≤ record.toDict.length := by
    have := hfields.length_eq
    rw [length_map] at this
    exact this.le
  have hperm : record.toDict.Perm data :=
    (subperm_of_subset (List.Nodup.of_map _ hnodup) hsubset).perm_of_length_le hlength
  exact computeRecordDigest_of_perm hperm hnodup

/-! ## Where the two part -/

/-- The stored mapping verifies, its input digest is `d`, and the mapping made of its record
has another digest. -/
def Drifts (nfc : String → String) (sha256 : List UInt8 → String) (data : Mapping) (d : String) :
    Prop :=
  ∃ record digest, CommitRecord.fromDict data = some record ∧ record.inputDigest = .str d ∧
    computeRecordDigest nfc sha256 data = some digest ∧ record.recordDigest = .str digest ∧
    computeRecordDigest nfc sha256 record.toDict ≠ some digest

/-- `commit_key` gets as far as its rename: it has the prefix it needs, and a record to
write. -/
structure Reaches (nfc : String → String) (sha256 : List UInt8 → String) (root : Dir)
    (parents : List Dir) (args : CommitArgs) : Prop where
  checked : checkPrefix root parents = .ok ()
  recorded : ∃ recordDict, args.record nfc sha256 = .ok recordDict

/-- `commit_key` and `lookup` answer alike. -/
def Agrees (outcome : Except Raised Outcome) (result : Option LookupResult) : Prop :=
  ((∃ r, outcome = .ok (.duplicate r)) ↔ ∃ r, result = some (.reuse r)) ∧
    ((∃ existing reason, outcome = .error (.conflict existing reason)) ↔
      (∃ r, result = some (.stale r)) ∨ ∃ reason, result = some (.corrupt reason))

theorem not_drifts_of_fields (hfields : (data.map (·.1)).Perm recordFields) :
    ¬ Drifts nfc sha256 data d := by
  rintro ⟨record, digest, hdata, -, hdigest, -, hother⟩
  exact hother ((computeRecordDigest_toDict hfields hdata).trans hdigest)

theorem record_not_drifts {args : CommitArgs} (h : args.record nfc sha256 = .ok data) :
    ¬ Drifts nfc sha256 data d := by
  refine not_drifts_of_fields ?_
  unfold CommitArgs.record at h
  split at h
  · exact nomatch h
  · exact nomatch h
  · split at h
    · exact nomatch h
    · obtain rfl := Except.ok.inj h
      exact List.Perm.refl recordFields

theorem record_of_digest {args : CommitArgs} {contentDigest digest : String}
    (hstaged : args.staged = .digest contentDigest)
    (hdigest : computeRecordDigest nfc sha256 (args.recordDict nfc contentDigest) = some digest) :
    args.record nfc sha256 =
      .ok (args.recordDict nfc contentDigest ++ [("record_digest", .str digest)]) := by
  unfold CommitArgs.record
  rw [hstaged]
  dsimp only
  rw [hdigest]
  rfl

theorem commitKey_group {root : Dir} {parents : List Dir} {args : CommitArgs}
    (hreach : Reaches nfc sha256 root parents args) :
    commitKey nfc sha256 content root parents (.group attrs) args =
      onExisting nfc sha256 content (.group attrs) args := by
  obtain ⟨recordDict, hrecord⟩ := hreach.recorded
  unfold commitKey
  rw [hreach.checked, hrecord]
  rfl

theorem status_eq_ok_iff (hattrs : attrs.lookup commitAttr = some (.obj data)) :
    readRecordStatus nfc sha256 (.group attrs) = some (.ok record) ↔
      CommitRecord.fromDict data = some record ∧
        ∃ digest, computeRecordDigest nfc sha256 data = some digest ∧
          record.recordDigest = .str digest := by
  unfold readRecordStatus
  dsimp only
  rw [hattrs]
  dsimp only
  cases hdata : CommitRecord.fromDict data with
  | none => simp
  | some found =>
    cases hdigest : computeRecordDigest nfc sha256 data with
    | none => simp
    | some digest =>
      by_cases hverifies : found.recordDigest = .str digest
      · simp only [Option.bind_eq_bind, Option.bind_some, hverifies, if_true, Option.pure_def,
          Option.some.injEq, Except.ok.injEq, exists_eq_left']
        refine ⟨?_, fun h => h.1⟩
        rintro rfl
        exact ⟨rfl, hverifies⟩
      · simp only [Option.bind_eq_bind, Option.bind_some, hverifies, if_false, Option.pure_def,
          Option.some.injEq, reduceCtorEq, exists_eq_left', false_iff, not_and]
        rintro rfl
        exact hverifies

theorem drifts_iff (hattrs : attrs.lookup commitAttr = some (.obj data)) :
    Drifts nfc sha256 data d ↔
      ∃ record, readRecordStatus nfc sha256 (.group attrs) = some (.ok record) ∧
        record.inputDigest = .str d ∧
        ∀ again, computeRecordDigest nfc sha256 record.toDict = some again →
          record.recordDigest ≠ .str again := by
  constructor
  · rintro ⟨record, digest, hdata, hinput, hdigest, hverifies, hother⟩
    refine ⟨record, (status_eq_ok_iff hattrs).mpr ⟨hdata, digest, hdigest, hverifies⟩, hinput, ?_⟩
    rintro again hagain hsame
    obtain rfl := Json.str.inj (hverifies.symm.trans hsame)
    exact hother hagain
  · rintro ⟨record, hstatus, hinput, hother⟩
    obtain ⟨hdata, digest, hdigest, hverifies⟩ := (status_eq_ok_iff hattrs).mp hstatus
    exact ⟨record, digest, hdata, hinput, hdigest, hverifies,
      fun hagain => hother digest hagain hverifies⟩

theorem lookup_group : lookup nfc sha256 content (.group attrs) d false =
    (readRecordStatus nfc sha256 (.group attrs)).map fun
      | .error reason => .corrupt reason
      | .ok record => if record.inputDigest = .str d then .reuse record else .stale record := by
  unfold lookup
  dsimp only
  cases readRecordStatus nfc sha256 (.group attrs) with
  | none => rfl
  | some status =>
    cases status with
    | error reason => rfl
    | ok record =>
      by_cases hinput : record.inputDigest = .str d
      · simp [hinput]
      · simp [hinput]

theorem onExisting_of_ok {args : CommitArgs} (hverify : args.verifyDuplicate = false)
    (hstatus : readRecordStatus nfc sha256 target = some (.ok record)) {again : String}
    (hagain : computeRecordDigest nfc sha256 record.toDict = some again) :
    onExisting nfc sha256 content target args =
      if record.recordDigest ≠ .str again then
        .error (.conflict (some record) "uncommitted or tampered group already at target")
      else if record.inputDigest = .str args.inputDigest then .ok (.duplicate record)
      else .error (.conflict (some record) "different input_digest already committed") := by
  unfold onExisting readRecord
  rw [hstatus]
  simp only [Option.map_some, Except.toOption, hagain, hverify]
  rfl

theorem not_agrees_of_drifts {root : Dir} {parents : List Dir} {args : CommitArgs}
    (hreach : Reaches nfc sha256 root parents args) (hverify : args.verifyDuplicate = false)
    (hattrs : attrs.lookup commitAttr = some (.obj data))
    (hdrifts : Drifts nfc sha256 data args.inputDigest) :
    ¬ Agrees (commitKey nfc sha256 content root parents (.group attrs) args)
        (lookup nfc sha256 content (.group attrs) args.inputDigest false) := by
  obtain ⟨record, hstatus, hinput, hother⟩ := (drifts_iff hattrs).mp hdrifts
  obtain ⟨hdata, digest, hdigest, -⟩ := (status_eq_ok_iff hattrs).mp hstatus
  obtain ⟨again, hagain⟩ := exists_digest_toDict hdata hdigest
  rw [commitKey_group hreach, lookup_group, onExisting_of_ok hverify hstatus hagain,
    if_pos (hother again hagain), hstatus, Option.map_some]
  dsimp only
  rw [if_pos hinput]
  rintro ⟨hduplicate, -⟩
  obtain ⟨r, hr⟩ := hduplicate.mpr ⟨record, rfl⟩
  exact nomatch hr

theorem agrees_of_not_drifts {root : Dir} {parents : List Dir} {args : CommitArgs}
    (hreach : Reaches nfc sha256 root parents args) (hverify : args.verifyDuplicate = false)
    (hattrs : attrs.lookup commitAttr = some (.obj data))
    (hdrifts : ¬ Drifts nfc sha256 data args.inputDigest) :
    Agrees (commitKey nfc sha256 content root parents (.group attrs) args)
        (lookup nfc sha256 content (.group attrs) args.inputDigest false) := by
  rw [drifts_iff hattrs] at hdrifts
  rw [commitKey_group hreach, lookup_group]
  cases hstatus : readRecordStatus nfc sha256 (.group attrs) with
  | none =>
    have hraises : onExisting nfc sha256 content (.group attrs) args = .error .other := by
      rw [onExisting, readRecord, hstatus]
      rfl
    simp [Agrees, hraises]
  | some status =>
    cases status with
    | error reason =>
      have hconflict : onExisting nfc sha256 content (.group attrs) args =
          .error (.conflict none "uncommitted or tampered group already at target") := by
        rw [onExisting, readRecord, hstatus]
        rfl
      simp [Agrees, hconflict]
    | ok record =>
      obtain ⟨hdata, digest, hdigest, -⟩ := (status_eq_ok_iff hattrs).mp hstatus
      obtain ⟨again, hagain⟩ := exists_digest_toDict hdata hdigest
      rw [onExisting_of_ok hverify hstatus hagain]
      by_cases hinput : record.inputDigest = .str args.inputDigest
      · have hsame : record.recordDigest = .str again := by
          by_contra hne
          refine hdrifts ⟨record, hstatus, hinput, fun again' hagain' => ?_⟩
          obtain rfl := Option.some.inj (hagain.symm.trans hagain')
          exact hne
        simp [Agrees, hinput, hsame]
      · by_cases hsame : record.recordDigest = .str again <;> simp [Agrees, hinput, hsame]

/-- **`commit_key` and `lookup` agree** on a stored mapping exactly when it does not drift. -/
theorem agrees_iff {root : Dir} {parents : List Dir} {args : CommitArgs}
    (hreach : Reaches nfc sha256 root parents args)
    (hverify : args.verifyDuplicate = false)
    (hattrs : attrs.lookup commitAttr = some (.obj data)) :
    Agrees (commitKey nfc sha256 content root parents (.group attrs) args)
        (lookup nfc sha256 content (.group attrs) args.inputDigest false) ↔
      ¬ Drifts nfc sha256 data args.inputDigest :=
  ⟨fun hagrees hdrifts => not_agrees_of_drifts hreach hverify hattrs hdrifts hagrees,
    agrees_of_not_drifts hreach hverify hattrs⟩

/-! ## Verified duplicates -/

theorem content_of_valid (hread : readRecord nfc sha256 target = some (some record))
    (hcontent : record.contentDigest = .str d)
    (hvalid : groupIsValid nfc sha256 content target = some true) : content target = .digest d := by
  unfold groupIsValid at hvalid
  rw [hread, Option.bind_eq_bind, Option.bind_some] at hvalid
  dsimp only at hvalid
  cases hactual : content target with
  | raised => rw [hactual] at hvalid; exact nomatch hvalid
  | damaged reason => rw [hactual] at hvalid; exact nomatch hvalid
  | digest actual =>
    rw [hactual] at hvalid
    have hsame : record.contentDigest = .str actual := by simpa using hvalid
    rw [Json.str.inj (hcontent.symm.trans hsame)]

theorem duplicate_content {args : CommitArgs} (hverify : args.verifyDuplicate = true)
    (h : onExisting nfc sha256 content target args = .ok (.duplicate record)) :
    ∃ digest, args.staged = .digest digest ∧ content target = .digest digest := by
  unfold onExisting at h
  cases hread : readRecord nfc sha256 target with
  | none => rw [hread] at h; exact nomatch h
  | some found =>
    cases found with
    | none => rw [hread] at h; exact nomatch h
    | some existing =>
      rw [hread] at h
      dsimp only at h
      split at h
      · exact nomatch h
      split at h
      · exact nomatch h
      split at h
      · rw [hverify] at h
        cases hstaged : args.staged with
        | raised => rw [hstaged] at h; exact nomatch h
        | damaged reason => rw [hstaged] at h; exact nomatch h
        | digest digest =>
          rw [hstaged] at h
          dsimp only at h
          rw [if_neg (show ¬ (!true) = true by decide)] at h
          split at h
          · split at h <;> exact nomatch h
          · next hcontent =>
            rw [not_not] at hcontent
            cases hvalid : groupIsValid nfc sha256 content target with
            | none => rw [hvalid] at h; exact nomatch h
            | some valid =>
              cases valid with
              | false => rw [hvalid] at h; exact nomatch h
              | true => exact ⟨digest, rfl, content_of_valid hread hcontent hvalid⟩
      · exact nomatch h

namespace OtherWriter

/-- A hash without collisions: the bytes as characters. -/
def asText (bytes : List UInt8) : String :=
  String.ofList (bytes.map fun b => Char.ofNat b.toNat)

/-- A record with a field of its own, which its digest covers. -/
def fields : Mapping :=
  [("input_digest", .str "d"), ("input_payload", .obj []), ("meta", .obj []),
    ("content_digest", .str "c"), ("run_id", .str "r"), ("env", .obj []),
    ("committed_at", .str "t"), ("note", .str "n")]

def digest : String := (computeRecordDigest id asText fields).getD ""

def stored : Mapping := fields ++ [("record_digest", .str digest)]

def read : CommitRecord where
  inputDigest := .str "d"
  inputPayload := .obj []
  metadata := .obj []
  contentDigest := .str "c"
  runId := .str "r"
  env := .obj []
  committedAt := .str "t"
  recordDigest := .str digest

def args : CommitArgs where
  inputDigest := "d"
  runId := "r"
  env := []
  staged := .digest "c"
  now := "t"

theorem reaches : Reaches id asText (.group []) [] args where
  checked := rfl
  recorded := by
    obtain ⟨again, hagain⟩ : ∃ again, computeRecordDigest id asText (args.recordDict id "c") =
        some again := exists_digest_iff.mpr (by simp [args, CommitArgs.recordDict, Json.finite,
          normalizeJsonValue, normalizeMembers, finiteMembers, sortByKey])
    exact ⟨_, record_of_digest rfl hagain⟩

theorem drifts : Drifts id asText stored "d" :=
  ⟨read, digest, rfl, rfl, by decide, rfl, by decide⟩

/-- `lookup` reuses the record, and `commit_key` takes it for tampered. -/
theorem agrees_not_always : Reaches id asText (.group []) [] args ∧
    ¬ Agrees (commitKey id asText (fun _ => .digest "c") (.group []) []
        (.group [(commitAttr, .obj stored)]) args)
      (lookup id asText (fun _ => .digest "c") (.group [(commitAttr, .obj stored)]) "d" false) :=
  ⟨reaches, not_agrees_of_drifts reaches rfl rfl drifts⟩

/-- The criterion at this record. -/
theorem agrees_iff_stored :
    Agrees (commitKey id asText (fun _ => .digest "c") (.group []) []
        (.group [(commitAttr, .obj stored)]) args)
      (lookup id asText (fun _ => .digest "c") (.group [(commitAttr, .obj stored)]) "d" false) ↔
    ¬ Drifts id asText stored "d" :=
  agrees_iff reaches rfl rfl

end OtherWriter

end Xtrax.ZarrRecord
