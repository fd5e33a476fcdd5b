import Mathlib.Data.List.AList
import Mathlib.Data.List.Sort
import Mathlib.Data.String.Basic

/-! # A unit directory and its pack

A unit is a directory of member files with a record, `unit.json`.  Packing puts every
member into `members.tar.zst`, one zstd frame each, and writes an index of the frames;
the record then names both in its `storage` field.

A unit directory maps relative POSIX paths to what is there; directories are implied
by the files in them.  What the packer takes from outside is a `Codec`: the hash, the
compressor, `tarfile`'s header and the JSON texts of records and indexes, each with the
round trip its documentation promises.
-/
namespace Xtrax.Pack

abbrev Bytes := List UInt8

/-- What a path of a unit is. -/
inductive Node
  | file (data : Bytes)
  /-- A symlink, to a directory or to anything else. -/
  | symlink (toDir : Bool)
  | special
  deriving DecidableEq, Repr

/-- The files of a unit directory, by relative path. -/
abbrev UnitDir := AList fun _ : String => Node

/-! ## Exceptions -/

/-- The rules `UnitPackRefused` names. -/
inductive Rid
  | U1 | U2 | U3 | U4 | unknownMember
  deriving DecidableEq, Repr

inductive Fault
  | refused (rid : Rid)
  | notFound
  /-- Any other exception: an `OSError`, a missing codec, a record that is not JSON. -/
  | other
  deriving DecidableEq, Repr

/-! ## Names -/

def unitRecord : String := "unit.json"
def packFile : String := "members.tar.zst"
def partialFile : String := "members.tar.zst.partial"
def packIndex : String := "members.idx.json"
def packLock : String := "members.tar.zst.lock"
def packFormat : String := "tar.zst+frame-index/1"

/-- `_excluded_names(UNIT_RECORD)`. -/
def excludedNames : List String :=
  [packFile, partialFile, packIndex, packLock, unitRecord, unitRecord ++ ".tmp"]

def baseName (path : String) : String :=
  String.ofList (path.toList.reverse.takeWhile (· ≠ '/')).reverse

/-- The paths of the directories above a path, below the unit. -/
def parents (path : String) : List String :=
  (path.toList.inits.filter fun pre => pre ++ ['/'] <+: path.toList).map String.ofList

def isPlainRelpath (path : String) : Bool :=
  path ≠ "" && '\x00' ∉ path.toList && !decide (['/'] <+: path.toList) &&
    (path.toList.splitOn '/').all fun part => part ≠ [] && part ≠ ['.'] && part ≠ ['.', '.']

def isTransient (fname : String) : Bool :=
  decide (['.'] <+: fname.toList) && decide (".tmp".toList <:+ fname.toList) ||
    decide (".nfs".toList <+: fname.toList)

/-- A path whose file is in the member set. -/
def isMemberName (path : String) : Bool :=
  !isTransient (baseName path) && !excludedNames.contains path

/-! ## Records and indexes -/

/-- The `storage` field of a record. -/
structure Storage where
  schema : String := "xtrax.unit_pack/1"
  pack : String := packFile
  index : String := packIndex
  format : String := packFormat
  codec : String := "zstd"
  packSha256 : String
  indexSha256 : String
  nMembers : Nat
  deriving DecidableEq, Repr

/-- The immutable core of a record.  A field is `none` when it is missing or has the wrong type;
mappings are JSON texts. -/
structure RecordCore where
  inputDigest : Option String
  inputPayload : Option String
  metaData : Option String
  contentDigest : Option String
  runId : Option String
  env : Option String
  committedAt : Option String
  deriving DecidableEq, Repr

/-- A unit record: a JSON object. -/
structure UnitRecord where
  core : RecordCore
  recordDigest : Option String
  storage : Option Storage := none
  /-- Every other field, as JSON text. -/
  rest : String := ""
  deriving DecidableEq, Repr

/-- Where a member's frame is in the pack, and what it holds. -/
structure Entry where
  offset : Nat
  length : Nat
  headerLength : Nat := 512
  size : Nat
  sha256 : String
  deriving DecidableEq, Repr

/-- The document of `members.idx.json`. -/
structure Index where
  schema : String := "xtrax.unit_pack_index/1"
  format : String := packFormat
  codec : String := "zstd"
  packer : String := "xtrax.pack/1"
  members : List (String × Entry)
  deriving DecidableEq, Repr

/-- What the packer takes from outside.  `none` stands for an exception. -/
structure Codec where
  sha256 : Bytes → String
  compress : (level : Int) → Bytes → Option Bytes
  decompress : Bytes → Option Bytes
  /-- `TarInfo.tobuf(USTAR_FORMAT)` of a member's path and size. -/
  tarHeader : String → Nat → Option Bytes
  /-- `json.dumps` of `[[relpath, sha256], ...]`. -/
  pairsText : List (String × String) → Bytes
  recordDigest : RecordCore → String
  recordText : UnitRecord → Option Bytes
  parseRecord : Bytes → Option UnitRecord
  indexText : Index → Option Bytes
  parseIndex : Bytes → Option Index
  decompress_compress : ∀ level block frame, compress level block = some frame →
    decompress frame = some block
  parseRecord_recordText : ∀ record text, recordText record = some text →
    parseRecord text = some record
  /-- A JSON object gives back the members of an index that names each of them once,
  in order. -/
  parseIndex_indexText : ∀ index text, (index.members.map (·.1)).Pairwise (· < ·) →
    indexText index = some text → parseIndex text = some index

/-- The storage of a record that names a pack (`is_packed`). -/
def packedStorage? (record : Option UnitRecord) : Option Storage :=
  record.bind fun r => r.storage.filter fun storage => storage.pack ≠ ""

/-! ## Reading -/

section
variable (C : Codec) (d : UnitDir)

def readFile (path : String) : Except Fault Bytes :=
  match d.lookup path with
  | some (.file data) => .ok data
  | none => .error .notFound
  | some _ => .error .other

def readRecord : Option UnitRecord :=
  match d.lookup unitRecord with
  | some (.file text) => C.parseRecord text
  | _ => none

def loadRecord : Except Fault UnitRecord :=
  match readRecord C d with
  | some record => .ok record
  | none => .error (.refused .U1)

def recordProblem (record : UnitRecord) : Option String :=
  let strings := [("input_digest", record.core.inputDigest),
    ("content_digest", record.core.contentDigest), ("run_id", record.core.runId),
    ("committed_at", record.core.committedAt), ("record_digest", record.recordDigest)]
  let objects := [("input_payload", record.core.inputPayload), ("meta", record.core.metaData),
    ("env", record.core.env)]
  let lacks := strings.findSome? fun (field, value) =>
    if value = none ∨ value = some "" ∧ field ≠ "run_id" then some ("record lacks " ++ field)
    else none
  let notObject := objects.findSome? fun (field, value) =>
    if value = none then some ("record field " ++ field ++ " is not an object") else none
  let mismatch :=
    if some (C.recordDigest record.core) ≠ record.recordDigest then
      some "record_digest does not match the record's core"
    else none
  lacks <|> notObject <|> mismatch

/-- What `collect_loose_members` refuses: a symlink to a directory, and what is not a
regular file under a member's name. -/
def notRepresentable (path : String) : Node → Bool
  | .file _ => false
  | .symlink true => true
  | .symlink false | .special => isMemberName path

/-- The paths of the member files, sorted. -/
def memberFiles : List String :=
  ((d.entries.filter fun e => isMemberName e.1).map Sigma.fst).insertionSort (· ≤ ·)

/-- `collect_loose_members`, of a directory nobody changes meanwhile. -/
def collectLooseMembers : Except Fault (List String) :=
  if d.entries.any fun e => notRepresentable e.1 e.2 then .error (.refused .U3)
  else .ok (memberFiles d)

def digestOfMembers (shas : List (String × String)) : String :=
  C.sha256 (C.pairsText (shas.insertionSort fun a b => a.1 ≤ b.1))

def hashFiles : List String → Except Fault (List (String × String))
  | [] => .ok []
  | path :: rest => do
    let data ← readFile d path
    let shas ← hashFiles rest
    return (path, C.sha256 data) :: shas

def looseShas : Except Fault (List (String × String)) := do
  let paths ← collectLooseMembers d
  hashFiles C d paths

def storageFiles (storage : Storage) : Except Fault (String × String) :=
  let ok (name : String) := isPlainRelpath name && '/' ∉ name.toList
  if ok storage.pack && ok storage.index then .ok (storage.pack, storage.index)
  else .error (.refused .U2)

/-- A file the record names: that it is missing is a refusal. -/
def readNamed (path : String) : Except Fault Bytes :=
  match readFile d path with
  | .error .notFound => .error (.refused .U2)
  | result => result

/-- The members of an index text that `_verified_members` accepts. -/
def checkIndex (storage : Storage) (text : Bytes) : Except Fault (List (String × Entry)) :=
  if C.sha256 text ≠ storage.indexSha256 then .error (.refused .U2)
  else
    match C.parseIndex text with
    | none => .error (.refused .U2)
    | some index =>
      if index.members.all fun m => isPlainRelpath m.1 && !excludedNames.contains m.1 then
        .ok index.members
      else .error (.refused .U2)

/-- `_verified_members`: the pack's name, and the members of the index. -/
def verifiedMembers (storage : Storage) : Except Fault (String × List (String × Entry)) :=
  if storage.format ≠ packFormat then .error (.refused .U2)
  else do
    let (packName, indexName) ← storageFiles storage
    let text ← readNamed d indexName
    let members ← checkIndex C storage text
    return (packName, members)

def memberFromHandle (pack : Bytes) (entry : Entry) : Except Fault Bytes :=
  let frame := (pack.drop entry.offset).take entry.length
  if frame.length ≠ entry.length then .error (.refused .U2)
  else
    match C.decompress frame with
    | none => .error (.refused .U2)
    | some block =>
      let data := (block.drop entry.headerLength).take entry.size
      if data.length ≠ entry.size ∨ C.sha256 data ≠ entry.sha256 then .error (.refused .U2)
      else .ok data

/-- `_verify_pack_members`, of the pack's bytes. -/
def verifyPackMembers (pack : Bytes) : List (String × Entry) → Except Fault Unit
  | [] => .ok ()
  | (_, entry) :: rest => do
    let _ ← memberFromHandle C pack entry
    verifyPackMembers pack rest

/-- The digest of the members an index names. -/
def digestOfIndex (members : List (String × Entry)) : String :=
  digestOfMembers C (members.map fun m => (m.1, m.2.sha256))

def packedDigest (storage : Storage) : Except Fault String := do
  let (packName, members) ← verifiedMembers C d storage
  let pack ← readNamed d packName
  verifyPackMembers C pack members
  return digestOfIndex C members

/-- `unit_content_digest`, of a directory nobody changes meanwhile: the record that is
read again after a loose digest is the same. -/
def unitContentDigest : Except Fault String :=
  match packedStorage? (readRecord C d) with
  | some storage => packedDigest C d storage
  | none => do
    let shas ← looseShas C d
    return digestOfMembers C shas

def noSymlinkedParent (path : String) : Bool :=
  (parents path).all fun parent =>
    match d.lookup parent with
    | some (.symlink _) => false
    | _ => true

/-- The entry of a member in an index. -/
def entryOf? (members : List (String × Entry)) (path : String) : Option Entry :=
  (members.find? fun m => m.1 = path).map (·.2)

def readPacked (storage : Storage) (path : String) : Except Fault Bytes := do
  let (packName, members) ← verifiedMembers C d storage
  match entryOf? members path with
  | none => .error (.refused .unknownMember)
  | some entry =>
    let pack ← readNamed d packName
    memberFromHandle C pack entry

/-- `read_unit_member`, of a directory nobody changes meanwhile. -/
def readUnitMember (path : String) : Except Fault Bytes :=
  if !isPlainRelpath path || excludedNames.contains path then .error (.refused .unknownMember)
  else
    match packedStorage? (readRecord C d) with
    | some storage => readPacked C d storage path
    | none =>
      if isTransient (baseName path) || !noSymlinkedParent d path then
        .error (.refused .unknownMember)
      else
        match d.lookup path with
        | some (.file data) => .ok data
        | _ => .error (.refused .unknownMember)

end

/-! ## A committed unit -/

/-- A loose unit whose record verifies against its members. -/
structure CommittedUnit (C : Codec) where
  dir : UnitDir
  record : UnitRecord
  contentDigest : String
  record_read : readRecord C dir = some record
  record_ok : recordProblem C record = none
  not_packed : packedStorage? (some record) = none
  digest_recorded : record.core.contentDigest = some contentDigest
  digest_loose : (looseShas C dir).map (digestOfMembers C) = .ok contentDigest
  plain : ∀ path ∈ dir.keys, isPlainRelpath path = true
  no_file_above : ∀ path ∈ dir.keys, ∀ parent ∈ parents path, parent ∉ dir.keys

end Xtrax.Pack
