import Xtrax.Machine
import Xtrax.UnitPack

/-! # The packer, step by step

`pack_unit` and `pack_sweep` as a program counter on a unit directory.  A step is one
file-system operation that changes the directory; what the packer only reads is read
in the step that acts on it, as one packer runs at a time.  Any step may instead fail
with an exception, whose handlers run before the call ends, or be the last one of a
process that dies.
-/
namespace Xtrax.Pack
open Interleaving

/-- The arguments of `pack_unit`.  `tag` is the host name and the process id in the
names of temporary files. -/
structure PackArgs where
  level : Int := 3
  minMembers : Nat := 1
  check : Option (UnitRecord → String → Bool) := none
  lock : Bool := true
  tag : String
  tag_plain : '/' ∉ tag.toList

/-- `_tmp_path` of a file at the root of the unit. -/
def PackArgs.tmpPath (args : PackArgs) (name : String) : String :=
  "." ++ name ++ "." ++ args.tag ++ ".tmp"

/-- Where a process is in `pack_unit` or `pack_sweep`. -/
inductive PackPc
  | idle
  | locking
  | granting
  | loading
  /-- About to collect the loose members. -/
  | collecting (record : UnitRecord)
  | opening (record : UnitRecord) (paths : List String)
  /-- About to write the frame of the first of `todo` at `offset`. -/
  | packing (record : UnitRecord) (todo : List String) (members : List (String × Entry))
    (offset : Nat)
  /-- About to write the end-of-archive frame. -/
  | marking (record : UnitRecord) (members : List (String × Entry))
  /-- About to read the partial pack back and run the completion check. -/
  | verifying (record : UnitRecord) (members : List (String × Entry))
  /-- In the handler of steps 1 and 2: about to unlink the partial pack. -/
  | discarding (fault : Fault)
  /-- About to rename the partial pack into place. -/
  | moving (record : UnitRecord) (members : List (String × Entry))
  /-- About to write the index's temporary file. -/
  | writingIndex (record : UnitRecord) (members : List (String × Entry)) (packSha : String)
  | replacingIndex (record : UnitRecord) (members : List (String × Entry)) (packSha : String)
    (text : Bytes)
  /-- About to write the record's temporary file. -/
  | writingRecord (record : UnitRecord)
  | replacingRecord
  /-- In `pack_sweep`: about to read the record. -/
  | sweepLoading (verified : Bool)
  /-- About to verify the index, and the pack unless `pack_unit` has just done so. -/
  | sweepVerifying (verified : Bool) (record : UnitRecord) (storage : Storage)
  /-- About to compare the loose copies with the index. -/
  | comparing (record : UnitRecord) (members : List (String × Entry))
  /-- About to remove the first of `todo`. -/
  | deleting (record : UnitRecord) (todo : List String)
  /-- About to remove the lock file. -/
  | unlocking (result : Except Fault UnitRecord)
  | finished (result : Except Fault UnitRecord)
  | crashed

/-- The end of a call: `_pack_lock` is left on the way out. -/
def PackArgs.leave (args : PackArgs) (result : Except Fault UnitRecord) : PackPc :=
  if args.lock then .unlocking result else .finished result

section
variable (C : Codec)

/-- `_tar_member_block`: the USTAR header and the padded payload, and the header's length. -/
def tarMemberBlock (path : String) (payload : Bytes) : Except Fault (Bytes × Nat) :=
  match C.tarHeader path payload.length with
  | none => .error (.refused .U3)
  | some header =>
    .ok (header ++ payload ++ List.replicate ((512 - payload.length % 512) % 512) 0, header.length)

/-- The frame of a member, and its entry in the index. -/
def packMember (level : Int) (d : UnitDir) (path : String) (offset : Nat) :
    Except Fault (Bytes × Entry) := do
  let raw ← readFile d path
  let (block, headerLength) ← tarMemberBlock C path raw
  match C.compress level block with
  | none => .error .other
  | some frame =>
    .ok (frame,
      { offset := offset
        length := frame.length
        headerLength := headerLength
        size := raw.length
        sha256 := C.sha256 raw })

/-- A write at the end of the partial pack. -/
def appendPartial (d : UnitDir) (frame : Bytes) : UnitDir :=
  match d.lookup partialFile with
  | some (.file data) => d.insert partialFile (.file (data ++ frame))
  | _ => d

/-- `os.replace`. -/
def replaceFile (d : UnitDir) (source target : String) : Option UnitDir :=
  (d.lookup source).map fun node => (d.erase source).insert target node

def checkContentDigest (record : UnitRecord) (digest : String) : Bool :=
  recordProblem C record = none && record.core.contentDigest = some digest

/-- Step 2: every member of the partial pack, and the completion check. -/
def verifyPartial (args : PackArgs) (d : UnitDir) (record : UnitRecord)
    (members : List (String × Entry)) : Except Fault Unit := do
  let pack ← readNamed d partialFile
  verifyPackMembers C pack members
  let passes := (args.check.getD (checkContentDigest C)) record (digestOfIndex C members)
  if passes then .ok () else .error (.refused .U1)

def storedRecord (record : UnitRecord) (members : List (String × Entry)) (packSha : String)
    (indexText : Bytes) : UnitRecord :=
  { record with
    storage := some
      { packSha256 := packSha, indexSha256 := C.sha256 indexText, nMembers := members.length } }

/-- What `pack_sweep` verifies before it looks at the loose copies. -/
def sweepCheck (d : UnitDir) (verified : Bool) (storage : Storage) :
    Except Fault (List (String × Entry)) := do
  let (packName, members) ← verifiedMembers C d storage
  if verified then return members
  else
    let pack ← readNamed d packName
    if C.sha256 pack ≠ storage.packSha256 then .error (.refused .U2)
    else
      verifyPackMembers C pack members
      return members

/-- The loose copies that `pack_sweep` will delete. -/
def looseCopies (d : UnitDir) : List (String × Entry) → Except Fault (List String)
  | [] => .ok []
  | (path, entry) :: rest =>
    if !noSymlinkedParent d path then .error (.refused .U2)
    else
      match d.lookup path with
      | none => looseCopies d rest
      | some (.file data) =>
        if C.sha256 data = entry.sha256 then (looseCopies d rest).map (path :: ·)
        else .error (.refused .U2)
      | some _ => .error (.refused .U2)

/-- One step of a call. -/
def advance (args : PackArgs) (d : UnitDir) : PackPc → Option (UnitDir × PackPc)
  | .idle | .finished _ | .crashed => none
  | .locking =>
    some (if packLock ∈ d then d else d.insert packLock (.file []), .granting)
  | .granting => some (d, .loading)
  | .loading =>
    match loadRecord C d with
    | .error fault => some (d, args.leave (.error fault))
    | .ok record =>
      if (packedStorage? (some record)).isSome then some (d, .sweepLoading false)
      else some (d, .collecting record)
  | .collecting record =>
    match collectLooseMembers d with
    | .error fault => some (d, args.leave (.error fault))
    | .ok paths =>
      if paths.length < max args.minMembers 1 then some (d, args.leave (.ok record))
      else some (d, .opening record paths)
  | .opening record paths =>
    some (d.insert partialFile (.file []), .packing record paths [] 0)
  | .packing record [] members _ => some (d, .marking record members)
  | .packing record (path :: todo) members offset =>
    match packMember C args.level d path offset with
    | .error fault => some (d, .discarding fault)
    | .ok (frame, entry) =>
      some (appendPartial d frame,
        .packing record todo (members ++ [(path, entry)]) (offset + frame.length))
  | .marking record members =>
    match C.compress args.level (List.replicate 1024 0) with
    | none => some (d, .discarding .other)
    | some frame => some (appendPartial d frame, .verifying record members)
  | .verifying record members =>
    match verifyPartial C args d record members with
    | .error fault => some (d, .discarding fault)
    | .ok () => some (d, .moving record members)
  | .discarding fault => some (d.erase partialFile, args.leave (.error fault))
  | .moving record members =>
    match readFile d partialFile with
    | .error fault => some (d, args.leave (.error fault))
    | .ok pack =>
      match replaceFile d partialFile packFile with
      | none => some (d, args.leave (.error .notFound))
      | some d' => some (d', .writingIndex record members (C.sha256 pack))
  | .writingIndex record members packSha =>
    match C.indexText { members := members } with
    | none => some (d, args.leave (.error .other))
    | some text =>
      some (d.insert (args.tmpPath packIndex) (.file text),
        .replacingIndex record members packSha text)
  | .replacingIndex record members packSha text =>
    match replaceFile d (args.tmpPath packIndex) packIndex with
    | none => some (d, args.leave (.error .notFound))
    | some d' => some (d', .writingRecord (storedRecord C record members packSha text))
  | .writingRecord record =>
    match C.recordText record with
    | none => some (d, args.leave (.error .other))
    | some text => some (d.insert (args.tmpPath unitRecord) (.file text), .replacingRecord)
  | .replacingRecord =>
    match replaceFile d (args.tmpPath unitRecord) unitRecord with
    | none => some (d, args.leave (.error .notFound))
    | some d' => some (d', .sweepLoading true)
  | .sweepLoading verified =>
    match loadRecord C d with
    | .error fault => some (d, args.leave (.error fault))
    | .ok record =>
      match packedStorage? (some record) with
      | none => some (d, args.leave (.ok record))
      | some storage => some (d, .sweepVerifying verified record storage)
  | .sweepVerifying verified record storage =>
    match sweepCheck C d verified storage with
    | .error fault => some (d, args.leave (.error fault))
    | .ok members => some (d, .comparing record members)
  | .comparing record members =>
    match looseCopies C d members with
    | .error fault => some (d, args.leave (.error fault))
    | .ok todo => some (d, .deleting record todo)
  | .deleting record [] => some (d, args.leave (.ok record))
  | .deleting record (path :: todo) => some (d.erase path, .deleting record todo)
  | .unlocking result => some (d.erase packLock, .finished result)

end

/-- An exception in the step at hand: the handlers that run before the call ends.  A
`lockf` that fails unlinks the lock file. -/
def raiseAt (args : PackArgs) (d : UnitDir) : PackPc → Option (UnitDir × PackPc)
  | .idle | .finished _ | .crashed => none
  | .locking => some (d, .finished (.error .other))
  | .granting => some (d.erase packLock, .finished (.error .other))
  | .opening _ _ | .packing _ _ _ _ | .marking _ _ | .verifying _ _ =>
    some (d, .discarding .other)
  | .unlocking _ => some (d, .finished (.error .other))
  | _ => some (d, args.leave (.error .other))

/-- A write that stops part of the way, with `data` in its file, and raises. -/
def tearAt (args : PackArgs) (d : UnitDir) (data : Bytes) : PackPc → Option (UnitDir × PackPc)
  | .packing _ _ _ _ | .marking _ _ => some (d.insert partialFile (.file data), .discarding .other)
  | .writingIndex _ _ _ =>
    some (d.insert (args.tmpPath packIndex) (.file data), args.leave (.error .other))
  | .writingRecord _ =>
    some (d.insert (args.tmpPath unitRecord) (.file data), args.leave (.error .other))
  | _ => none

/-- No call is under way. -/
def PackPc.resting : PackPc → Bool
  | idle | finished _ | crashed => true
  | _ => false

structure State where
  dir : UnitDir
  args : PackArgs
  pc : PackPc

inductive Event
  | pack (args : PackArgs)
  | sweep
  | advance
  | fail
  /-- The write at hand raises, with this much in its file. -/
  | tear (data : Bytes)
  | crash

/-- `pack_sweep` takes no lock and writes no temporary file. -/
def sweepArgs : PackArgs where
  lock := false
  tag := ""
  tag_plain := by simp

/-- What happens next in a unit directory. -/
def packStep (C : Codec) (s : State) : Event → Option State
  | .pack args =>
    if s.pc.resting then
      some { dir := s.dir, args := args, pc := if args.lock then .locking else .loading }
    else none
  | .sweep =>
    if s.pc.resting then some { dir := s.dir, args := sweepArgs, pc := .sweepLoading false }
    else none
  | .advance => (advance C s.args s.dir s.pc).map fun (d, pc) => { s with dir := d, pc := pc }
  | .fail => (raiseAt s.args s.dir s.pc).map fun (d, pc) => { s with dir := d, pc := pc }
  | .tear data => (tearAt s.args s.dir data s.pc).map fun (d, pc) => { s with dir := d, pc := pc }
  | .crash => if s.pc.resting then none else some { s with pc := .crashed }

/-- Calls of `pack_unit` and `pack_sweep` on a committed unit, one after the other, each
stopped anywhere. -/
def machine (C : Codec) (U : CommittedUnit C) : Machine State Event where
  init s := s.dir = U.dir ∧ s.pc = .idle
  step := packStep C

end Xtrax.Pack
