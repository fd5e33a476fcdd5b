import Xtrax.LedgerDisk
import Xtrax.Machine

/-! # Runs and compaction passes on one ledger root

Any number of runs store blobs and close their ledgers while compaction passes are
under way.  A run is split at `BlobStore.find`, the `os.replace` of a blob,
`_active_segment`, `open`, `flock`, the write and the unlock; a pass at every
listing, every read, the two steps of its sealed file, every move, and every
`find` and `unlink` of its blob collection.

Three fields of the state are not part of the program: the log of all rows that runs
wrote, the rows that anybody put into a file, and how many these were when a pass
began its reference scan.
-/
namespace Xtrax.Ledger

open Option Interleaving

/-! ## Blobs -/

/-- The suffixes of `_CODECS`. -/
inductive Suffix
  | gz | zst
  deriving DecidableEq, Repr

/-- A file of the blob store: the digest of the text, and the codec. -/
abbrev Blob := String × Suffix

/-- `BlobStore.find`: a blob under any known suffix. -/
def findBlob (blobs : List Blob) (sha256 : String) : Option Blob :=
  [Suffix.gz, .zst].map (fun suffix => (sha256, suffix)) |>.find? fun b => b ∈ blobs

def Suffix.text : Suffix → String
  | gz => ".gz"
  | zst => ".zst"

/-- `BlobStore.iter_digests`: the digests in the order of the file names. -/
def iterDigests (blobs : List Blob) : List String :=
  (blobs.insertionSort fun a b => a.1 ++ a.2.text ≤ b.1 ++ b.2.text).map (·.1)

/-- The digest is in the store. -/
def Stored (blobs : List Blob) (sha256 : String) : Prop := ∃ suffix, (sha256, suffix) ∈ blobs

/-! ## Programs -/

/-- Where a run is, from its start to the end of `RunLedger.close`. -/
inductive RunPc
  /-- Under way; `held` are the digests `BlobStore.put` returned to it. -/
  | running (held : List String)
  /-- In `BlobStore.put`: the digest was not found, about to `os.replace` the file. -/
  | storing (held : List String) (sha256 : String)
  /-- `_active_segment` chose a segment: about to open it. -/
  | opening (row : RunLedgerRecord) (segment : Nat)
  /-- About to `flock` the file. -/
  | locking (row : RunLedgerRecord) (ino : Nat)
  /-- The lock is held: about to write the line. -/
  | writing (row : RunLedgerRecord) (ino : Nat)
  /-- The line is written: about to unlock. -/
  | unlocking (row : RunLedgerRecord) (ino : Nat)
  | closed (row : RunLedgerRecord)
  | crashed

/-- The digests a run was given and has not written a row for. -/
def RunPc.inFlight : RunPc → List String
  | running held | storing held _ => held
  | opening row _ | locking row _ | writing row _ => row.fullDigests
  | unlocking _ _ | closed _ | crashed => []

/-- A directory of the ledger root that the reference scan reads. -/
inductive Scan
  | sealed | segments | archive
  deriving DecidableEq, Repr

/-- A file the reference scan is about to read. -/
inductive ScanFile
  | live (s : Source)
  | archived (s : Source)
  deriving DecidableEq, Repr

/-- Where a pass is in `compact_ledger`. -/
inductive PassPc
  | ready
  /-- `iter_rows` listed `sealed/`, about to list `segments/`. -/
  | listing (sealed : List Nat)
  /-- `iter_rows` is about to read the files `todo`. -/
  | reading (todo : List Source) (rows : List RunLedgerRecord)
  /-- Every row is read: about to list `segments/` again. -/
  | relisting (rows : List RunLedgerRecord)
  /-- About to list `sealed/` again. -/
  | resealing (kept : List RunLedgerRecord) (segments : List Nat)
  /-- About to write the temporary file of the target. -/
  | writing (kept : List RunLedgerRecord) (existing segments : List Nat)
  /-- About to replace the target by its temporary file. -/
  | replacing (existing segments : List Nat)
  /-- About to move the files `todo` to the archive. -/
  | moving (todo : List Source)
  | scanning (dirs : List Scan) (referenced : List String)
  | scanReading (todo : List ScanFile) (dirs : List Scan) (referenced : List String)
  | listingBlobs (referenced : List String)
  /-- About to validate and find the first of the digests `todo`. -/
  | deleting (todo : List String) (referenced : List String)
  | stating (blob : Blob) (todo : List String) (referenced : List String)
  /-- In `BlobStore.delete`: about to find the digest again. -/
  | refinding (sha256 : String) (todo : List String) (referenced : List String)
  | unlinking (blob : Blob) (todo : List String) (referenced : List String)
  | done
  /-- The pass raised, or its process died. -/
  | raised

/-- From the first listing of the reference scan to the end. -/
def PassPc.collecting : PassPc → Bool
  | scanning _ _ | scanReading _ _ _ | listingBlobs _ | deleting _ _ | stating _ _ _
  | refinding _ _ _ | unlinking _ _ _ => true
  | _ => false

/-- The pass has begun and not ended. -/
def PassPc.underWay : PassPc → Bool
  | ready | done | raised => false
  | _ => true

/-! ## The machine -/

structure State (P Q : Type) where
  disk : Disk
  /-- The temporary file of each target in `sealed/`. -/
  tmp : Nat → Option (List RunLedgerRecord)
  blobs : List Blob
  lock : Nat → Option P
  run : P → RunPc
  pass : Q → PassPc
  /-- Every row a run has written so far. -/
  log : List RunLedgerRecord
  /-- Every row that was put into a file, by a run or in the sealed file of a pass. -/
  entered : List RunLedgerRecord
  /-- The length of `entered` when the pass began its reference scan. -/
  scanStart : Q → Nat

/-- What a run does next. -/
inductive RunAct
  /-- `BlobStore.put` of a text with this digest: `find`. -/
  | put (sha256 : String)
  /-- `os.replace` of the blob's temporary file, under the run's preferred codec. -/
  | store (suffix : Suffix)
  /-- The write of the blob fails: the artifact is not recorded in full. -/
  | storeFails
  /-- `RunLedger.close`: the row, and `_active_segment`. -/
  | close (row : RunLedgerRecord)
  /-- The next system call of `_append_line`. -/
  | advance
  | crash

inductive Event (P Q : Type)
  | run (p : P) (act : RunAct)
  | pass (q : Q)
  | stop (q : Q)

variable {P Q : Type} [DecidableEq P] [DecidableEq Q]

def State.gotoRun (s : State P Q) (p : P) (c : RunPc) : State P Q :=
  { s with run := Function.update s.run p c }

def State.gotoPass (s : State P Q) (q : Q) (c : PassPc) : State P Q :=
  { s with pass := Function.update s.pass q c }

omit [DecidableEq P] in
@[simp] theorem gotoPass_self (s : State P Q) (q : Q) (c : PassPc) :
    (s.gotoPass q c).pass q = c := by
  simp [State.gotoPass]

omit [DecidableEq P] in
theorem gotoPass_ne (s : State P Q) {q q' : Q} (c : PassPc) (h : q' ≠ q) :
    (s.gotoPass q c).pass q' = s.pass q' := by
  simp [State.gotoPass, h]

omit [DecidableEq Q] in
@[simp] theorem gotoRun_self (s : State P Q) (p : P) (c : RunPc) : (s.gotoRun p c).run p = c := by
  simp [State.gotoRun]

omit [DecidableEq Q] in
theorem gotoRun_ne (s : State P Q) {p p' : P} (c : RunPc) (h : p' ≠ p) :
    (s.gotoRun p c).run p' = s.run p' := by
  simp [State.gotoRun, h]

/-- `p` holds no lock any more. -/
def State.unlock (s : State P Q) (p : P) : State P Q :=
  { s with lock := fun i => if s.lock i = some p then none else s.lock i }

/-- One step of the run `p`.  A row it closes with names in full only artifacts that
`BlobStore.put` returned to it. -/
def runStep (lineBytes : RunLedgerRecord → Nat) (s : State P Q) (p : P) :
    RunAct → Option (State P Q)
  | .put sha256 =>
    match s.run p with
    | .running held =>
      if (findBlob s.blobs sha256).isSome then some (s.gotoRun p (.running (sha256 :: held)))
      else some (s.gotoRun p (.storing held sha256))
    | _ => none
  | .store suffix =>
    match s.run p with
    | .storing held sha256 =>
      some ({ s with blobs := (sha256, suffix) :: s.blobs.erase (sha256, suffix) }.gotoRun p
        (.running (sha256 :: held)))
    | _ => none
  | .storeFails =>
    match s.run p with
    | .storing held _ => some (s.gotoRun p (.running held))
    | _ => none
  | .close row =>
    match s.run p with
    | .running held =>
      if ∀ d ∈ row.fullDigests, d ∈ held then
        some (s.gotoRun p (.opening row (s.disk.activeSegment lineBytes)))
      else none
    | _ => none
  | .advance =>
    match s.run p with
    | .opening row n =>
      some ({ s with disk := (s.disk.openAppend n).2 }.gotoRun p
        (.locking row (s.disk.openAppend n).1))
    | .locking row i =>
      if s.lock i = none then
        some ({ s with lock := Function.update s.lock i (some p) }.gotoRun p (.writing row i))
      else none
    | .writing row i =>
      some ({ s with
          disk := s.disk.append i row
          log := s.log ++ [row]
          entered := s.entered ++ [row] }.gotoRun p
        (.unlocking row i))
    | .unlocking row _ => some ((s.unlock p).gotoRun p (.closed row))
    | _ => none
  | .crash =>
    match s.run p with
    | .closed _ | .crashed => none
    | _ => some ((s.unlock p).gotoRun p .crashed)

/-- The paths of a directory the reference scan lists. -/
def scanFiles (d : Disk) : Scan → List ScanFile
  | .sealed => d.sealed.names.map fun n => .live (.sealed n)
  | .segments => d.segments.names.map fun n => .live (.segment n)
  | .archive => d.archive.map fun e => .archived e.1

/-- The inode at a path the reference scan reads. -/
def scanIno? (d : Disk) : ScanFile → Option Nat
  | .live s => d.ino? s
  | .archived s => (d.archive.find? fun e => e.1 = s).map (·.2)

/-- One step of the pass `q`. -/
def passStep (args : CompactArgs) (s : State P Q) (q : Q) : Option (State P Q) :=
  match s.pass q with
  | .ready =>
    if args.due s.disk then some (s.gotoPass q (.listing s.disk.sealed.names))
    else some (s.gotoPass q .done)
  | .listing sealed =>
    some (s.gotoPass q (.reading (Disk.moves sealed s.disk.segments.names) []))
  | .reading [] rows => some (s.gotoPass q (.relisting rows))
  | .reading (src :: todo) rows =>
    match s.disk.ino? src with
    | none => some (s.gotoPass q .raised)
    | some i => some (s.gotoPass q (.reading todo (rows ++ s.disk.lines i)))
  | .relisting rows =>
    if args.dryRun then some (s.gotoPass q .done)
    else some (s.gotoPass q (.resealing (dedup rows) s.disk.segments.names))
  | .resealing kept segments =>
    some (s.gotoPass q (.writing kept s.disk.sealed.names segments))
  | .writing kept existing segments =>
    some ({ s with tmp := Function.update s.tmp (Disk.nextIndex existing) (some kept) }.gotoPass q
      (.replacing existing segments))
  | .replacing existing segments =>
    match s.tmp (Disk.nextIndex existing) with
    | none => some (s.gotoPass q .raised)
    | some kept =>
      some ({ s with
          disk := s.disk.writeSealed (Disk.nextIndex existing) kept
          tmp := Function.update s.tmp (Disk.nextIndex existing) none
          entered := s.entered ++ kept }.gotoPass q
        (.moving (Disk.moves existing segments)))
  | .moving [] =>
    if args.gcBlobs then
      some ({ s with scanStart := Function.update s.scanStart q s.entered.length }.gotoPass q
        (.scanning [.sealed, .segments, .archive] []))
    else some (s.gotoPass q .done)
  | .moving (src :: todo) =>
    match s.disk.move src with
    | none => some (s.gotoPass q .raised)
    | some d => some ({ s with disk := d }.gotoPass q (.moving todo))
  | .scanning [] referenced => some (s.gotoPass q (.listingBlobs referenced))
  | .scanning (dir :: dirs) referenced =>
    some (s.gotoPass q (.scanReading (scanFiles s.disk dir) dirs referenced))
  | .scanReading [] dirs referenced => some (s.gotoPass q (.scanning dirs referenced))
  | .scanReading (file :: todo) dirs referenced =>
    match scanIno? s.disk file with
    | none => some (s.gotoPass q .raised)
    | some i =>
      some (s.gotoPass q (.scanReading todo dirs
        (referenced ++ (s.disk.lines i).flatMap RunLedgerRecord.digests)))
  | .listingBlobs referenced =>
    some (s.gotoPass q (.deleting (iterDigests s.blobs) referenced))
  | .deleting [] _ => some (s.gotoPass q .done)
  | .deleting (sha256 :: todo) referenced =>
    if sha256 ∈ referenced then some (s.gotoPass q (.deleting todo referenced))
    else if sha256.length ≠ 64 then some (s.gotoPass q .raised)
    else
      -- `store.delete` comes next whether or not there is a size to take
      match findBlob s.blobs sha256 with
      | none => some (s.gotoPass q (.refinding sha256 todo referenced))
      | some blob => some (s.gotoPass q (.stating blob todo referenced))
  | .stating blob todo referenced =>
    if blob ∈ s.blobs then some (s.gotoPass q (.refinding blob.1 todo referenced))
    else some (s.gotoPass q .raised)
  | .refinding sha256 todo referenced =>
    match findBlob s.blobs sha256 with
    | none => some (s.gotoPass q (.deleting todo referenced))
    | some blob => some (s.gotoPass q (.unlinking blob todo referenced))
  | .unlinking blob todo referenced =>
    if blob ∈ s.blobs then
      some ({ s with blobs := s.blobs.filter (· ≠ blob) }.gotoPass q (.deleting todo referenced))
    else some (s.gotoPass q .raised)
  | .done | .raised => none

/-- Every run is at its start, every pass too, and nothing is in flight. -/
structure Initial (s : State P Q) : Prop where
  run : ∀ p, s.run p = .running []
  pass : ∀ q, s.pass q = .ready
  tmp : ∀ n, s.tmp n = none
  lock : ∀ i, s.lock i = none
  log : s.log = []
  wf : s.disk.WF

/-- Any number of runs `P` and passes `Q` on one ledger root. -/
def machine (lineBytes : RunLedgerRecord → Nat) (args : Q → CompactArgs) :
    Machine (State P Q) (Event P Q) where
  init := Initial
  step
    | s, .run p act => runStep lineBytes s p act
    | s, .pass q => passStep (args q) s q
    | s, .stop q => if (s.pass q).underWay then some (s.gotoPass q .raised) else none

/-- A new ledger root, with `P` runs and `Q` passes at their start. -/
def start (P Q : Type) : State P Q where
  disk := .empty
  tmp := fun _ => none
  blobs := []
  lock := fun _ => none
  run := fun _ => .running []
  pass := fun _ => .ready
  log := []
  entered := []
  scanStart := fun _ => 0

theorem start_initial (P Q : Type) : Initial (start P Q) :=
  ⟨fun _ => rfl, fun _ => rfl, fun _ => rfl, fun _ => rfl, rfl, Disk.wf_empty⟩

/-- A whole `close` by `p`. -/
def closing {Q : Type} (p : Fin 2) (row : RunLedgerRecord) : List (Event (Fin 2) Q) :=
  [.run p (.close row), .run p .advance, .run p .advance, .run p .advance, .run p .advance]

/-! ## What one step can do -/

inductive RunStep (lineBytes : RunLedgerRecord → Nat) (s : State P Q) (p : P) :
    RunAct → State P Q → Prop
  | found (held : List String) (sha256 : String) : s.run p = .running held →
      (findBlob s.blobs sha256).isSome →
      RunStep lineBytes s p (.put sha256) (s.gotoRun p (.running (sha256 :: held)))
  | missing (held : List String) (sha256 : String) : s.run p = .running held →
      RunStep lineBytes s p (.put sha256) (s.gotoRun p (.storing held sha256))
  | stored (held : List String) (sha256 : String) (suffix : Suffix) :
      s.run p = .storing held sha256 →
      RunStep lineBytes s p (.store suffix)
        ({ s with blobs := (sha256, suffix) :: s.blobs.erase (sha256, suffix) }.gotoRun p
          (.running (sha256 :: held)))
  | storeFailed (held : List String) (sha256 : String) : s.run p = .storing held sha256 →
      RunStep lineBytes s p .storeFails (s.gotoRun p (.running held))
  | chosen (held : List String) (row : RunLedgerRecord) : s.run p = .running held →
      (∀ d ∈ row.fullDigests, d ∈ held) →
      RunStep lineBytes s p (.close row)
        (s.gotoRun p (.opening row (s.disk.activeSegment lineBytes)))
  | opened (row : RunLedgerRecord) (n : Nat) : s.run p = .opening row n →
      RunStep lineBytes s p .advance ({ s with disk := (s.disk.openAppend n).2 }.gotoRun p
        (.locking row (s.disk.openAppend n).1))
  | locked (row : RunLedgerRecord) (i : Nat) : s.run p = .locking row i → s.lock i = none →
      RunStep lineBytes s p .advance
        ({ s with lock := Function.update s.lock i (some p) }.gotoRun p (.writing row i))
  | wrote (row : RunLedgerRecord) (i : Nat) : s.run p = .writing row i →
      RunStep lineBytes s p .advance
        ({ s with
            disk := s.disk.append i row
            log := s.log ++ [row]
            entered := s.entered ++ [row] }.gotoRun p
          (.unlocking row i))
  | unlocked (row : RunLedgerRecord) (i : Nat) : s.run p = .unlocking row i →
      RunStep lineBytes s p .advance ((s.unlock p).gotoRun p (.closed row))
  | crashed : RunStep lineBytes s p .crash ((s.unlock p).gotoRun p .crashed)

omit [DecidableEq Q] in
theorem runStep_cases {lineBytes : RunLedgerRecord → Nat} {s t : State P Q} {p : P} {act : RunAct}
    (ht : runStep lineBytes s p act = some t) : RunStep lineBytes s p act t := by
  cases act with
  | put sha256 =>
    cases hpc : s.run p with
    | running held =>
      by_cases hfound : (findBlob s.blobs sha256).isSome
      · obtain rfl := by simpa [runStep, hpc, hfound] using ht
        exact .found held sha256 hpc hfound
      · obtain rfl := by simpa [runStep, hpc, hfound] using ht
        exact .missing held sha256 hpc
    | _ => simp [runStep, hpc] at ht
  | store suffix =>
    cases hpc : s.run p with
    | storing held sha256 =>
      obtain rfl := by simpa [runStep, hpc] using ht
      exact .stored held sha256 suffix hpc
    | _ => simp [runStep, hpc] at ht
  | storeFails =>
    cases hpc : s.run p with
    | storing held sha256 =>
      obtain rfl := by simpa [runStep, hpc] using ht
      exact .storeFailed held sha256 hpc
    | _ => simp [runStep, hpc] at ht
  | close row =>
    cases hpc : s.run p with
    | running held =>
      obtain ⟨hheld, rfl⟩ := by simpa [runStep, hpc] using ht
      exact .chosen held row hpc hheld
    | _ => simp [runStep, hpc] at ht
  | advance =>
    cases hpc : s.run p with
    | opening row n =>
      obtain rfl := by simpa [runStep, hpc] using ht
      exact .opened row n hpc
    | locking row i =>
      obtain ⟨hlock, rfl⟩ := by simpa [runStep, hpc] using ht
      exact .locked row i hpc hlock
    | writing row i =>
      obtain rfl := by simpa [runStep, hpc] using ht
      exact .wrote row i hpc
    | unlocking row i =>
      obtain rfl := by simpa [runStep, hpc] using ht
      exact .unlocked row i hpc
    | _ => simp [runStep, hpc] at ht
  | crash =>
    have hcrash : t = (s.unlock p).gotoRun p .crashed := by
      cases hpc : s.run p <;> simp [runStep, hpc] at ht <;> exact ht.symm
    exact hcrash ▸ .crashed

omit [DecidableEq P] in
theorem passStep_frame {args : CompactArgs} {s t : State P Q} {q : Q}
    (ht : passStep args s q = some t) : t.run = s.run ∧ t.log = s.log := by
  unfold passStep at ht
  repeat' split at ht
  all_goals first
    | (obtain rfl := some.inj ht; exact ⟨rfl, rfl⟩)
    | cases ht

omit [DecidableEq P] in
theorem passStep_collecting {args : CompactArgs} {s t : State P Q} {q : Q}
    (hpc : (s.pass q).collecting) (ht : passStep args s q = some t) :
    t.disk = s.disk ∧ t.tmp = s.tmp ∧ t.log = s.log ∧
      ((t.pass q).collecting ∨ t.pass q = .done ∨ t.pass q = .raised) := by
  unfold passStep at ht
  cases h : s.pass q with
  | scanning dirs referenced =>
    cases dirs <;> (rw [h] at ht; obtain rfl := some.inj ht; simp [State.gotoPass,
      PassPc.collecting])
  | scanReading todo dirs referenced =>
    cases todo with
    | nil => rw [h] at ht; obtain rfl := some.inj ht; simp [State.gotoPass, PassPc.collecting]
    | cons file todo =>
      rw [h] at ht
      dsimp only at ht
      split at ht <;> (obtain rfl := some.inj ht; simp [State.gotoPass, PassPc.collecting])
  | listingBlobs referenced =>
    rw [h] at ht
    obtain rfl := some.inj ht
    simp [State.gotoPass, PassPc.collecting]
  | deleting todo referenced =>
    cases todo with
    | nil => rw [h] at ht; obtain rfl := some.inj ht; simp [State.gotoPass]
    | cons sha256 todo =>
      rw [h] at ht
      dsimp only at ht
      split at ht
      · obtain rfl := some.inj ht
        simp [State.gotoPass, PassPc.collecting]
      · split at ht
        · obtain rfl := some.inj ht
          simp [State.gotoPass]
        · split at ht <;>
            (obtain rfl := some.inj ht; simp [State.gotoPass, PassPc.collecting])
  | stating blob todo referenced | refinding sha256 todo referenced
  | unlinking blob todo referenced =>
    rw [h] at ht
    dsimp only at ht
    split at ht <;> (obtain rfl := some.inj ht; simp [State.gotoPass, PassPc.collecting])
  | _ => simp [h, PassPc.collecting] at hpc

end Xtrax.Ledger
