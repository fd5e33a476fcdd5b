import Mathlib
import Xtrax.LastWins

/-! # The run ledger and its compaction

A ledger root holds three directories of JSONL files.  Runs append their one row
to a numbered file of `segments/`; a compaction pass reads every row, writes the
last row of each `(run_id, kind)` to a new file of `sealed/`, and moves the files
it read to `archive/`.

A `Disk` keeps each directory as its listing, in the order of
`sorted(glob("*.jsonl"))`, with the inode each name stands for.  A line of a file is
the record it decodes to: `to_json_line` and `_read_line` are inverse on the rows this
code writes.
-/
namespace Xtrax.Ledger
open LastWins

/-- `IRRef.mode`. -/
inductive IRMode
  | full | hashOnly | skipped
  deriving DecidableEq, Repr

/-- A reference to one captured IR artifact, with the digest check of
`IRRef.__post_init__`. -/
structure IRRef where
  kind : String
  sha256 : String
  bytes : Nat
  mode : IRMode := .full
  reason : Option String := none
  sha256_length : mode ≠ .skipped → sha256.length = 64
  deriving DecidableEq

inductive TelemetryStatus
  | complete | degraded | failed | optedOut
  deriving DecidableEq, Repr

/-- One row.  `provenance` is the JSON of a `RunProvenance`, which the ledger and
its compaction carry without looking inside. -/
structure RunLedgerRecord where
  runId : String
  kind : String
  derivedFrom : Option String := none
  telemetryStatus : TelemetryStatus := .complete
  statusReason : Option String := none
  context : List (String × String) := []
  ir : List IRRef := []
  provenance : String := ""
  deriving DecidableEq

/-- The key of `_dedup`: `(run_id, kind)`. -/
def RunLedgerRecord.key (row : RunLedgerRecord) : String × String := (row.runId, row.kind)

/-- The digests `_referenced_digests` takes from a row: the non-empty ones. -/
def RunLedgerRecord.digests (row : RunLedgerRecord) : List String :=
  (row.ir.map IRRef.sha256).filter (· ≠ "")

/-- The digests of the artifacts the row says are stored in full. -/
def RunLedgerRecord.fullDigests (row : RunLedgerRecord) : List String :=
  (row.ir.filter fun ref => ref.mode = .full).map IRRef.sha256

theorem RunLedgerRecord.fullDigests_subset (row : RunLedgerRecord) :
    ∀ d ∈ row.fullDigests, d ∈ row.digests := by
  intro d hd
  obtain ⟨ref, href, rfl⟩ := List.mem_map.mp hd
  obtain ⟨hmem, hfull⟩ := List.mem_filter.mp href
  refine List.mem_filter.mpr ⟨List.mem_map_of_mem hmem, ?_⟩
  have hlen := ref.sha256_length (by simp [of_decide_eq_true hfull])
  have hne : ref.sha256 ≠ "" := by
    intro he
    rw [he] at hlen
    simp at hlen
  simpa using hne

/-- `_dedup`: the last row per `(run_id, kind)`, in first-seen order. -/
def dedup (rows : List RunLedgerRecord) : List RunLedgerRecord :=
  keepLast RunLedgerRecord.key rows

/-! ## Directories -/

/-- A directory's listing: file number and inode. -/
abbrev Dir := List (Nat × Nat)

/-- `f"{n:05d}.jsonl"`. -/
def fileName (n : Nat) : String :=
  String.ofList ((Nat.toDigits 10 n).leftpad 5 '0') ++ ".jsonl"

namespace Dir

/-- The inode a name stands for. -/
def ino? (dir : Dir) (n : Nat) : Option Nat := (dir.find? fun e => e.1 = n).map (·.2)

def names (dir : Dir) : List Nat := dir.map (·.1)

/-- The name is taken out of the directory. -/
def remove (dir : Dir) (n : Nat) : Dir := dir.filter fun e => e.1 ≠ n

/-- The name stands for `i` from now on, at its place in the listing. -/
def set (dir : Dir) (n i : Nat) : Dir :=
  (dir.remove n).orderedInsert (fun a b => fileName a.1 ≤ fileName b.1) (n, i)

/-- The files listed after `n`. -/
def after (dir : Dir) (n : Nat) : Dir := (dir.dropWhile fun e => e.1 ≠ n).drop 1

end Dir

/-- A file of `sealed/` or of `segments/`.  In the archive it is called
`sealed-<name>` or `segment-<name>`. -/
inductive Source
  | sealed (n : Nat)
  | segment (n : Nat)
  deriving DecidableEq, Repr

/-- The three directories and the lines of every file. -/
structure Disk where
  sealed : Dir
  segments : Dir
  archive : List (Source × Nat)
  lines : Nat → List RunLedgerRecord
  /-- The inode the next new file gets. -/
  next : Nat

namespace Disk
variable (d : Disk)

/-- A new ledger root. -/
def empty : Disk where
  sealed := []
  segments := []
  archive := []
  lines := fun _ => []
  next := 0

/-- The rows of the files of a listing, in order. -/
def rows (dir : Dir) : List RunLedgerRecord := dir.flatMap fun e => d.lines e.2

/-- `iter_rows`: sealed rows first, then live segments. -/
def iterRows : List RunLedgerRecord := d.rows d.sealed ++ d.rows d.segments

/-- `find_run`: the last row with this run id. -/
def findRun (runId : String) : Option RunLedgerRecord :=
  d.iterRows.foldl (fun found record => if record.runId = runId then some record else found) none

/-! ## Appending a row -/

def maxSegmentBytes : Nat := 8 * 1024 * 1024

/-- `_active_segment`: the highest-numbered segment under the size cap, or the next
one.  `lineBytes` is the length of a record's JSON line. -/
def activeSegment (lineBytes : RunLedgerRecord → Nat) : Nat :=
  match d.segments.names.max? with
  | none => 1
  | some newest =>
    if (((d.segments.ino? newest).map d.lines).getD [] |>.map lineBytes).sum < maxSegmentBytes then
      newest
    else newest + 1

/-- `path.open("a")` of a segment: the file's inode, a new one if there is none. -/
def openAppend (n : Nat) : Nat × Disk :=
  match d.segments.ino? n with
  | some i => (i, d)
  | none =>
    (d.next,
      { d with
        segments := d.segments.set n d.next
        lines := Function.update d.lines d.next []
        next := d.next + 1 })

/-- One line is written at the end of the file. -/
def append (i : Nat) (row : RunLedgerRecord) : Disk :=
  { d with lines := Function.update d.lines i (d.lines i ++ [row]) }

/-- `RunLedger.close` with nobody in between: `_active_segment`, then `_append_line`. -/
def close (lineBytes : RunLedgerRecord → Nat) (row : RunLedgerRecord) : Disk :=
  let (i, d') := d.openAppend (d.activeSegment lineBytes)
  d'.append i row

/-! ## A compaction pass -/

/-- `next_index`, from the listing of `sealed/`. -/
def nextIndex (existing : List Nat) : Nat :=
  match existing.getLast? with
  | none => 0
  | some n => n + 1

/-- `tmp.write_text(...)` and `tmp.replace(target)`: a new file with the rows `kept`
stands at `sealed/n`. -/
def writeSealed (n : Nat) (kept : List RunLedgerRecord) : Disk :=
  { d with
    sealed := d.sealed.set n d.next
    lines := Function.update d.lines d.next kept
    next := d.next + 1 }

/-- A file's inode. -/
def ino? : Source → Option Nat
  | .sealed n => d.sealed.ino? n
  | .segment n => d.segments.ino? n

/-- The name is taken out of its live directory. -/
def unlink : Source → Disk
  | .sealed n => { d with sealed := d.sealed.remove n }
  | .segment n => { d with segments := d.segments.remove n }

/-- The archive's name for `s` stands for `i`, over a file of that name if there is
one. -/
def putArchive (s : Source) (i : Nat) : Disk :=
  { d with archive := (s, i) :: d.archive.filter fun e => e.1 ≠ s }

/-- `shutil.move` to the archive, which is `os.rename`; `none` when the source is gone. -/
def move (s : Source) : Option Disk := (d.ino? s).map fun i => (d.unlink s).putArchive s i

/-- The files a pass moves after its `replace`, in order. -/
def moves (existing segments : List Nat) : List Source :=
  existing.map .sealed ++ segments.map .segment

/-- The disks a sequence of moves passes through; it ends early at a file that is gone. -/
def moveStops (d : Disk) : List Source → List Disk
  | [] => [d]
  | s :: rest => d :: ((d.move s).map fun d' => moveStops d' rest).getD []

/-- The disk after a sequence of moves. -/
def moveAll (d : Disk) (sources : List Source) : Option Disk := sources.foldlM move d

/-- The disk after `tmp.replace(target)` of a pass with nobody in between. -/
def replaced : Disk := d.writeSealed (nextIndex d.sealed.names) (dedup d.iterRows)

end Disk

/-- `compact_ledger`'s arguments, other than the root and the backend. -/
structure CompactArgs where
  force : Bool := false
  threshold : Nat := 50
  gcBlobs : Bool := true
  dryRun : Bool := false
  deriving DecidableEq, Repr

/-- `force or should_compact(...)`. -/
def CompactArgs.due (args : CompactArgs) (d : Disk) : Bool :=
  args.force || decide (args.threshold ≤ d.segments.length)

/-- The pass gets past its early returns: it will rewrite the ledger. -/
def CompactArgs.rewrites (args : CompactArgs) (d : Disk) : Bool := args.due d && !args.dryRun

/-- `compact_ledger` with nobody in between: the disk after each file-system step.  The first
entry is the disk as the pass finds it, and stands for every stop before `tmp.replace(target)`;
the blob collection touches none of the three directories. -/
def compactStops (args : CompactArgs) (d : Disk) : List Disk :=
  if args.rewrites d then d :: d.replaced.moveStops (Disk.moves d.sealed.names d.segments.names)
  else [d]

/-- The disk after a pass that ran to its end; `none` if it raised. -/
def compactLedger (args : CompactArgs) (d : Disk) : Option Disk :=
  if args.rewrites d then d.replaced.moveAll (Disk.moves d.sealed.names d.segments.names)
  else some d

end Xtrax.Ledger
