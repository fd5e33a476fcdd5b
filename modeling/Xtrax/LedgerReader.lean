import Xtrax.Ledger
import Xtrax.LedgerRecordRoundTrip
import Xtrax.Machine
import Xtrax.RowFaults
import Xtrax.TextLines

/-!
# Segments as bytes, and the reader that skips

Closes append their rows to the newest segment, anybody may append lines of any bytes to any
segment, and a close that raises leaves the first bytes of its row behind.  The reader
(`iterRows`) sees only the bytes.

A run is any sequence of these events.  `Meets` is the condition on one event under which the reader
keeps what it promises: the event leaves no line behind that makes the reader raise, and a close
that returns has found the end of a line.
-/

namespace Xtrax.LedgerText
open PyJson TextLines Interleaving

/-! ### `iter_rows(strict=False)` -/

/-- What one line yields: nothing if it is blank or `_read_line` raises one of the two errors that
are caught. -/
def readLenient (depth : Nat) (line : List Char) : Except Raised (List RunLedgerRecord) :=
  if line.all fun c => isWhitespace c.toNat then .ok []
  else
    match readLine depth line with
    | .ok r => .ok [r]
    | .error e => if e.skipped then .ok [] else .error e

/-- `path.read_text(encoding="utf-8")` and its lines. -/
def readFile (depth : Nat) (bytes : Bytes) : Except Raised (List RunLedgerRecord) :=
  match decodeUtf8 bytes with
  | some text => List.flatten <$> (splitLines false text).mapM (readLenient depth)
  | none => .error .unicodeDecodeError

/-- The `*.jsonl` files of a directory: names and contents. -/
abbrev Listing := List (String × Bytes)

/-- `sorted(dir.glob("*.jsonl"))`. -/
def sortedFiles (files : Listing) : Listing := files.mergeSort fun a b => a.1 ≤ b.1

/-- `iter_rows(strict=False)`, run to its end. -/
def iterRows (depth : Nat) (sealed segments : Listing) : Except Raised (List RunLedgerRecord) :=
  List.flatten <$> ((sortedFiles sealed ++ sortedFiles segments).map Prod.snd).mapM (readFile depth)

/-- `find_run`: a later row with the id replaces an earlier one. -/
def findRun (depth : Nat) (sealed segments : Listing) (runId : PyStr) :
    Except Raised (Option RunLedgerRecord) :=
  (fun rows => rows.foldl (fun found r => if r.runId = runId then some r else found) none) <$>
    iterRows depth sealed segments

/-! ### Segments -/

/-- A record that `build_record` made. -/
abbrev RunRecord := {r : RunLedgerRecord // r.Built}

/-- What is appended to a segment at once: the row of a close that returned, the bytes of its row
that a close that raised has written, a foreign line. -/
inductive Write
  | row (r : RunRecord)
  | torn (r : RunRecord) (reached : Nat)
  | foreign (line : Bytes)

def Write.isRow : Write → Bool
  | .row _ => true
  | _ => false

/-- The record of a close that returned. -/
def Write.record : Write → Option RunLedgerRecord
  | .row r => some r.val
  | _ => none

abbrev Segment := List Write

/-- `path.open("a")` of the segment at a place, a new one at the end. -/
def appendTo : List Segment → Nat → Write → List Segment
  | [], _, w => [[w]]
  | segment :: segments, 0, w => (segment ++ [w]) :: segments
  | segment :: segments, i + 1, w => segment :: appendTo segments i w

/-- The segments `00001.jsonl`, `00002.jsonl` and so on, and the records whose closes have
returned. -/
structure Root where
  segments : List Segment
  returned : List RunLedgerRecord

inductive Event
  | close (r : RunRecord)
  -- how many bytes reached the segment, none if it was not opened
  | closeFails (r : RunRecord) (reached : Option Nat)
  | foreign (i : Nat) (line : Bytes)

section

variable (floatRepr : PyFloat → List Char)

def rowBytes (r : RunRecord) : Bytes := utf8 ((r.val.toJsonLine floatRepr).getD [])

def Write.bytes : Write → Bytes
  | .row r => rowBytes floatRepr r
  | .torn r reached => (rowBytes floatRepr r).take reached
  | .foreign line => line ++ [10]

def contents (segment : Segment) : Bytes := segment.flatMap (Write.bytes floatRepr)

/-- `_active_segment`: the place of the newest segment, or of the next one. -/
def activeSegment (segments : List Segment) : Nat :=
  match segments.getLast? with
  | some newest =>
    if (contents floatRepr newest).length < Ledger.Disk.maxSegmentBytes then segments.length - 1
    else segments.length
  | none => 0

/-- The files of `segments/`. -/
def Root.files (s : Root) : Listing :=
  s.segments.mapIdx fun i segment => (Ledger.fileName (i + 1), contents floatRepr segment)

/-- The segments as they would be without the rows of the closes that returned. -/
def Root.foreign (s : Root) : Root where
  segments := s.segments.map fun segment => segment.filter fun w => !w.isRow
  returned := []

/-- A close returns only if its row has a text. -/
def step (s : Root) : Event → Option Root
  | .close r =>
    if (r.val.toJsonLine floatRepr).isSome then
      some
        { segments := appendTo s.segments (activeSegment floatRepr s.segments) (.row r)
          returned := s.returned ++ [r.val] }
    else none
  | .closeFails _ none => some s
  | .closeFails r (some reached) =>
    if (r.val.toJsonLine floatRepr).isSome then
      some { s with
        segments := appendTo s.segments (activeSegment floatRepr s.segments) (.torn r reached) }
    else none
  | .foreign i line =>
    if i ≤ s.segments.length then
      some { s with segments := appendTo s.segments i (.foreign line) }
    else none

/-- Closes and foreign lines on a ledger that starts empty. -/
def ledger : Machine Root Event where
  init s := s = ⟨[], []⟩
  step := step floatRepr

/-! ### The condition -/

/-- The bytes after the last line feed. -/
def unterminated (bytes : Bytes) : Bytes := bytes.rtakeWhile (· ≠ 10)

/-- What has not been terminated in the segment at a place. -/
def openLine (segments : List Segment) (i : Nat) : Bytes :=
  unterminated (contents floatRepr (segments.getD i []))

/-- The line is blank, or does not escape. -/
def Contained (depth : Nat) (line : List Char) : Prop :=
  (line.all fun c => isWhitespace c.toNat) = true ∨ ¬Escapes depth line

/-- Valid UTF-8 whose lines are contained. -/
def Harmless (depth : Nat) (bytes : Bytes) : Prop :=
  ∃ text, decodeUtf8 bytes = some text ∧ ∀ line ∈ splitLines false text, Contained depth line

/-- No string of the record holds a high surrogate right before a low one. -/
def Writes (r : RunRecord) : Prop := ∀ s ∈ r.val.toDict.strings, Unpaired s

/-- The condition on an event, in the state in which it happens.  The names of more than 99999
segments are not in the order of their numbers. -/
def Meets (depth : Nat) (s : Root) : Event → Prop
  | .close r =>
    activeSegment floatRepr s.segments < 99999 ∧ Writes r ∧
      openLine floatRepr s.segments (activeSegment floatRepr s.segments) = []
  | .closeFails _ none => True
  | .closeFails r (some reached) =>
    activeSegment floatRepr s.segments < 99999 ∧
      (Writes r ∧ openLine floatRepr s.segments (activeSegment floatRepr s.segments) = [] ∨
        Harmless depth (openLine floatRepr s.segments (activeSegment floatRepr s.segments) ++
          (rowBytes floatRepr r).take reached))
  | .foreign i line =>
    i < 99999 ∧ Harmless depth (openLine floatRepr s.segments i ++ (line ++ [10]))

end

end Xtrax.LedgerText
