import Xtrax.Freshness
import Xtrax.SegmentWriter

/-! # Is the writer of a segment dead?

`segment_writer_dead` takes a segment for finished when its last line is the trailer, and takes its writer
for dead when `squeue` does not list the writer's job, `sacct` reports nothing but terminal states, and
the segment is old.

The last line is looked for in the last 4096 bytes.  Of a longer line only the end is seen, and an end
that reads as a trailer is taken for one (`CutTrailer`); that is the one way to a verdict without
evidence (`dead_on_evidence_iff`).
-/
namespace Xtrax.WriterLiveness

open List

open Freshness (strip)
open SegmentLines (Interpreter closedLine hasTrailer)
open TextLines (Bytes splitLines)
open UnitIndex (isBlank lines tailOf)

/-! ## Writer ids -/

/-- The digits of Unicode: `str.isdigit` of one character, and `int` of a text, which a `ValueError` may
end. -/
structure Digits where
  isDigit : Char → Bool
  int : String → Option Nat

structure WriterId where
  host : String
  pid : Nat
  /-- Nothing outside SLURM. -/
  jobId : Option String
  restart : Nat
  uuid8 : String

def nojob : String := "nojob"

/-- `s.rsplit("-", 4)`, of four dashes or more. -/
def rsplit (s : String) : Option (String × String × String × String × String) :=
  match (s.toList.splitOn '-').reverse.map String.ofList with
  | uuid8 :: restart :: job :: pid :: host :: front =>
    some ("-".intercalate (host :: front).reverse, pid, job, restart, uuid8)
  | _ => none

/-- `s.isdigit()`. -/
def Digits.all (D : Digits) (s : String) : Bool := s ≠ "" && s.toList.all D.isDigit

/-- `parse_writer_id`; nothing for a `ValueError`. -/
def parseWriterId (D : Digits) (s : String) : Option WriterId := do
  let (host, pid, job, restart, uuid8) ← rsplit s
  guard (host ≠ "")
  guard (D.all pid && D.all restart && uuid8 ≠ "")
  let jobId ← if job = nojob then some none else if D.all job then some (some job) else none
  let pid ← D.int pid
  let restart ← D.int restart
  return { host, pid, jobId, restart, uuid8 }

/-! ## The scheduler -/

/-- What a command does. -/
inductive Answer
  | ran (rc : Int) (out err : String)
  /-- An `OSError` or a `SubprocessError`, by name. -/
  | unavailable (name : String)
  | raises

inductive State
  | present | absent | unknown
  deriving DecidableEq

structure JobState where
  state : State
  raw : String
  detail : String

def terminal : List String :=
  ["COMPLETED", "FAILED", "TIMEOUT", "OUT_OF_MEMORY", "NODE_FAIL", "BOOT_FAIL", "DEADLINE"]

def nonterminal : List String :=
  ["PENDING", "RUNNING", "COMPLETING", "SUSPENDED", "CONFIGURING", "PREEMPTED", "RESIZING",
    "RESV_DEL_HOLD", "REQUEUED", "REQUEUE_FED", "REQUEUE_HOLD", "SIGNALING", "STAGE_OUT", "STOPPED",
    "SPECIAL_EXIT", "STAGE_IN", "POWER_UP_NODE"]

/-- The first word of a state, without plus signs at its end. -/
def stateWord (raw : String) : String :=
  let word := (strip raw).toList.takeWhile (· ≠ ' ')
  String.ofList (word.reverse.dropWhile (· = '+')).reverse

/-- The word of a job that has ended.  `sacct` adds to `CANCELLED` who did it. -/
def IsTerminal (word : String) : Prop := word ∈ terminal ∨ "CANCELLED".toList <+: word.toList

instance (word : String) : Decidable (IsTerminal word) :=
  inferInstanceAs (Decidable (_ ∈ terminal ∨ _))

def classify (raw : String) : Option State :=
  let word := stateWord raw
  if IsTerminal word then some .absent
  else if word ∈ nonterminal then some .present
  else none

/-- The lines of an output that are not blank. -/
def rowsOf (out : String) : List String :=
  ((splitLines false out.toList).map fun line => strip (String.ofList line)).filter (· ≠ "")

/-- `_INVALID_ID in text.lower()`.  No other character has a lowercase that is one of these
letters, but for a capital I with a dot. -/
def SaysInvalidId (text : String) : Prop :=
  "invalid job id".toList <:+: text.toList.map Char.toLower

instance (text : String) : Decidable (SaysInvalidId text) := inferInstanceAs (Decidable (_ <:+: _))

def squeueArgv (jobId : String) : List String := ["squeue", "-h", "-j", jobId, "-o", "%T"]

def sacctArgv (jobId : String) : List String :=
  ["sacct", "-j", jobId, "-n", "-X", "-P", "-o", "State"]

def unknown (why : String) : JobState := ⟨.unknown, "", why⟩

/-- What is said of a command that failed. -/
def failure (command : String) (rc : Int) (err : String) : JobState :=
  unknown (command ++ " rc=" ++ toString rc ++ ": " ++ String.ofList ((strip err).toList.take 200))

/-- What `sacct` tells of a job that `squeue` does not list; nothing for an exception. -/
def sacctState : Answer → Option JobState
  | .raises => none
  | .unavailable name => some (unknown ("sacct unavailable: " ++ name))
  | .ran rc out err =>
    if rc ≠ 0 then some (failure "sacct" rc err)
    else
      match rowsOf out with
      | [] => some (unknown "sacct returned no rows")
      | first :: rest =>
        let verdicts := (first :: rest).map classify
        if verdicts.any (· = none) then some ⟨.unknown, first, "sacct unrecognised state"⟩
        else if verdicts.any (· = some .present) then some ⟨.present, first, "sacct non-terminal"⟩
        else some ⟨.absent, first, "sacct terminal"⟩

/-- `job_state`; nothing for an exception. -/
def jobState (run : List String → Answer) (jobId : String) : Option JobState :=
  match run (squeueArgv jobId) with
  | .raises => none
  | .unavailable name => some (unknown ("squeue unavailable: " ++ name))
  | .ran rc out err =>
    let rows := rowsOf out
    if rc = 0 ∧ rows ≠ [] then some ⟨.present, rows.headD "", "squeue"⟩
    else if rc ≠ 0 ∧ ¬ SaysInvalidId (err ++ out) then some (failure "squeue" rc err)
    else sacctState (run (sacctArgv jobId))

/-! ## The verdict -/

/-- What a verdict is given for. -/
inductive Why (T : Type)
  | closedTrailer
  | unparseableWriterId
  | noJobId
  | jobPresent (raw : String)
  | jobUnknown (detail : String)
  | jobAbsent (raw : String) (age graceS : T)

structure Verdict (T : Type) where
  dead : Bool
  reason : Why T

section

-- times, as floats are
variable {T : Type} [Sub T] [LT T] [DecidableLT T]

/-- A segment: its bytes, its name without the suffix, and when it was written. -/
structure Segment (T : Type) where
  data : Bytes
  stem : String
  /-- Nothing where asking raises. -/
  mtime : Option T

variable (I : Interpreter) (D : Digits) (run : List String → Answer)

/-- `segment_writer_dead`, with the time that is given or that the server tells; nothing for an
exception. -/
def segmentWriterDead (segment : Segment T) (graceS : T) (nowServer : Option T) : Option (Verdict T) :=
  match hasTrailer I segment.data with
  | none => none
  | some true => some ⟨true, .closedTrailer⟩
  | some false =>
    match parseWriterId D segment.stem with
    | none => some ⟨false, .unparseableWriterId⟩
    | some wid =>
      match wid.jobId with
      | none => some ⟨false, .noJobId⟩
      | some jobId => do
        let js ← jobState run jobId
        match js.state with
        | .present => some ⟨false, .jobPresent js.raw⟩
        | .unknown => some ⟨false, .jobUnknown js.detail⟩
        | .absent => do
          let now ← nowServer
          let mtime ← segment.mtime
          let age := now - mtime
          return ⟨graceS < age, .jobAbsent js.raw age graceS⟩

/-! ## Evidence -/

/-- The last line that is not blank is an object with `closed` true. -/
def Trailer (data : Bytes) : Prop := ∃ line, (lines data).getLast? = some line ∧ closedLine I line = some true

/-- `squeue` does not list the job: it succeeds with no line, or answers that the id is invalid. -/
def NotListed (jobId : String) : Prop :=
  ∃ rc out err, run (squeueArgv jobId) = .ran rc out err ∧
    (rc = 0 ∧ rowsOf out = [] ∨ rc ≠ 0 ∧ SaysInvalidId (err ++ out))

/-- `sacct` reports states, all of them terminal. -/
def AllTerminal (jobId : String) : Prop :=
  ∃ out err, run (sacctArgv jobId) = .ran 0 out err ∧ rowsOf out ≠ [] ∧
    ∀ raw ∈ rowsOf out, IsTerminal (stateWord raw)

/-- The scheduler tells that the writer's job has ended, and the segment is old. -/
def JobEnded (segment : Segment T) (graceS : T) (nowServer : Option T) : Prop :=
  ∃ wid jobId now mtime, parseWriterId D segment.stem = some wid ∧ wid.jobId = some jobId ∧
    NotListed run jobId ∧ AllTerminal run jobId ∧
    nowServer = some now ∧ segment.mtime = some mtime ∧ graceS < now - mtime

/-- **The failing files**: the last line is no trailer and begins before the last 4096 bytes, and what is
left of it there is one. -/
def CutTrailer (data : Bytes) : Prop :=
  ∃ front rest, front ≠ [] ∧ (lines data).getLast? = some (front ++ rest) ∧
    closedLine I (front ++ rest) ≠ some true ∧
    (lines (tailOf data)).getLast? = some rest ∧ closedLine I rest = some true

end

/-! ## The last line -/

section

variable {I : Interpreter} {D : Digits} {run : List String → Answer} {data l : Bytes}

theorem isBlank_cons {b : UInt8} (h : isBlank l = false) : isBlank (b :: l) = false := by
  unfold isBlank at h ⊢
  rw [all_cons, h, Bool.and_false]

theorem getLast?_lines_append (front : Bytes) (h : (lines data).getLast? = some l) :
    ∃ more, (lines (front ++ data)).getLast? = some (more ++ l) := by
  induction front with
  | nil => exact ⟨[], h⟩
  | cons b front ih =>
    obtain ⟨more, hmore⟩ := ih
    unfold lines at hmore ⊢
    rw [cons_append, splitOn_cons_eq_if_modifyHead]
    split
    · -- an empty line is put in front
      exact ⟨more, by rwa [filter_cons_of_neg (by simp [isBlank])]⟩
    · -- the first line gets longer
      cases hsplit : (front ++ data).splitOn UnitIndex.newline with
      | nil => simp [hsplit] at hmore
      | cons first rest =>
        rw [hsplit] at hmore
        rw [modifyHead_cons]
        cases hrest : rest.filter fun l => !isBlank l with
        | nil =>
          rw [filter_cons, hrest] at hmore ⊢
          cases hfirst : isBlank first with
          | true => simp [hfirst] at hmore
          | false =>
            obtain rfl : first = more ++ l := by simpa [hfirst] using hmore
            exact ⟨b :: more, by simp [isBlank_cons hfirst]⟩
        | cons line others =>
          refine ⟨more, ?_⟩
          rw [filter_cons, hrest] at hmore ⊢
          cases hfirst : isBlank first <;> cases hfirst' : isBlank (b :: first) <;>
            simpa [hfirst, hfirst'] using hmore

/-- **What is taken for a trailer** is one, or the end of a longer line. -/
theorem hasTrailer_eq_true :
    hasTrailer I data = some true → Trailer I data ∨ CutTrailer I data := by
  intro h
  unfold hasTrailer at h
  cases hlast : (lines (tailOf data)).getLast? with
  | none => simp [hlast] at h
  | some rest =>
    rw [hlast] at h
    obtain ⟨before, hbefore⟩ := UnitIndex.tailOf_suffix data
    obtain ⟨front, hfront⟩ := getLast?_lines_append before hlast
    rw [hbefore] at hfront
    by_cases hclosed : closedLine I (front ++ rest) = some true
    · exact .inl ⟨_, hfront, hclosed⟩
    · refine .inr ⟨front, rest, ?_, hfront, hclosed, hlast, h⟩
      rintro rfl
      exact hclosed h

theorem CutTrailer.hasTrailer (h : CutTrailer I data) : hasTrailer I data = some true := by
  obtain ⟨front, rest, -, -, -, hlast, hclosed⟩ := h
  rw [SegmentLines.hasTrailer, hlast]
  exact hclosed

theorem CutTrailer.not_trailer (h : CutTrailer I data) : ¬ Trailer I data := by
  obtain ⟨front, rest, -, hlast, hclosed, -, -⟩ := h
  rintro ⟨line, hline, htrue⟩
  obtain rfl := Option.some.inj (hlast.symm.trans hline)
  exact hclosed htrue

/-! ## The job -/

theorem classify_eq_absent {raw : String} : classify raw = some .absent ↔ IsTerminal (stateWord raw) := by
  unfold classify
  by_cases hterminal : IsTerminal (stateWord raw)
  · simp [hterminal]
  · by_cases hnon : stateWord raw ∈ nonterminal <;> simp [hterminal, hnon]

theorem classify_cases (raw : String) :
    classify raw = none ∨ classify raw = some .present ∨ classify raw = some .absent := by
  unfold classify
  by_cases hterminal : IsTerminal (stateWord raw)
  · simp [hterminal]
  · by_cases hnon : stateWord raw ∈ nonterminal <;> simp [hterminal, hnon]

theorem sacctState_absent {answer : Answer} :
    (∃ js, sacctState answer = some js ∧ js.state = .absent) ↔
      ∃ out err, answer = .ran 0 out err ∧ rowsOf out ≠ [] ∧
        ∀ raw ∈ rowsOf out, IsTerminal (stateWord raw) := by
  cases answer with
  | raises => simp [sacctState]
  | unavailable name => simp [sacctState, unknown]
  | ran rc out err =>
    by_cases hrc : rc = 0
    · cases hrows : rowsOf out with
      | nil => simp [sacctState, hrc, hrows, unknown]
      | cons first rest =>
        have hiff : (∀ raw ∈ first :: rest, IsTerminal (stateWord raw)) ↔
            ((first :: rest).map classify).any (· = none) = false ∧
              ((first :: rest).map classify).any (· = some .present) = false := by
          simp only [any_map, any_eq_false, Function.comp, decide_eq_true_eq]
          rw [← forall₂_and]
          refine forall₂_congr fun raw _ => ?_
          rw [← classify_eq_absent]
          rcases classify_cases raw with h | h | h <;> simp [h]
        have hran : (∃ out' err', Answer.ran rc out err = .ran 0 out' err' ∧ rowsOf out' ≠ [] ∧
            ∀ raw ∈ rowsOf out', IsTerminal (stateWord raw)) ↔
              ∀ raw ∈ first :: rest, IsTerminal (stateWord raw) := by
          constructor
          · rintro ⟨out', err', heq, -, hall⟩
            obtain ⟨-, rfl, -⟩ := Answer.ran.inj heq
            rwa [hrows] at hall
          · intro hall
            exact ⟨out, err, by rw [hrc], by simp [hrows], by rwa [hrows]⟩
        rw [hran, hiff]
        simp only [sacctState, hrc, hrows, ne_eq, not_true_eq_false, if_false]
        cases ((first :: rest).map classify).any (· = none) with
        | true => simp
        | false => cases ((first :: rest).map classify).any (· = some .present) <;> simp
    · simp [sacctState, hrc, failure, unknown]

/-- **The job counts as ended** on the evidence of both commands. -/
theorem jobState_absent (run : List String → Answer) (jobId : String) :
    (∃ js, jobState run jobId = some js ∧ js.state = .absent) ↔
      NotListed run jobId ∧ AllTerminal run jobId := by
  unfold NotListed AllTerminal
  rw [← sacctState_absent]
  unfold jobState
  cases run (squeueArgv jobId) with
  | raises => simp
  | unavailable name => simp [unknown]
  | ran rc out err =>
    have hran : (∃ rc' out' err', Answer.ran rc out err = .ran rc' out' err' ∧
        (rc' = 0 ∧ rowsOf out' = [] ∨ rc' ≠ 0 ∧ SaysInvalidId (err' ++ out'))) ↔
          rc = 0 ∧ rowsOf out = [] ∨ rc ≠ 0 ∧ SaysInvalidId (err ++ out) := by
      constructor
      · rintro ⟨rc', out', err', heq, h⟩
        obtain ⟨rfl, rfl, rfl⟩ := Answer.ran.inj heq
        exact h
      · exact fun h => ⟨rc, out, err, rfl, h⟩
    rw [hran]
    by_cases hrc : rc = 0
    · by_cases hrows : rowsOf out = [] <;> simp [hrc, hrows]
    · by_cases hinvalid : SaysInvalidId (err ++ out) <;> simp [hrc, hinvalid, failure, unknown]

/-! ## Verdicts -/

variable {T : Type} [Sub T] [LT T] [DecidableLT T] {segment : Segment T} {graceS : T}
  {nowServer : Option T}

/-- **A dead writer** has a trailer in the tail of its segment, or its job has ended. -/
theorem segmentWriterDead_iff :
    (∃ v, segmentWriterDead I D run segment graceS nowServer = some v ∧ v.dead = true) ↔
      hasTrailer I segment.data = some true ∨
        hasTrailer I segment.data = some false ∧ JobEnded D run segment graceS nowServer := by
  unfold segmentWriterDead
  cases hasTrailer I segment.data with
  | none => simp
  | some trailer =>
    cases trailer with
    | true => simp
    | false =>
      simp only [JobEnded, Option.some.injEq, Bool.false_eq_true, false_or, true_and]
      cases hwid : parseWriterId D segment.stem with
      | none => simp
      | some wid =>
        cases hjob : wid.jobId with
        | none => simp [hjob]
        | some jobId =>
          have hstate := jobState_absent run jobId
          have hended : (∃ wid' jobId' now mtime, some wid = some wid' ∧ wid'.jobId = some jobId' ∧
              NotListed run jobId' ∧ AllTerminal run jobId' ∧ nowServer = some now ∧
              segment.mtime = some mtime ∧ graceS < now - mtime) ↔
                (∃ js, jobState run jobId = some js ∧ js.state = .absent) ∧
                  ∃ now mtime, nowServer = some now ∧ segment.mtime = some mtime ∧
                    graceS < now - mtime := by
            rw [hstate]
            constructor
            · rintro ⟨wid', jobId', now, mtime, heq, hjob', hnot, hall, htimes⟩
              obtain rfl := Option.some.inj heq
              obtain rfl := Option.some.inj (hjob.symm.trans hjob')
              exact ⟨⟨hnot, hall⟩, now, mtime, htimes⟩
            · rintro ⟨⟨hnot, hall⟩, now, mtime, htimes⟩
              exact ⟨wid, jobId, now, mtime, rfl, hjob, hnot, hall, htimes⟩
          rw [hended]
          dsimp only
          rw [hjob]
          cases hjs : jobState run jobId with
          | none => simp [hjs]
          | some js =>
            cases hkind : js.state <;> cases nowServer <;> cases segment.mtime <;> simp [hjs, hkind]

/-- **On what evidence a writer is judged dead.** -/
theorem dead_on_evidence_iff :
    (∀ v, segmentWriterDead I D run segment graceS nowServer = some v → v.dead = true →
        Trailer I segment.data ∨ JobEnded D run segment graceS nowServer) ↔
      (CutTrailer I segment.data → JobEnded D run segment graceS nowServer) := by
  have hdead : (∀ v, segmentWriterDead I D run segment graceS nowServer = some v → v.dead = true →
        Trailer I segment.data ∨ JobEnded D run segment graceS nowServer) ↔
      ((∃ v, segmentWriterDead I D run segment graceS nowServer = some v ∧ v.dead = true) →
        Trailer I segment.data ∨ JobEnded D run segment graceS nowServer) := by
    rw [forall_exists_index]
    exact forall_congr' fun v => and_imp.symm
  rw [hdead, segmentWriterDead_iff]
  constructor
  · intro h hcut
    exact (h (.inl hcut.hasTrailer)).resolve_left hcut.not_trailer
  · rintro h (htrailer | ⟨-, hended⟩)
    · rcases hasTrailer_eq_true htrailer with htrue | hcut
      · exact .inl htrue
      · exact .inr (h hcut)
    · exact .inr hended

theorem lines_newlines (l : Bytes) (n : Nat) :
    lines (l ++ replicate n UnitIndex.newline) = lines l := by
  induction n with
  | zero => rw [replicate_zero, append_nil]
  | succ n ih =>
    have hlast : lines ([] : Bytes) = [] := by decide
    rw [replicate_succ', ← append_assoc, UnitIndex.lines_append, hlast, append_nil, ih]

end

/-! ## A torn row -/

namespace Torn

/-- A letter, a trailer right behind it, and newlines, so that the trailer begins with the last 4096
bytes. -/
def data : Bytes := 120 :: (UnitIndex.trailerText ++ List.replicate 4080 UnitIndex.newline)

/-- The segment of a writer outside SLURM. -/
def segment : Segment Int := ⟨data, "host-1-nojob-0-ab", some 0⟩

def digits : Digits := ⟨Char.isDigit, fun s => some (Nat.ofDigitChars 10 s.toList 0)⟩

theorem tailOf_data : tailOf data = UnitIndex.trailerText ++ replicate 4080 UnitIndex.newline := by
  have hlength : (UnitIndex.trailerText ++ replicate 4080 UnitIndex.newline).length = 4096 := by
    rw [length_append, length_replicate]
    rfl
  rw [tailOf, data, reverse_cons, take_append_of_le_length (by rw [length_reverse, hlength]; rfl),
    take_of_length_le (by rw [length_reverse, hlength]; rfl), reverse_reverse]

theorem lines_data : lines data = [120 :: UnitIndex.trailerText] := by
  rw [data, ← cons_append, lines_newlines]
  decide

/-- The writer is judged dead although its last line is no trailer and it has no job. -/
theorem dead_without_evidence :
    ¬ ∀ v, segmentWriterDead SegmentLines.FailedWrites.interpreter digits (fun _ => .raises) segment 300
        (some 0) = some v → v.dead = true →
      Trailer SegmentLines.FailedWrites.interpreter segment.data ∨
        JobEnded digits (fun _ => .raises) segment 300 (some 0) := by
  intro h
  have htail : (lines (tailOf data)).getLast? = some UnitIndex.trailerText := by
    rw [tailOf_data, lines_newlines]
    decide
  have htrailer : hasTrailer SegmentLines.FailedWrites.interpreter data = some true := by
    rw [SegmentLines.hasTrailer, htail]
    exact SegmentLines.closedLine_eq_true.mpr SegmentLines.decode_trailer
  rcases h ⟨true, .closedTrailer⟩ (by simp [segmentWriterDead, segment, htrailer]) rfl with
    ⟨line, hline, hclosed⟩ | ⟨wid, jobId, -, -, hwid, hjob, -⟩
  · have hdata : (lines data).getLast? = some line := hline
    rw [lines_data] at hdata
    obtain rfl := Option.some.inj hdata
    exact absurd hclosed (by decide)
  · have hnone : (parseWriterId digits "host-1-nojob-0-ab").bind (·.jobId) = none := by decide
    have hwid : parseWriterId digits "host-1-nojob-0-ab" = some wid := hwid
    rw [hwid, Option.bind_some, hjob] at hnone
    cases hnone

end Torn

end Xtrax.WriterLiveness
