import Mathlib.Algebra.Order.Field.Rat
import Mathlib.Data.List.Zip
import Mathlib.Tactic.Common

/-! # The file cap guard

A `FileCapGuard` keeps the quota readings it took last, the number of files counted
since (`filesWrittenSinceRead`) and, for a reading that came from a stored snapshot, the
number carried over re-reads that returned the same snapshot (`carried`).  `check n`
compares the sum of the three and `n` with the cap of every reading, counts `n`, and
re-reads once `rereadEvery` files were counted.

What `_take` meets is an argument: `Take`.  The product `cap_fraction * files_limit` is a
float; the functions take it as a parameter `fmul`, and compare it with an integer exactly,
as Python does.
-/
namespace Xtrax.FileGuard

/-- Where a reading comes from. -/
inductive Source
  | lfs | df | quota | orcdReport | synthetic
  deriving DecidableEq, Repr

inductive Scope
  | user | group | filesystem
  deriving DecidableEq, Repr

structure QuotaReading where
  filesUsed : Int
  filesLimit : Option Int
  source : Source
  command : String
  raw : String
  path : String
  takenAt : String
  fsType : Option String := none
  scope : Scope := .user
  principal : Option String := none
  deriving DecidableEq, Repr

/-- Ownership facts of the directory files will be created in. -/
structure LocationInfo where
  path : String
  gid : Nat
  group : Option String
  setgid : Bool
  deriving DecidableEq, Repr

def sharedFsPrefixes : List String :=
  ["nfs", "cifs", "smb", "ceph", "gpfs", "wekafs", "beegfs", "afs", "9p", "fuse"]

/-- A network or cluster filesystem. -/
def isSharedFs : Option String → Bool
  | none => false
  | some kind => sharedFsPrefixes.any fun p => p.toList.isPrefixOf kind.toList

/-- Sources that are a stored snapshot, not a live query. -/
def snapshotSources : List Source := [.orcdReport]

abbrev SnapshotKey := Source × Scope × Option String × String × Int × Option Int

def snapshotKey (r : QuotaReading) : SnapshotKey :=
  (r.source, r.scope, r.principal, r.takenAt, r.filesUsed, r.filesLimit)

/-- The fields of the refusal event of `check`. -/
structure Refusal where
  scope : Scope
  principal : Option String
  filesUsed : Int
  filesLimit : Option Int
  filesWrittenSinceRead : Int
  filesCarriedOver : Int
  nNewFiles : Int
  projected : Int
  capFraction : ℚ
  source : Source
  command : String
  deriving DecidableEq

inductive Event
  | refusal (r : Refusal)
  | quotaReading (r : QuotaReading) (setgid : Bool) (group : Option String)
  | quotaLimitUnknown (path command : String) (scope : Scope) (filesUsed : Int)
  deriving DecidableEq

inductive Error
  /-- `ValueError`: `cap_fraction` outside `(0, 1]`. -/
  | capFraction (got : ℚ)
  | rereadEvery (got : Int)
  | nNewFiles (got : Int)
  | refused (r : Refusal)
  /-- `QuotaUnreadable` (R-X1), raised by `read_quotas`. -/
  | unreadable (detail : String)
  | persist (detail : String)
  | noReading
  deriving DecidableEq

/-- What one call of `_take` meets. -/
inductive Take
  | readings (rs : List QuotaReading)
  | unreadable (detail : String)
  | persistFails (rs : List QuotaReading) (detail : String)
  deriving DecidableEq

/-- The guard.  The constructor's checks and the one list of carried counts per
reading are fields. -/
structure FileCapGuard where
  path : String
  capFraction : ℚ
  rereadEvery : Int
  location : LocationInfo
  group : Option String
  groupImplicit : Bool
  lastReadings : List QuotaReading
  filesWrittenSinceRead : Int
  carried : List Int
  nReads : Nat
  capFraction_pos : 0 < capFraction
  capFraction_le_one : capFraction ≤ 1
  rereadEvery_pos : 1 ≤ rereadEvery
  carried_length : carried.length = lastReadings.length

theorem whole_pos : (0 : ℚ) < 1 := by decide

theorem whole_le_one : (1 : ℚ) ≤ 1 := by decide

theorem one_le_reread : (1 : Int) ≤ 1 := by decide

theorem carried_one : [(0 : Int)].length = 1 := rfl

/-- The events `_take` emits for the readings `rs`: each reading, and that its
limit is unknown where nobody said so before. -/
def takeEvents (location : LocationInfo) (groupImplicit : Bool) (rs : List QuotaReading) :
    List Event :=
  rs.flatMap fun r =>
    .quotaReading r location.setgid location.group ::
      if r.filesLimit = none ∧ ¬ (r.scope = .group ∧ groupImplicit) ∧
          ¬ (r.scope = .filesystem ∧ isSharedFs r.fsType) then
        [.quotaLimitUnknown r.path r.command r.scope r.filesUsed]
      else []

/-- `_take`: the events, and the readings or the error. -/
def takeReadings (location : LocationInfo) (groupImplicit : Bool) :
    Take → List Event × Except Error (List QuotaReading)
  | .readings rs => (takeEvents location groupImplicit rs, .ok rs)
  | .unreadable detail => ([], .error (.unreadable detail))
  | .persistFails rs detail => (takeEvents location groupImplicit rs, .error (.persist detail))

/-- `FileCapGuard.__init__`.  `effectiveGroup` is the resolved argument. -/
def construct (path : String) (capFraction : ℚ) (rereadEvery : Int) (location : LocationInfo)
    (checkSetgidGroup : Bool) (effectiveGroup : Option String) (take : Take) :
    List Event × Except Error FileCapGuard :=
  if hc : 0 < capFraction ∧ capFraction ≤ 1 then
    if hr : 1 ≤ rereadEvery then
      let own := if checkSetgidGroup ∧ location.setgid then location.group else none
      let implicit := own.isNone && checkSetgidGroup && effectiveGroup.isSome
      let (events, taken) := takeReadings location implicit take
      (events, taken.map fun rs =>
        { path, capFraction, rereadEvery, location
          group := if implicit then effectiveGroup else own
          groupImplicit := implicit
          lastReadings := rs
          filesWrittenSinceRead := 0
          carried := List.replicate rs.length 0
          nReads := 1
          capFraction_pos := hc.1
          capFraction_le_one := hc.2
          rereadEvery_pos := hr
          carried_length := List.length_replicate })
    else ([], .error (.rereadEvery rereadEvery))
  else ([], .error (.capFraction capFraction))

theorem construct_ok {path : String} {capFraction : ℚ} {rereadEvery : Int} {location : LocationInfo}
    {checkSetgidGroup : Bool} {effectiveGroup : Option String} {rs : List QuotaReading}
    {events : List Event} {g : FileCapGuard} (h : construct path capFraction rereadEvery location
      checkSetgidGroup effectiveGroup (.readings rs) = (events, .ok g)) :
    g.capFraction = capFraction ∧ g.lastReadings = rs ∧ g.carried = List.replicate rs.length 0 ∧
      g.filesWrittenSinceRead = 0 := by
  unfold construct at h
  split at h
  · split at h
    · obtain rfl := Except.ok.inj (Prod.ext_iff.mp h).2
      exact ⟨rfl, rfl, rfl, rfl⟩
    · cases (Prod.ext_iff.mp h).2
  · cases (Prod.ext_iff.mp h).2

namespace FileCapGuard

/-- `_primary_index`: the user-scope reading, else the filesystem-scope one. -/
def primaryIndex (g : FileCapGuard) : Nat :=
  match g.lastReadings.findIdx? (·.scope = .user) with
  | some i => i
  | none => (g.lastReadings.findIdx? (·.scope = .filesystem)).getD 0

/-- The count `check` compares with the cap of the reading `r`. -/
def projected (g : FileCapGuard) (n : Int) (r : QuotaReading) (carried : Int) : Int :=
  r.filesUsed + carried + g.filesWrittenSinceRead + n

end FileCapGuard

section
variable (fmul : ℚ → Int → ℚ)

/-- `files_limit and count > cap_fraction * files_limit`. -/
def Exceeds (capFraction : ℚ) (filesLimit : Option Int) (count : Int) : Prop :=
  match filesLimit with
  | none => False
  | some limit => limit ≠ 0 ∧ fmul capFraction limit < count

instance (capFraction : ℚ) : ∀ filesLimit count, Decidable (Exceeds fmul capFraction filesLimit count)
  | none, _ => .isFalse id
  | some _, _ => inferInstanceAs (Decidable (_ ∧ _))

namespace FileCapGuard
variable (g : FileCapGuard)

/-- The refusal event of the reading `r`. -/
def refusal (n : Int) (r : QuotaReading) (carried : Int) : Refusal where
  scope := r.scope
  principal := r.principal
  filesUsed := r.filesUsed
  filesLimit := r.filesLimit
  filesWrittenSinceRead := g.filesWrittenSinceRead
  filesCarriedOver := carried
  nNewFiles := n
  projected := g.projected n r carried
  capFraction := g.capFraction
  source := r.source
  command := r.command

/-- The first reading in order that refuses `n` files. -/
def refusing (n : Int) : Option Refusal :=
  (g.lastReadings.zip g.carried).findSome? fun (r, carried) =>
    if Exceeds fmul g.capFraction r.filesLimit (g.projected n r carried) then
      some (g.refusal n r carried)
    else none

/-- `old` in `check`: for each snapshot in use, the files counted against it.  A
later entry of the same key wins. -/
def counted : List (SnapshotKey × Int) :=
  ((g.lastReadings.zip g.carried).filter fun (r, _) => r.source ∈ snapshotSources).map
    fun (r, carried) => (snapshotKey r, carried + g.filesWrittenSinceRead)

/-- `old.get(_snapshot_key(r), 0) if r.source in _SNAPSHOT_SOURCES else 0`. -/
def carriedOver (r : QuotaReading) : Int :=
  if r.source ∈ snapshotSources then (g.counted.reverse.lookup (snapshotKey r)).getD 0 else 0

/-- The guard after a re-read that returned `rs`. -/
def reread (rs : List QuotaReading) : FileCapGuard :=
  { g with
    lastReadings := rs
    carried := rs.map g.carriedOver
    filesWrittenSinceRead := 0
    nReads := g.nReads + 1
    carried_length := List.length_map _ }

/-- The guard once `n` files are counted. -/
def count (n : Int) : FileCapGuard :=
  { g with filesWrittenSinceRead := g.filesWrittenSinceRead + n }

@[simp] theorem count_nReads (n : Int) : (g.count n).nReads = g.nReads := rfl

@[simp] theorem count_lastReadings (n : Int) : (g.count n).lastReadings = g.lastReadings := rfl

@[simp] theorem count_carried (n : Int) : (g.count n).carried = g.carried := rfl

@[simp] theorem count_filesWrittenSinceRead (n : Int) :
    (g.count n).filesWrittenSinceRead = g.filesWrittenSinceRead + n := rfl

@[simp] theorem reread_nReads (rs : List QuotaReading) : (g.reread rs).nReads = g.nReads + 1 := rfl

@[simp] theorem reread_filesWrittenSinceRead (rs : List QuotaReading) :
    (g.reread rs).filesWrittenSinceRead = 0 := rfl

/-- What `check` returns for `n` admitted files: the projection of the primary
reading. -/
def answer (n : Int) : Except Error Int :=
  let projections := (g.lastReadings.zip g.carried).map fun (r, carried) => g.projected n r carried
  match projections[g.primaryIndex]? with
  | some p => .ok p
  | none => .error .noReading

/-- How a call of `check` ends: the guard, the events and the value or error. -/
structure CheckResult where
  guard : FileCapGuard
  events : List Event
  answer : Except Error Int

/-- `FileCapGuard.check`; `take` is what the re-read meets, if there is one. -/
def check (n : Int) (take : Take) : CheckResult :=
  if n < 0 then ⟨g, [], .error (.nNewFiles n)⟩
  else
    match g.refusing fmul n with
    | some refusal => ⟨g, [.refusal refusal], .error (.refused refusal)⟩
    | none =>
      if (g.count n).filesWrittenSinceRead < g.rereadEvery then ⟨g.count n, [], g.answer n⟩
      else
        match takeReadings g.location g.groupImplicit take with
        | (events, .ok rs) => ⟨(g.count n).reread rs, events, g.answer n⟩
        | (events, .error e) => ⟨g.count n, events, .error e⟩

/-! ## How a call ends -/

theorem answer_ok (hne : g.lastReadings ≠ []) (n : Int) : ∃ p, g.answer n = .ok p := by
  have hlen : g.primaryIndex < g.lastReadings.length := by
    have hpos : 0 < g.lastReadings.length := List.length_pos_iff.mpr hne
    unfold primaryIndex
    cases hu : g.lastReadings.findIdx? (·.scope = .user) with
    | some i => exact (List.findIdx?_eq_some_iff_getElem.mp hu).1
    | none =>
      cases hf : g.lastReadings.findIdx? (·.scope = .filesystem) with
      | some i => exact (List.findIdx?_eq_some_iff_getElem.mp hf).1
      | none => simpa using hpos
  have hzip : g.primaryIndex <
      ((g.lastReadings.zip g.carried).map fun (r, carried) => g.projected n r carried).length := by
    simpa [g.carried_length] using hlen
  refine ⟨((g.lastReadings.zip g.carried).map
    fun (r, carried) => g.projected n r carried)[g.primaryIndex], ?_⟩
  simp only [answer, List.getElem?_eq_getElem hzip]

/-- The ways `check n` ends, for a guard that has readings. -/
inductive Ends (n : Int) (take : Take) : CheckResult → Prop
  | negative : n < 0 → Ends n take ⟨g, [], .error (.nNewFiles n)⟩
  | refused (refusal : Refusal) : g.refusing fmul n = some refusal →
      Ends n take ⟨g, [.refusal refusal], .error (.refused refusal)⟩
  | counted (p : Int) : 0 ≤ n → g.refusing fmul n = none →
      g.filesWrittenSinceRead + n < g.rereadEvery → Ends n take ⟨g.count n, [], .ok p⟩
  | reread (p : Int) (events : List Event) (rs : List QuotaReading) : 0 ≤ n →
      g.refusing fmul n = none → g.rereadEvery ≤ g.filesWrittenSinceRead + n →
      takeReadings g.location g.groupImplicit take = (events, .ok rs) →
      Ends n take ⟨(g.count n).reread rs, events, .ok p⟩
  | raised (e : Error) (events : List Event) : 0 ≤ n → g.refusing fmul n = none →
      g.rereadEvery ≤ g.filesWrittenSinceRead + n →
      takeReadings g.location g.groupImplicit take = (events, .error e) →
      Ends n take ⟨g.count n, events, .error e⟩

/-- **What `check` can do**, once and for all: the callers below split on `Ends` and never
unfold `check`. -/
theorem check_ends (hne : g.lastReadings ≠ []) (n : Int) (take : Take) :
    g.Ends fmul n take (g.check fmul n take) := by
  obtain ⟨p, hp⟩ := g.answer_ok hne n
  unfold check
  by_cases hn : n < 0
  · rw [if_pos hn]
    exact .negative hn
  · rw [if_neg hn]
    cases href : g.refusing fmul n with
    | some refusal => exact .refused refusal href
    | none =>
      by_cases hdue : g.filesWrittenSinceRead + n < g.rereadEvery
      · simp only [count, hdue, if_true, hp]
        exact .counted p (by omega) href hdue
      · simp only [count, hdue, if_false, hp]
        -- the re-read, which returns readings or raises
        rcases htake : takeReadings g.location g.groupImplicit take with ⟨events, e | rs⟩
        · exact .raised e events (by omega) href (by omega) htake
        · exact .reread p events rs (by omega) href (by omega) htake

end FileCapGuard
end
end Xtrax.FileGuard
