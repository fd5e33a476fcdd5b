import Xtrax.FileGuardLive

/-! # One writer behind a guard with a stored quota report

The quota is a row of a report that somebody else replaces now and then.  The guard is the
only writer: it calls `check n`, and writes the `n` files afterwards, during which the report
may be replaced at any point, also between the two looks `_read_orcd` takes at it (its text,
then its modification time).

The files counted since a snapshot are carried as long as re-reads return that snapshot.  A
re-read that returns another one forgets them all, also those written after it was taken.  So
the count the guard works with stays above what there is exactly in the runs where each
snapshot that is new to it already has everything (`CoversNew`).
-/
namespace Xtrax.FileGuard.Snapshot

open FileCapGuard List Interleaving

/-- What the outside process writes, besides the usage. -/
structure Stamp where
  takenAt : String
  filesLimit : Option Int
  raw : String
  deriving DecidableEq, Repr

/-- The row of a new report. -/
def refreshed (row : QuotaReading) (usage : Int) (s : Stamp) : QuotaReading :=
  { row with filesUsed := usage, takenAt := s.takenAt, filesLimit := s.filesLimit, raw := s.raw }

/-- A reading that is taken when it is asked for. -/
abbrev LiveReading := { r : QuotaReading // r.source ∉ snapshotSources }

/-- What a re-read meets besides the report: the readings from other sources, and the report
that replaces the stored one between `read_text` and `stat`, if one does. -/
inductive Answer
  | readings (others : List LiveReading) (replaced : Option Stamp)
  | unreadable (detail : String)
  | persistFails (others : List LiveReading) (replaced : Option Stamp) (detail : String)

/-- The row as `_read_orcd` returns it: the text read first, the time of the report that is
there by then. -/
def readRow (report : QuotaReading) : Option Stamp → QuotaReading
  | none => report
  | some s => { report with takenAt := s.takenAt }

def Answer.replaced : Answer → Option Stamp
  | .readings _ replaced | .persistFails _ replaced _ => replaced
  | .unreadable _ => none

def Answer.take (report : QuotaReading) : Answer → Take
  | .readings others replaced => .readings (readRow report replaced :: others.map (·.val))
  | .unreadable detail => .unreadable detail
  | .persistFails others replaced detail =>
    .persistFails (readRow report replaced :: others.map (·.val)) detail

structure World where
  guard : FileCapGuard
  /-- The row of the report that is stored now. -/
  report : QuotaReading
  usage : Int
  /-- The files of the last batch that are still to be written. -/
  pending : Nat

inductive Step
  | refresh (s : Stamp)
  | check (n : Int) (answer : Answer)
  | write (k : Nat)

section
variable (fmul : ℚ → Int → ℚ)

/-- `check n`, once the last batch is written. -/
def checkStep (w : World) (n : Int) (answer : Answer) : World :=
  let r := w.guard.check fmul n (answer.take w.report)
  { guard := r.guard
    report := match answer.replaced with
      | none => w.report
      | some s => refreshed w.report w.usage s
    usage := w.usage
    pending := match r.answer with
      | .ok _ => n.toNat
      | .error _ => 0 }

def step (w : World) : Step → Option World
  | .refresh s => some { w with report := refreshed w.report w.usage s }
  | .check n answer => if w.pending = 0 then some (checkStep fmul w n answer) else none
  | .write k =>
    if k ≤ w.pending then some { w with usage := w.usage + k, pending := w.pending - k } else none

/-- A new guard, which has read a report that has everything. -/
structure Constructed (w : World) : Prop where
  source : w.report.source ∈ snapshotSources
  usage : w.report.filesUsed = w.usage
  pending : w.pending = 0
  guard : ∃ path capFraction rereadEvery location checkSetgidGroup effectiveGroup others replaced
    events, construct path capFraction rereadEvery location checkSetgidGroup effectiveGroup
      ((Answer.readings others replaced).take w.report) = (events, .ok w.guard)

/-- Any sequence of refreshes, checks and writes. -/
def machine : Machine World Step where
  init := Constructed
  step := step fmul

end

/-- What `check n` compares with the cap of the snapshot is never below the usage and `n`,
the batch that is being written included in the usage. -/
def ProjectionCovers (w : World) : Prop :=
  ∀ n : Int, ∀ r ∈ w.guard.lastReadings.zip w.guard.carried, r.1.source ∈ snapshotSources →
    w.usage + w.pending + n ≤ w.guard.projected n r.1 r.2

/-- The re-read returns the snapshot in use, or one that has all files, also those of the
batch being admitted. -/
def CoversNew (fmul : ℚ → Int → ℚ) (w : World) : Step → Prop
  | .check n (.readings _ replaced) =>
    0 ≤ n ∧ Admits fmul w.guard n 0 ∧
      w.guard.rereadEvery ≤ w.guard.filesWrittenSinceRead + n →
        snapshotKey (readRow w.report replaced) ∈ w.guard.lastReadings.map snapshotKey ∨
          w.usage + n ≤ (readRow w.report replaced).filesUsed
  | _ => True

theorem projectionCovers_iff (w : World) : ProjectionCovers w ↔
    ∀ r ∈ w.guard.lastReadings.zip w.guard.carried, r.1.source ∈ snapshotSources →
      w.usage + w.pending ≤ w.guard.projected 0 r.1 r.2 := by
  unfold ProjectionCovers projected
  constructor
  · intro h r hr hsource
    have := h 0 r hr hsource
    omega
  · intro h n r hr hsource
    have := h r hr hsource
    omega

instance : DecidablePred ProjectionCovers := fun w =>
  decidable_of_iff _ (projectionCovers_iff w).symm

instance (fmul : ℚ → Int → ℚ) (w : World) : DecidablePred (CoversNew fmul w)
  | .refresh _ | .write _ | .check _ (.unreadable _) | .check _ (.persistFails ..) => .isTrue trivial
  | .check _ (.readings ..) => inferInstanceAs (Decidable (_ ∧ _ ∧ _ → _ ∨ _))

/-! ## The snapshot in use -/

variable {w : World} {r : QuotaReading} {others : List LiveReading} {c : Int} {cs : List Int}

/-- The first reading is the snapshot, the others are live. -/
structure Shape (w : World) (r : QuotaReading) (others : List LiveReading) (c : Int)
    (cs : List Int) : Prop where
  lastReadings_eq : w.guard.lastReadings = r :: others.map (·.val)
  carried_eq : w.guard.carried = c :: cs
  snapshot : r.source ∈ snapshotSources
  stored : w.report.source ∈ snapshotSources

theorem Shape.projectionCovers_iff (h : Shape w r others c cs) :
    ProjectionCovers w ↔ w.usage + w.pending ≤ r.filesUsed + c + w.guard.filesWrittenSinceRead := by
  rw [Snapshot.projectionCovers_iff, h.lastReadings_eq, h.carried_eq]
  constructor
  · intro hall
    have := hall (r, c) mem_cons_self h.snapshot
    simpa [projected] using this
  · intro hhead e he hsource
    rcases mem_cons.mp he with rfl | he
    · simpa [projected] using hhead
    · obtain ⟨live, -, hlive⟩ := mem_map.mp (of_mem_zip he).1
      rw [← hlive] at hsource
      exact absurd hsource live.2

theorem shape_constructed (h : Constructed w) :
    ∃ r others c cs, Shape w r others c cs ∧ ProjectionCovers w := by
  obtain ⟨path, cf, re, loc, cs, eg, others, replaced, events, hg⟩ := h.guard
  obtain ⟨-, hreadings, hcarried, hcounted⟩ := construct_ok hg
  rw [length_cons, length_map, replicate_succ] at hcarried
  have hread : (readRow w.report replaced).source ∈ snapshotSources ∧
      (readRow w.report replaced).filesUsed = w.usage := by
    cases replaced <;> exact ⟨h.source, h.usage⟩
  have hshape : Shape w (readRow w.report replaced) others 0 (replicate others.length 0) :=
    ⟨hreadings, hcarried, hread.1, h.source⟩
  refine ⟨_, _, _, _, hshape, hshape.projectionCovers_iff.mpr ?_⟩
  rw [hread.2, hcounted, h.pending]
  omega

/-- What is carried over to the first reading of a re-read: everything, if it is the
snapshot in use, and nothing otherwise. -/
theorem Shape.carriedOver (h : Shape w r others c cs) (n : Int) {r' : QuotaReading}
    (hr' : r'.source ∈ snapshotSources) :
    (w.guard.count n).carriedOver r' =
      if snapshotKey r = snapshotKey r' then c + (w.guard.filesWrittenSinceRead + n) else 0 := by
  have hcounted : (w.guard.count n).counted =
      [(snapshotKey r, c + (w.guard.filesWrittenSinceRead + n))] := by
    unfold counted
    rw [count_lastReadings, count_carried, h.lastReadings_eq,
      h.carried_eq, zip_cons_cons, filter_cons_of_pos (by simpa using h.snapshot)]
    have hnone : ((others.map (·.val)).zip cs).filter (fun e => e.1.source ∈ snapshotSources) =
        [] := by
      refine filter_eq_nil_iff.mpr fun e he => ?_
      obtain ⟨live, -, hlive⟩ := mem_map.mp (of_mem_zip he).1
      have := live.2
      rw [hlive] at this
      simpa using this
    rw [hnone]
    rfl
  rw [FileCapGuard.carriedOver, if_pos hr', hcounted]
  by_cases hkey : snapshotKey r = snapshotKey r'
  · simp [hkey]
  · have hne : (snapshotKey r' == snapshotKey r) = false := by simpa using Ne.symm hkey
    simp [lookup_cons, hne, hkey]

theorem shape_reread (h : Shape w r others c cs) (n : Int) (others' : List LiveReading)
    (replaced : Option Stamp) (w' : World)
    (hguard : w'.guard = (w.guard.count n).reread
      (readRow w.report replaced :: others'.map (·.val)))
    (hstored : w'.report.source ∈ snapshotSources) :
    ∃ cs', Shape w' (readRow w.report replaced) others'
      (if snapshotKey r = snapshotKey (readRow w.report replaced) then
        c + (w.guard.filesWrittenSinceRead + n) else 0) cs' := by
  have hread : (readRow w.report replaced).source ∈ snapshotSources := by
    cases replaced <;> exact h.stored
  refine ⟨(others'.map (·.val)).map (w.guard.count n).carriedOver, ?_, ?_, hread, hstored⟩
  · rw [hguard]
    rfl
  · rw [hguard, ← h.carriedOver n hread]
    rfl

theorem Shape.mem_keys_iff (h : Shape w r others c cs) {r' : QuotaReading}
    (hr' : r'.source ∈ snapshotSources) :
    snapshotKey r' ∈ w.guard.lastReadings.map snapshotKey ↔ snapshotKey r = snapshotKey r' := by
  rw [h.lastReadings_eq, map_cons, mem_cons]
  constructor
  · rintro (hkey | hkey)
    · exact hkey.symm
    · obtain ⟨r'', hlive, hkey⟩ := mem_map.mp hkey
      obtain ⟨live, -, rfl⟩ := mem_map.mp hlive
      have hsource : live.val.source = r'.source := congrArg Prod.fst hkey
      rw [← hsource] at hr'
      exact absurd hr' live.2
  · intro hkey
    exact .inl hkey.symm

variable {fmul : ℚ → Int → ℚ}

theorem coversNew_of_not_reread {n : Int}
    (h : ¬ (0 ≤ n ∧ Admits fmul w.guard n 0 ∧
      w.guard.rereadEvery ≤ w.guard.filesWrittenSinceRead + n)) (answer : Answer) :
    CoversNew fmul w (.check n answer) := by
  cases answer with
  | readings others replaced => exact fun hreread => absurd hreread h
  | unreadable detail | persistFails others replaced detail => trivial

theorem stored_report (h : w.report.source ∈ snapshotSources) (answer : Answer) :
    (match answer.replaced with
      | none => w.report
      | some s => refreshed w.report w.usage s).source ∈ snapshotSources := by
  cases answer.replaced <;> exact h

theorem check_exact (h : Shape w r others c cs) (hpending : w.pending = 0) (n : Int)
    (answer : Answer) :
    (∃ r others c cs, Shape (checkStep fmul w n answer) r others c cs) ∧
      (ProjectionCovers w →
        (ProjectionCovers (checkStep fmul w n answer) ↔ CoversNew fmul w (.check n answer))) := by
  have hne : w.guard.lastReadings ≠ [] := by
    rw [h.lastReadings_eq]
    simp
  have hstored := stored_report h.stored answer
  have hends := w.guard.check_ends fmul hne n (answer.take w.report)
  unfold checkStep
  generalize w.guard.check fmul n (answer.take w.report) = result at hends ⊢
  rw [h.projectionCovers_iff, hpending]
  cases hends with
  | negative hn =>
    have hshape : Shape ⟨w.guard, _, w.usage, 0⟩ r others c cs :=
      ⟨h.lastReadings_eq, h.carried_eq, h.snapshot, hstored⟩
    refine ⟨⟨_, _, _, _, hshape⟩, fun hcovers => ?_⟩
    exact iff_of_true (hshape.projectionCovers_iff.mpr hcovers)
      (coversNew_of_not_reread (by omega) answer)
  | refused refusal href =>
    have hshape : Shape ⟨w.guard, _, w.usage, 0⟩ r others c cs :=
      ⟨h.lastReadings_eq, h.carried_eq, h.snapshot, hstored⟩
    refine ⟨⟨_, _, _, _, hshape⟩, fun hcovers => ?_⟩
    refine iff_of_true (hshape.projectionCovers_iff.mpr hcovers)
      (coversNew_of_not_reread (fun hreread => ?_) answer)
    rw [(refusing_eq_none_iff _ _).mpr hreread.2.1] at href
    cases href
  | counted p hn href hdue =>
    have hshape : Shape ⟨w.guard.count n, _, w.usage, n.toNat⟩ r others c cs :=
      ⟨h.lastReadings_eq, h.carried_eq, h.snapshot, hstored⟩
    refine ⟨⟨_, _, _, _, hshape⟩, fun hcovers => ?_⟩
    refine iff_of_true (hshape.projectionCovers_iff.mpr ?_)
      (coversNew_of_not_reread (by omega) answer)
    show w.usage + (n.toNat : Int) ≤ r.filesUsed + c + (w.guard.filesWrittenSinceRead + n)
    omega
  | reread p events rs hn href hdue htake =>
    cases answer with
    | readings others' replaced =>
      obtain ⟨-, hrs⟩ := Prod.mk.inj htake
      obtain rfl := Except.ok.inj hrs
      have hread : (readRow w.report replaced).source ∈ snapshotSources := by
        cases replaced <;> exact h.stored
      obtain ⟨cs', hshape⟩ := shape_reread h n others' replaced
        ⟨(w.guard.count n).reread (readRow w.report replaced :: others'.map (·.val)), _,
          w.usage, n.toNat⟩ rfl hstored
      refine ⟨⟨_, _, _, _, hshape⟩, fun hcovers => ?_⟩
      have hadm : Admits fmul w.guard n 0 := (refusing_eq_none_iff _ _).mp href
      have hcond : CoversNew fmul w (.check n (.readings others' replaced)) ↔
          snapshotKey r = snapshotKey (readRow w.report replaced) ∨
            w.usage + n ≤ (readRow w.report replaced).filesUsed := by
        rw [← h.mem_keys_iff hread]
        exact ⟨fun hc => hc ⟨hn, hadm, hdue⟩, fun hc _ => hc⟩
      refine hshape.projectionCovers_iff.trans (Iff.trans ?_ hcond.symm)
      rw [reread_filesWrittenSinceRead]
      dsimp only
      by_cases hkey : snapshotKey r = snapshotKey (readRow w.report replaced)
      · -- the snapshot in use: the counter goes over to what is carried
        have hused : r.filesUsed = (readRow w.report replaced).filesUsed :=
          congrArg (·.2.2.2.2.1) hkey
        rw [if_pos hkey]
        refine iff_of_true ?_ (.inl hkey)
        omega
      · rw [if_neg hkey]
        constructor
        · intro hcount
          right
          omega
        · rintro (heq | hcount)
          · exact absurd heq hkey
          · omega
    | unreadable detail | persistFails others' replaced detail =>
      simp [Answer.take, takeReadings] at htake
  | raised e events hn href hdue htake =>
    have hshape : Shape ⟨w.guard.count n, _, w.usage, 0⟩ r others c cs :=
      ⟨h.lastReadings_eq, h.carried_eq, h.snapshot, hstored⟩
    refine ⟨⟨_, _, _, _, hshape⟩, fun hcovers => ?_⟩
    have hcond : CoversNew fmul w (.check n answer) := by
      cases answer with
      | readings others' replaced => simp [Answer.take, takeReadings] at htake
      | unreadable detail | persistFails others' replaced detail => trivial
    refine iff_of_true (hshape.projectionCovers_iff.mpr ?_) hcond
    show w.usage + ((0 : Nat) : Int) ≤ r.filesUsed + c + (w.guard.filesWrittenSinceRead + n)
    omega

theorem step_exact (h : Shape w r others c cs) {a : Step} {t : World}
    (ht : step fmul w a = some t) :
    (∃ r others c cs, Shape t r others c cs) ∧
      (ProjectionCovers w → (ProjectionCovers t ↔ CoversNew fmul w a)) := by
  cases a with
  | refresh s =>
    obtain rfl := Option.some.inj ht
    exact ⟨⟨r, others, c, cs, h.lastReadings_eq, h.carried_eq, h.snapshot, h.stored⟩,
      fun hcovers => iff_of_true hcovers trivial⟩
  | check n answer =>
    by_cases hpending : w.pending = 0
    · obtain rfl := by simpa only [step, if_pos hpending, Option.some.injEq] using ht
      exact check_exact h hpending n answer
    · simp [step, hpending] at ht
  | write k =>
    by_cases hk : k ≤ w.pending
    · obtain rfl := by simpa only [step, if_pos hk, Option.some.injEq] using ht
      have hshape : Shape ⟨w.guard, w.report, w.usage + k, w.pending - k⟩ r others c cs :=
        ⟨h.lastReadings_eq, h.carried_eq, h.snapshot, h.stored⟩
      refine ⟨⟨_, _, _, _, hshape⟩, fun hcovers => ?_⟩
      have hcount := h.projectionCovers_iff.mp hcovers
      refine iff_of_true (hshape.projectionCovers_iff.mpr ?_) trivial
      dsimp only
      omega
    · simp [step, hk] at ht

/-- **The guard of one writer behind a stored snapshot.**  In a run of refreshes, checks and
writes, what is compared with the cap stays at or above the real count if and only if every
re-read returns the snapshot in use or one that has everything. -/
theorem projection_covers_iff {w t : World} (hinit : Constructed w) {events : List Step}
    (hrun : (machine fmul).run w events = some t) :
    (machine fmul).Always ProjectionCovers w events ↔
      (machine fmul).Allowed (CoversNew fmul) w events := by
  obtain ⟨r, others, c, cs, hshape, hcovers⟩ := shape_constructed hinit
  refine Machine.always_iff_allowed_of_run
    (J := fun w => ∃ r others c cs, Shape w r others c cs) (fun w a t hw ht => ?_)
    ⟨r, others, c, cs, hshape⟩ hcovers hrun
  obtain ⟨r, others, c, cs, hw⟩ := hw
  exact step_exact hw ht

/-! ## A thousand files, a guard that re-reads after ten -/

def scratchRow : QuotaReading where
  filesUsed := 0
  filesLimit := some 1000
  source := .orcdReport
  command := "read /home/alice/orcd/.quota"
  raw := ""
  path := "/orcd/scratch/alice"
  takenAt := "10:00"
  principal := some "alice:SCRATCH"

/-- `FileCapGuard(path, cap_fraction=1.0, reread_every=10)`, nothing written. -/
def start : World where
  guard :=
    { path := "/orcd/scratch/alice"
      capFraction := 1
      rereadEvery := 10
      location := ⟨"/orcd/scratch/alice", 100, none, false⟩
      group := none
      groupImplicit := false
      lastReadings := [scratchRow]
      filesWrittenSinceRead := 0
      carried := [0]
      nReads := 1
      capFraction_pos := whole_pos
      capFraction_le_one := whole_le_one
      rereadEvery_pos := by norm_num
      carried_length := carried_one }
  report := scratchRow
  usage := 0
  pending := 0

theorem start_constructed : Constructed start where
  source := by decide
  usage := rfl
  pending := rfl
  guard := by
    refine ⟨"/orcd/scratch/alice", 1, 10, ⟨"/orcd/scratch/alice", 100, none, false⟩, true, none,
      [], none, [.quotaReading scratchRow false none], ?_⟩
    have hcap : (0 : ℚ) < 1 ∧ (1 : ℚ) ≤ 1 := by norm_num
    rw [construct, dif_pos hcap, dif_pos (by norm_num)]
    rfl

/-- `check n` and the writing of the files; a re-read finds the report that is stored. -/
def batch (n : Nat) : List Step := [.check n (.readings [] none), .write n]

/-- A report is written while no batch is under way, after a check whose re-read has failed. -/
def newReport : List Step :=
  [.check 12 (.unreadable "stale report"), .refresh ⟨"10:10", some 1000, ""⟩,
    .check 0 (.readings [] none)]

/-- One re-read finds the report of 10:00 again, a later one the report of 10:10. -/
theorem projection_covers_new_report :
    (machine exactProduct).Always ProjectionCovers start
      (batch 6 ++ batch 6 ++ newReport ++ batch 3) := by
  have hrun : ((machine exactProduct).run start
      (batch 6 ++ batch 6 ++ newReport ++ batch 3)).isSome = true := by
    decide +kernel
  obtain ⟨t, ht⟩ := Option.isSome_iff_exists.mp hrun
  exact (projection_covers_iff start_constructed ht).mpr (by decide +kernel)

/-- **Files are forgotten.**  A report is written after five files; the re-read that follows
the tenth returns it.  The guard goes on with five. -/
theorem projection_below_usage :
    ∃ s, (machine exactProduct).Reachable s ∧ s.pending = 0 ∧
      ∃ r ∈ s.guard.lastReadings.zip s.guard.carried, ∀ n, s.guard.projected n r.1 r.2 < s.usage + n := by
  have hr : ((machine exactProduct).run start
      (batch 5 ++ [.refresh ⟨"10:10", some 1000, ""⟩] ++ batch 4 ++ batch 1)).map
        (fun s => (s.pending, s.usage, s.guard.filesWrittenSinceRead,
          (s.guard.lastReadings.zip s.guard.carried).map fun r => (r.1.filesUsed, r.2))) =
      some (0, 10, 0, [(5, 0)]) := by
    decide +kernel
  obtain ⟨s, hrun, hs⟩ := Option.map_eq_some_iff.mp hr
  obtain ⟨hpending, hs⟩ := Prod.mk.inj hs
  obtain ⟨husage, hs⟩ := Prod.mk.inj hs
  obtain ⟨hwritten, hreadings⟩ := Prod.mk.inj hs
  refine ⟨s, Machine.reachable_of_run start_constructed hrun, hpending, ?_⟩
  obtain ⟨r, hr, hused⟩ := List.mem_map.mp (hreadings ▸ List.mem_singleton_self (5, (0 : Int)))
  refine ⟨r, hr, fun n => ?_⟩
  obtain ⟨hused, hcarried⟩ := Prod.mk.inj hused
  rw [FileCapGuard.projected, hused, hcarried, hwritten, husage]
  omega

end Xtrax.FileGuard.Snapshot
