import Mathlib.Data.Fintype.BigOperators
import Mathlib.Tactic.Linarith
import Xtrax.FileGuardLive

/-! # Several guards over one quota

A plan starts `n_jobs` processes, each behind a guard of its own; `check_concurrency_slack`
refuses the plan when `n_jobs * reread_every` files do not fit above the cap.  The accounts
are live and shared, and a process calls `check n` and writes the `n` files, again and again.

A guard compares what it has read and what it has counted with the cap.  The other files
admitted by then, by whichever guard, are `unseen` to it: `Valid.written_eq` says that the
three add up to what is admitted.  The check of the plan bounds the unseen files by
`n_jobs * reread_every`, the code does not: a batch is of any size, and a re-read does not
see the files that were admitted and are still to be written.
-/
namespace Xtrax.FileGuard.Jobs

open Option Interleaving

/-! ## The check of a plan -/

inductive PlanError
  /-- `ValueError`: `n_jobs` or `reread_every` below one. -/
  | counts (nJobs rereadEvery : Int)
  | refused (nJobs rereadEvery overshoot : Int) (slack capFraction : ℚ) (filesLimit : Int)
  deriving DecidableEq

/-- `check_concurrency_slack`; `fslack` is the float `(1.0 - cap_fraction) * files_limit`. -/
def checkConcurrencySlack (fslack : ℚ → Int → ℚ) (filesLimit : Option Int)
    (nJobs rereadEvery : Int) (capFraction : ℚ) : Except PlanError Unit :=
  if nJobs < 1 ∨ rereadEvery < 1 then .error (.counts nJobs rereadEvery)
  else
    match filesLimit with
    | none => .ok ()
    | some limit =>
      if limit = 0 then .ok ()
      else
        let overshoot := nJobs * rereadEvery
        let slack := fslack capFraction limit
        if slack ≤ overshoot then
          .error (.refused nJobs rereadEvery overshoot slack capFraction limit)
        else .ok ()

/-! ## Processes that write -/

/-- A process and its guard. -/
structure Job where
  guard : FileCapGuard
  /-- The files of the last batch that are still to be written. -/
  pending : Nat
  /-- The files admitted that are in neither the guard's readings nor its counter, less the
  batches counted by a check whose re-read raised. -/
  unseen : Int

/-- Another guard is admitted `n` files. -/
def Job.misses (n : Nat) (j : Job) : Job := { j with unseen := j.unseen + n }

structure World (J : Type) where
  job : J → Option Job
  /-- The files all processes have written. -/
  written : Int

def pendingAt {J : Type} (w : World J) (i : J) : Nat := (w.job i).elim 0 Job.pending

section
variable {J : Type} [Fintype J]

/-- The files admitted and still to be written. -/
def inFlight (w : World J) : Nat := ∑ i, pendingAt w i

def admitted (w : World J) : Int := w.written + inFlight w

end

/-- The arguments of a guard besides those the plan fixes. -/
structure GuardArgs where
  path : String
  location : LocationInfo
  checkSetgidGroup : Bool
  effectiveGroup : Option String

inductive Step (J : Type)
  | construct (i : J) (args : GuardArgs) (takenAt : String)
  | check (i : J) (n : Nat) (answer : Answer)
  | write (i : J) (k : Nat)

section
variable {J : Type} [DecidableEq J] [Fintype J]
variable (fmul : ℚ → Int → ℚ) (accounts : List QuotaReading) (capFraction : ℚ) (rereadEvery : Int)

/-- `check n` by a process that has written its last batch. -/
def checkStep (w : World J) (i : J) (j : Job) (n : Nat) (answer : Answer) : World J :=
  let r := j.guard.check fmul n (answer.take accounts w.written)
  match r.answer with
  | .ok _ =>
    { w with
      job := Function.update (fun i' => (w.job i').map (Job.misses n)) i
        (some
          { guard := r.guard
            pending := n
            unseen := if r.guard.nReads = j.guard.nReads then j.unseen else inFlight w + n }) }
  | .error _ =>
    { w with
      job := Function.update w.job i
        (some
          { guard := r.guard
            pending := j.pending
            unseen := j.unseen -
              (r.guard.filesWrittenSinceRead - j.guard.filesWrittenSinceRead) }) }

def step (w : World J) : Step J → Option (World J)
  | .construct i args takenAt =>
    match w.job i with
    | some _ => none
    | none =>
      match construct args.path capFraction rereadEvery args.location args.checkSetgidGroup
        args.effectiveGroup ((Answer.live takenAt).take accounts w.written) with
      | (_, .ok g) =>
        some { w with
          job := Function.update w.job i (some { guard := g, pending := 0, unseen := inFlight w }) }
      | (_, .error _) => some w
  | .check i n answer =>
    match w.job i with
    | none => none
    | some j => if j.pending = 0 then some (checkStep fmul accounts w i j n answer) else none
  | .write i k =>
    match w.job i with
    | none => none
    | some j =>
      if k ≤ j.pending then
        some
          { job := Function.update w.job i (some { j with pending := j.pending - k })
            written := w.written + k }
      else none

/-- No process has started. -/
structure Initial (w : World J) : Prop where
  job : ∀ i, w.job i = none
  written : w.written = 0

def machine : Machine (World J) (Step J) where
  init := Initial
  step := step fmul accounts capFraction rereadEvery

end

/-- `files_limit and count > files_limit`. -/
def OverLimit : Option Int → Int → Prop
  | none, _ => False
  | some limit, count => limit ≠ 0 ∧ limit < count

instance : ∀ filesLimit count, Decidable (OverLimit filesLimit count)
  | none, _ => .isFalse id
  | some _, _ => inferInstanceAs (Decidable (_ ∧ _))

theorem OverLimit.mono {filesLimit : Option Int} {count count' : Int} (hle : count ≤ count')
    (h : OverLimit filesLimit count) : OverLimit filesLimit count' := by
  cases filesLimit with
  | none => exact h
  | some limit => exact ⟨h.1, h.2.trans_le hle⟩

/-- What the accounts hold is within their limits. -/
def WithinLimit {J : Type} (accounts : List QuotaReading) (w : World J) : Prop :=
  ∀ a ∈ accounts, ¬ OverLimit a.filesLimit (a.filesUsed + w.written)

/-- What the guard compares with the cap is within the limit with `extra` files more. -/
def Fits (g : FileCapGuard) (n extra : Int) : Prop :=
  ∀ r ∈ g.lastReadings.zip g.carried, ¬ OverLimit r.1.filesLimit (g.projected n r.1 r.2 + extra)

/-- A guard that admits a batch has not seen more files than the check of the plan allows for, or
the batch fits together with the files it has not seen, or its re-read raises. -/
def CoversUnseen {J : Type} (fmul : ℚ → Int → ℚ) (nJobs rereadEvery : Int) (w : World J) :
    Step J → Prop
  | .check i n answer => ∀ j ∈ w.job i, Admits fmul j.guard n 0 →
      RereadRaises j.guard n answer ∨ j.unseen ≤ nJobs * rereadEvery ∨ Fits j.guard n j.unseen
  | _ => True

instance {J : Type} (accounts : List QuotaReading) (w : World J) :
    Decidable (WithinLimit accounts w) :=
  inferInstanceAs (Decidable (∀ a ∈ accounts, _))

instance (g : FileCapGuard) (n extra : Int) : Decidable (Fits g n extra) :=
  inferInstanceAs (Decidable (∀ r ∈ _, _))

instance {J : Type} {nJobs rereadEvery : Int} (fmul : ℚ → Int → ℚ) (w : World J) :
    DecidablePred (CoversUnseen fmul nJobs rereadEvery w)
  | .construct .. | .write .. => .isTrue trivial
  | .check i _ _ => inferInstanceAs (Decidable (∀ j ∈ w.job i, _ → _ ∨ _ ∨ _))

/-! ## What one step does to the files admitted -/

section
variable {J : Type} [DecidableEq J] [Fintype J] {fmul : ℚ → Int → ℚ}
variable {accounts : List QuotaReading} {capFraction : ℚ} {rereadEvery : Int} {w t : World J}

/-- Process `i` goes on as `j`, and the others have missed `n` files more. -/
structure Moves (w t : World J) (i : J) (j : Job) (n : Nat) : Prop where
  self : t.job i = some j
  others : ∀ i' ≠ i, t.job i' = (w.job i').map (Job.misses n)
  admitted_eq : admitted t = admitted w + n

theorem Moves.intro {i : J} {j : Job} {n : Nat} (self : t.job i = some j)
    (others : ∀ i' ≠ i, t.job i' = (w.job i').map (Job.misses n))
    (hwritten : t.written + j.pending = w.written + pendingAt w i + n) : Moves w t i j n := by
  refine ⟨self, others, ?_⟩
  have hrest : ∑ i' ∈ Finset.univ.erase i, pendingAt t i' =
      ∑ i' ∈ Finset.univ.erase i, pendingAt w i' := by
    refine Finset.sum_congr rfl fun i' hi' => ?_
    rw [pendingAt, pendingAt, others i' (Finset.ne_of_mem_erase hi')]
    cases w.job i' <;> rfl
  have ht := Finset.add_sum_erase Finset.univ (pendingAt t) (Finset.mem_univ i)
  have hw := Finset.add_sum_erase Finset.univ (pendingAt w) (Finset.mem_univ i)
  have hself : pendingAt t i = j.pending := by rw [pendingAt, self]; rfl
  rw [hself, hrest] at ht
  simp only [admitted, inFlight, ← ht, ← hw]
  push_cast
  omega

omit [DecidableEq J] [Fintype J] in
theorem map_misses_zero (o : Option Job) : o.map (Job.misses 0) = o := by
  cases o with
  | none => rfl
  | some j => simp [Job.misses]

theorem Moves.update {i : J} {j : Job} (hjob : t.job = Function.update w.job i (some j))
    (hwritten : t.written + j.pending = w.written + pendingAt w i) : Moves w t i j 0 := by
  refine .intro ?_ (fun i' hi' => ?_) (by simpa using hwritten)
  · rw [hjob, Function.update_self]
  · rw [hjob, Function.update_of_ne hi', map_misses_zero]

theorem Moves.granted {i : J} {n : Nat} (hat : pendingAt w i = 0) {g : FileCapGuard} {u : Int} :
    Moves w
      { w with
        job := Function.update (fun i' => (w.job i').map (Job.misses n)) i (some ⟨g, n, u⟩) }
      i ⟨g, n, u⟩ n :=
  .intro (by simp) (fun _ hi' => by simp [hi']) (by simp [hat])

theorem step_moves {a : Step J} (ht : step fmul accounts capFraction rereadEvery w a = some t) :
    t = w ∨ ∃ i j n, Moves w t i j n := by
  cases a with
  | construct i args takenAt =>
    cases hj : w.job i with
    | some j => simp [step, hj] at ht
    | none =>
      simp only [step, hj] at ht
      split at ht
      · cases ht
        exact .inr ⟨i, _, 0, .update rfl (by simp [pendingAt, hj])⟩
      · exact .inl (some.inj ht).symm
  | check i n answer =>
    cases hj : w.job i with
    | none => simp [step, hj] at ht
    | some j =>
      simp only [step, hj] at ht
      split at ht
      · rename_i hpending
        obtain rfl := some.inj ht
        have hat : pendingAt w i = 0 := by simp [pendingAt, hj, hpending]
        right
        simp only [checkStep]
        split
        · exact ⟨i, _, n, .granted hat⟩
        · exact ⟨i, _, 0, .update rfl (by simp [hat, hpending])⟩
      · cases ht
  | write i k =>
    cases hj : w.job i with
    | none => simp [step, hj] at ht
    | some j =>
      simp only [step, hj] at ht
      split at ht
      · rename_i hk
        cases ht
        refine .inr ⟨i, _, 0, .update rfl ?_⟩
        simp only [pendingAt, hj, elim_some]
        omega
      · cases ht

theorem admitted_le {a : Step J} (ht : step fmul accounts capFraction rereadEvery w a = some t) :
    admitted w ≤ admitted t := by
  rcases step_moves ht with rfl | ⟨i, j, n, hmoves⟩
  · exact le_rfl
  · have := hmoves.admitted_eq
    omega

omit [DecidableEq J] in
theorem written_le_admitted (w : World J) : w.written ≤ admitted w := by
  unfold admitted
  omega

/-! ## What a guard has read, counted and not seen -/

/-- The process alone with its quota, the files of the others among the unseen ones. -/
def alone (w : World J) (j : Job) : FileGuard.World where
  guard := j.guard
  written := admitted w
  unseen := j.unseen

/-- The readings in use are live ones, and what the guard has read, counted and not seen
adds up to what is admitted. -/
def Reads (accounts : List QuotaReading) (capFraction : ℚ) (w : World J) (j : Job) : Prop :=
  j.guard.capFraction = capFraction ∧ ∃ readAt takenAt, Valid accounts (alone w j) readAt takenAt

def Sound (accounts : List QuotaReading) (capFraction : ℚ) (w : World J) : Prop :=
  ∀ i j, w.job i = some j → Reads accounts capFraction w j

omit [DecidableEq J] in
theorem Reads.misses {j : Job} {n : Nat} (h : Reads accounts capFraction w j)
    (hadm : admitted t = admitted w + n) : Reads accounts capFraction t (j.misses n) := by
  obtain ⟨hcap, readAt, takenAt, hvalid⟩ := h
  refine ⟨hcap, readAt, takenAt, hvalid.lastReadings_eq, hvalid.carried_eq, ?_⟩
  have hsum := hvalid.written_eq
  simp only [alone, Job.misses, hadm] at hsum ⊢
  omega

/-- The step lemma of the sum: the process that moves has to be looked at, the others only
miss its files. -/
theorem Sound.moves (h : Sound accounts capFraction w) {i : J} {j : Job} {n : Nat}
    (hmoves : Moves w t i j n) (hreads : Reads accounts capFraction t j) :
    Sound accounts capFraction t := by
  intro i' j' hj'
  by_cases hi : i' = i
  · rw [hi, hmoves.self] at hj'
    exact some.inj hj' ▸ hreads
  · rw [hmoves.others i' hi] at hj'
    obtain ⟨o, ho, rfl⟩ := Option.map_eq_some_iff.mp hj'
    exact (h i' o ho).misses hmoves.admitted_eq

/-- Every file admitted fits into every account. -/
def AdmittedFits (accounts : List QuotaReading) (w : World J) : Prop :=
  ∀ a ∈ accounts, ¬ OverLimit a.filesLimit (a.filesUsed + admitted w)

omit [DecidableEq J] in
theorem fits_iff {j : Job} {readAt : Int} {takenAt : String}
    (h : Valid accounts (alone w j) readAt takenAt) (n : Nat) :
    Fits j.guard n j.unseen ↔
      ∀ a ∈ accounts, ¬ OverLimit a.filesLimit (a.filesUsed + (admitted w + n)) := by
  have hzip := mem_zip_live h fun r c =>
    ¬ OverLimit r.filesLimit (j.guard.projected n r c + j.unseen)
  refine hzip.trans (forall₂_congr fun a _ => ?_)
  have hsum : a.filesUsed + readAt + 0 + j.guard.filesWrittenSinceRead + n + j.unseen =
      a.filesUsed + (admitted w + n) := by
    have hadm : admitted w = readAt + j.guard.filesWrittenSinceRead + j.unseen := h.written_eq
    omega
  rw [FileCapGuard.projected, hsum]

omit [DecidableEq J] in
theorem Moves.fits {i : J} {j : Job} {n : Nat} (hmoves : Moves w t i j n) :
    AdmittedFits accounts t ↔
      ∀ a ∈ accounts, ¬ OverLimit a.filesLimit (a.filesUsed + (admitted w + n)) := by
  rw [AdmittedFits, hmoves.admitted_eq]

omit [DecidableEq J] in
theorem Moves.kept {i : J} {j : Job} (hmoves : Moves w t i j 0) (hw : AdmittedFits accounts w) :
    AdmittedFits accounts t := by
  simpa [AdmittedFits, hmoves.admitted_eq] using hw

omit [DecidableEq J] in
theorem Moves.reads {i : J} {j : Job} {n : Nat} (hmoves : Moves w t i j n)
    (hcap : j.guard.capFraction = capFraction) {readAt : Int} {takenAt : String}
    (hreadings : j.guard.lastReadings = liveReadings accounts readAt takenAt)
    (hcarried : j.guard.carried = List.replicate accounts.length 0)
    (hsum : admitted w + n = readAt + j.guard.filesWrittenSinceRead + j.unseen) :
    Reads accounts capFraction t j :=
  ⟨hcap, readAt, takenAt, hreadings, hcarried, hmoves.admitted_eq.trans hsum⟩

theorem construct_reads {args : GuardArgs} {written : Int} {takenAt : String} {events : List Event}
    {g : FileCapGuard} (h : construct args.path capFraction rereadEvery args.location
      args.checkSetgidGroup args.effectiveGroup ((Answer.live takenAt).take accounts written) =
        (events, .ok g)) :
    g.capFraction = capFraction ∧ g.lastReadings = liveReadings accounts written takenAt ∧
      g.carried = List.replicate accounts.length 0 ∧ g.filesWrittenSinceRead = 0 := by
  obtain ⟨hcap, hreadings, hcarried, hcount⟩ := construct_ok h
  exact ⟨hcap, hreadings, by rw [hcarried, liveReadings, List.length_map], hcount⟩

theorem overshoot_nonneg {fslack : ℚ → Int → ℚ} {nJobs : Int} {filesLimit : Option Int}
    (haccept : checkConcurrencySlack fslack filesLimit nJobs rereadEvery capFraction = .ok ()) :
    0 ≤ nJobs * rereadEvery := by
  by_cases hcounts : nJobs < 1 ∨ rereadEvery < 1
  · simp [checkConcurrencySlack, hcounts] at haccept
  · exact Int.mul_nonneg (by omega) (by omega)

theorem overshoot_fits {fslack : ℚ → Int → ℚ} {nJobs count overshoot : Int}
    {filesLimit : Option Int}
    (haccept : checkConcurrencySlack fslack filesLimit nJobs rereadEvery capFraction = .ok ())
    (hround : ∀ limit ∈ filesLimit, fmul capFraction limit + fslack capFraction limit < limit + 1)
    (hcap : ¬ Exceeds fmul capFraction filesLimit count) (hover : overshoot ≤ nJobs * rereadEvery) :
    ¬ OverLimit filesLimit (count + overshoot) := by
  cases filesLimit with
  | none => exact id
  | some limit =>
    rintro ⟨hlimit, hlt⟩
    have hslack : ((nJobs * rereadEvery : Int) : ℚ) < fslack capFraction limit := by
      by_contra hle
      simp only [checkConcurrencySlack, hlimit, if_false] at haccept
      rw [if_pos (not_lt.mp hle)] at haccept
      split at haccept <;> cases haccept
    have hcount : (count : ℚ) ≤ fmul capFraction limit := by
      by_contra hgt
      exact hcap ⟨hlimit, not_le.mp hgt⟩
    have hover' : (overshoot : ℚ) ≤ ((nJobs * rereadEvery : Int) : ℚ) := by exact_mod_cast hover
    have hsum : ((count + overshoot : Int) : ℚ) < ((limit + 1 : Int) : ℚ) := by
      push_cast at *
      linarith [hround limit rfl]
    have := Int.cast_lt.mp hsum
    omega

/-! ## The exact condition -/

/-- The check accepts the plan for every account. -/
def Accepted (fslack : ℚ → Int → ℚ) (accounts : List QuotaReading) (nJobs rereadEvery : Int)
    (capFraction : ℚ) : Prop :=
  ∀ a ∈ accounts, checkConcurrencySlack fslack a.filesLimit nJobs rereadEvery capFraction = .ok ()

/-- `cap_fraction * files_limit` and `(1.0 - cap_fraction) * files_limit` together stay below
the next whole number above the limit. -/
def RoundsWell (fmul fslack : ℚ → Int → ℚ) (accounts : List QuotaReading) (capFraction : ℚ) :
    Prop :=
  ∀ a ∈ accounts, ∀ limit ∈ a.filesLimit,
    fmul capFraction limit + fslack capFraction limit < limit + 1

instance {fslack : ℚ → Int → ℚ} {nJobs : Int} :
    Decidable (Accepted fslack accounts nJobs rereadEvery capFraction) :=
  inferInstanceAs (Decidable (∀ a ∈ accounts, _))

instance {fslack : ℚ → Int → ℚ} : Decidable (RoundsWell fmul fslack accounts capFraction) :=
  inferInstanceAs (Decidable (∀ a ∈ accounts, ∀ limit ∈ a.filesLimit, _))

variable {fslack : ℚ → Int → ℚ} {nJobs : Int}

omit [DecidableEq J] in
theorem coversUnseen_iff (haccept : Accepted fslack accounts nJobs rereadEvery capFraction)
    (hround : RoundsWell fmul fslack accounts capFraction) {i : J} {j : Job} (hj : w.job i = some j)
    (hreads : Reads accounts capFraction w j) (n : Nat) (answer : Answer) :
    CoversUnseen fmul nJobs rereadEvery w (.check i n answer) ↔
      (Admits fmul j.guard n 0 → RereadRaises j.guard n answer ∨
        ∀ a ∈ accounts, ¬ OverLimit a.filesLimit (a.filesUsed + (admitted w + n))) := by
  obtain ⟨hcap, readAt, takenAt, hvalid⟩ := hreads
  rw [← fits_iff hvalid]
  simp only [CoversUnseen, hj, mem_some_iff, forall_eq']
  refine forall_congr' fun hadm => or_congr_right (or_iff_right_of_imp fun hfew r hr => ?_)
  -- the limit of a reading is that of its account
  obtain ⟨a, ha, hlimit⟩ : ∃ a ∈ accounts, a.filesLimit = r.1.filesLimit := by
    have hmem := (List.of_mem_zip hr).1
    rw [show j.guard.lastReadings = _ from hvalid.lastReadings_eq] at hmem
    obtain ⟨a, ha, hr'⟩ := List.mem_map.mp hmem
    exact ⟨a, ha, by rw [← hr']⟩
  have hle := hadm r hr
  rw [hcap, add_zero, ← hlimit] at hle
  rw [← hlimit]
  exact overshoot_fits (haccept a ha) (hround a ha) hle hfew

theorem check_exact (hlive : Live accounts) (hne : accounts ≠ [])
    (haccept : Accepted fslack accounts nJobs rereadEvery capFraction)
    (hround : RoundsWell fmul fslack accounts capFraction) (h : Sound accounts capFraction w)
    {i : J} {j : Job} (hj : w.job i = some j) (hpending : j.pending = 0) (n : Nat)
    (answer : Answer) :
    Sound accounts capFraction (checkStep fmul accounts w i j n answer) ∧
      (AdmittedFits accounts w →
        (AdmittedFits accounts (checkStep fmul accounts w i j n answer) ↔
          CoversUnseen fmul nJobs rereadEvery w (.check i n answer))) := by
  have hreads := h i j hj
  rw [coversUnseen_iff haccept hround hj hreads n answer]
  obtain ⟨hcap, readAt, takenAt, hvalid⟩ := hreads
  have hsum : admitted w = readAt + j.guard.filesWrittenSinceRead + j.unseen := hvalid.written_eq
  have hat : pendingAt w i = 0 := by simp [pendingAt, hj, hpending]
  have hends := j.guard.check_ends fmul (hvalid.lastReadings_ne_nil hne) n
    (answer.take accounts w.written)
  simp only [checkStep]
  generalize j.guard.check fmul n (answer.take accounts w.written) = r at hends ⊢
  cases hends with
  | negative hn => omega
  | refused refusal href =>
    have hmoves : Moves w { w with job := Function.update w.job i (some j) } i j 0 :=
      .update rfl (by simp [hat, hpending])
    simp only [sub_self, sub_zero]
    refine ⟨h.moves hmoves ?_, fun hw => iff_of_true ?_ fun hadm => ?_⟩
    · exact hmoves.reads hcap hvalid.lastReadings_eq hvalid.carried_eq (by simpa using hsum)
    · exact hmoves.kept hw
    · rw [(refusing_eq_none_iff _ _).mpr hadm] at href
      cases href
  | counted p _ href hdue =>
    have hadm := (refusing_eq_none_iff _ _).mp href
    have hmoves := Moves.granted hat (n := n) (g := j.guard.count n) (u := j.unseen)
    simp only [FileCapGuard.count_nReads, if_true]
    refine ⟨h.moves hmoves ?_, fun _ => hmoves.fits.trans ?_⟩
    · refine hmoves.reads hcap hvalid.lastReadings_eq hvalid.carried_eq ?_
      simp only [FileCapGuard.count_filesWrittenSinceRead]
      omega
    · -- no re-read is due, so none raises
      have hquiet : ¬ RereadRaises j.guard n answer := by
        cases answer with
        | live t => exact id
        | unreadable d | persistFails t d =>
          show ¬ (j.guard.rereadEvery ≤ j.guard.filesWrittenSinceRead + n)
          omega
      exact ⟨fun hw _ => .inr hw, fun hc => (hc hadm).resolve_left hquiet⟩
  | reread p events rs _ href hdue htake =>
    have hadm := (refusing_eq_none_iff _ _).mp href
    cases answer with
    | live t =>
      obtain ⟨-, hrs⟩ := Prod.mk.inj htake
      obtain rfl := Except.ok.inj hrs
      simp only [FileCapGuard.reread_nReads, FileCapGuard.count_nReads, Nat.succ_ne_self, if_false]
      -- the batches in flight at the re-read, and the batch it admits, are in no reading
      have hmoves := Moves.granted hat (n := n)
        (g := (j.guard.count n).reread (liveReadings accounts w.written t)) (u := inFlight w + n)
      refine ⟨h.moves hmoves (hmoves.reads hcap rfl (reread_carried hlive _ _ _) ?_),
        fun _ => hmoves.fits.trans ?_⟩
      · simp only [FileCapGuard.reread_filesWrittenSinceRead, admitted]
        omega
      · exact ⟨fun hw _ => .inr hw, fun hc => (hc hadm).resolve_left id⟩
    | unreadable d | persistFails t d => simp [Answer.take, takeReadings] at htake
  | raised e events _ href hdue htake =>
    -- the batch is counted, and not admitted
    have hmoves : Moves w
        { w with
          job := Function.update w.job i (some ⟨j.guard.count n, j.pending, j.unseen - n⟩) } i
        ⟨j.guard.count n, j.pending, j.unseen - n⟩ 0 :=
      .update rfl (by simp [hat, hpending])
    simp only [FileCapGuard.count_filesWrittenSinceRead, add_sub_cancel_left]
    refine ⟨h.moves hmoves ?_, fun hw => iff_of_true ?_ fun _ => .inl ?_⟩
    · refine hmoves.reads hcap hvalid.lastReadings_eq hvalid.carried_eq ?_
      rw [FileCapGuard.count_filesWrittenSinceRead]
      push_cast
      omega
    · exact hmoves.kept hw
    · cases answer with
      | live t => simp [Answer.take, takeReadings] at htake
      | unreadable d | persistFails t d => exact hdue

theorem step_exact (hlive : Live accounts) (hne : accounts ≠ [])
    (haccept : Accepted fslack accounts nJobs rereadEvery capFraction)
    (hround : RoundsWell fmul fslack accounts capFraction) (h : Sound accounts capFraction w)
    {a : Step J} (ht : step fmul accounts capFraction rereadEvery w a = some t) :
    Sound accounts capFraction t ∧ (AdmittedFits accounts w →
      (AdmittedFits accounts t ↔ CoversUnseen fmul nJobs rereadEvery w a)) := by
  cases a with
  | construct i args takenAt =>
    cases hj : w.job i with
    | some j => simp [step, hj] at ht
    | none =>
      simp only [step, hj] at ht
      split at ht
      · rename_i events g hconstruct
        obtain rfl := some.inj ht
        have hmoves : Moves w
            { w with job := Function.update w.job i (some ⟨g, 0, inFlight w⟩) } i
            ⟨g, 0, inFlight w⟩ 0 := .update rfl (by simp [pendingAt, hj])
        obtain ⟨hcap, hreadings, hcarried, hcount⟩ := construct_reads hconstruct
        refine ⟨h.moves hmoves (hmoves.reads hcap hreadings hcarried ?_),
          fun hw => iff_of_true ?_ trivial⟩
        · simp [hcount, admitted]
        · exact hmoves.kept hw
      · obtain rfl := some.inj ht
        exact ⟨h, fun hw => iff_of_true hw trivial⟩
  | check i n answer =>
    cases hj : w.job i with
    | none => simp [step, hj] at ht
    | some j =>
      simp only [step, hj] at ht
      split at ht
      · obtain rfl := some.inj ht
        exact check_exact hlive hne haccept hround h hj ‹_› n answer
      · cases ht
  | write i k =>
    cases hj : w.job i with
    | none => simp [step, hj] at ht
    | some j =>
      simp only [step, hj] at ht
      split at ht
      · rename_i hk
        obtain rfl := some.inj ht
        have hmoves : Moves w
            { job := Function.update w.job i (some { j with pending := j.pending - k })
              written := w.written + k } i { j with pending := j.pending - k } 0 := by
          refine .update rfl ?_
          simp only [pendingAt, hj, elim_some]
          omega
        obtain ⟨hcap, readAt, takenAt, hvalid⟩ := h i j hj
        refine ⟨h.moves hmoves (hmoves.reads hcap hvalid.lastReadings_eq hvalid.carried_eq ?_),
          fun hw => iff_of_true ?_ trivial⟩
        · simpa [alone] using hvalid.written_eq
        · exact hmoves.kept hw
      · cases ht

/-- **Guards that share a quota.**  Let the check accept the plan for every account, and let
no account start above its cap.  In a run of any number of processes in which each batch
that a guard admits also fits together with the files that this guard has not seen, or these
are no more than the check allows for, the accounts stay within their limits throughout; in
a run that writes every file it was admitted, only then. -/
theorem within_limit_iff (hlive : Live accounts) (hne : accounts ≠ [])
    (haccept : Accepted fslack accounts nJobs rereadEvery capFraction)
    (hround : RoundsWell fmul fslack accounts capFraction)
    (hstart : ∀ a ∈ accounts, ¬ Exceeds fmul capFraction a.filesLimit a.filesUsed)
    (hinit : Initial w) {events : List (Step J)}
    (hrun : (machine fmul accounts capFraction rereadEvery).run w events = some t) :
    ((machine fmul accounts capFraction rereadEvery).Allowed
        (CoversUnseen fmul nJobs rereadEvery) w events →
      (machine fmul accounts capFraction rereadEvery).Always (WithinLimit accounts) w events) ∧
    (inFlight t = 0 →
      (machine fmul accounts capFraction rereadEvery).Always (WithinLimit accounts) w events →
      (machine fmul accounts capFraction rereadEvery).Allowed
        (CoversUnseen fmul nJobs rereadEvery) w events) := by
  have hjob : Sound accounts capFraction w := fun i j hj => by
    rw [hinit.job] at hj
    cases hj
  have hfits : AdmittedFits accounts w := fun a ha => by
    have hnone : admitted w = 0 := by simp [admitted, inFlight, pendingAt, hinit.job, hinit.written]
    rw [hnone]
    exact overshoot_fits (haccept a ha) (hround a ha) (hstart a ha) (overshoot_nonneg (haccept a ha))
  have hexact := Machine.always_iff_allowed_of_run
    (M := machine fmul accounts capFraction rereadEvery)
    (fun w a t hs ht => step_exact hlive hne haccept hround hs ht) hjob hfits hrun
  refine ⟨fun hallowed => (hexact.mpr hallowed).mono fun u hu a ha hover => ?_,
    fun hdone halways => hexact.mp (Machine.always_of_last ?_ ?_ hrun)⟩
  · exact hu a ha (hover.mono (by have := written_le_admitted u; omega))
  · intro u a v huv hv b hb hover
    exact hv b hb (hover.mono (by have := admitted_le huv; omega))
  · intro a ha
    simpa [admitted, hdone] using halways.last hrun a ha

end

/-! ## Two guards, a hundred files -/

/-- A Lustre user account with a hundred files. -/
def hundredFiles : QuotaReading := { tenFiles with filesLimit := some 100 }

def shared : World Bool where
  job _ := none
  written := 0

theorem shared_initial : Initial shared := ⟨fun _ => rfl, rfl⟩

def guardArgs : GuardArgs where
  path := "/scratch"
  location := ⟨"/scratch", 100, none, false⟩
  checkSetgidGroup := false
  effectiveGroup := none

/-- Two processes start. -/
def startBoth : List (Step Bool) := [.construct false guardArgs "t0", .construct true guardArgs "t1"]

/-- Each is admitted a batch of `n` files, then they are written. -/
def bothWrite (n : Nat) : List (Step Bool) :=
  [.check false n (.live "t2"), .check true n (.live "t3"), .write false n, .write true n]

/-- `n_jobs=2, reread_every=10, cap_fraction=0.75`. -/
def twoJobs : Machine (World Bool) (Step Bool) :=
  machine exactProduct [hundredFiles] (3 / 4) 10

/-- `(1.0 - cap_fraction) * files_limit`, of numbers a double holds exactly. -/
def exactSlack (capFraction : ℚ) (limit : Int) : ℚ := (1 - capFraction) * limit

/-- The second batch of thirty misses thirty files, more than the check allows for, and the
batches of five miss sixty and sixty-five: they fit with them. -/
theorem within_limit_two_jobs :
    twoJobs.Always (WithinLimit [hundredFiles]) shared (startBoth ++ bothWrite 30 ++ bothWrite 5) ∧
      twoJobs.Allowed (CoversUnseen exactProduct 2 10) shared
        (startBoth ++ bothWrite 30 ++ bothWrite 5) := by
  have hrun : ((twoJobs.run shared (startBoth ++ bothWrite 30 ++ bothWrite 5)).map inFlight) =
      some 0 := by
    decide +kernel
  obtain ⟨t, ht, hdone⟩ := Option.map_eq_some_iff.mp hrun
  have haccept : Accepted exactSlack [hundredFiles] 2 10 (3 / 4) := by decide +kernel
  obtain ⟨henough, honly⟩ := within_limit_iff (by decide) (by decide) haccept (by decide +kernel)
    (by decide +kernel) shared_initial ht
  have halways := henough (by decide +kernel)
  exact ⟨halways, honly hdone halways⟩

/-- **The check accepts the plan, and the limit is exceeded.**  Each guard admits
seventy-five files on the reading it took when nothing was written. -/
theorem limit_exceeded :
    checkConcurrencySlack exactSlack (some 100) 2 10 (3 / 4) = .ok () ∧
      ¬ Exceeds exactProduct (3 / 4) hundredFiles.filesLimit hundredFiles.filesUsed ∧
      ∃ s, twoJobs.Reachable s ∧
        OverLimit hundredFiles.filesLimit (hundredFiles.filesUsed + s.written) := by
  have hr : (twoJobs.run shared (startBoth ++ bothWrite 75)).map (·.written) = some 150 := by
    decide +kernel
  obtain ⟨s, hrun, hwritten⟩ := Option.map_eq_some_iff.mp hr
  refine ⟨by decide +kernel, by decide +kernel, s, Machine.reachable_of_run shared_initial hrun, ?_⟩
  rw [hwritten]
  decide

end Xtrax.FileGuard.Jobs
