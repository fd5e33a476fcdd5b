import Xtrax.CandidatePass

/-!
# The loop over candidates

`runMultiIterationLoop` starts a watchdog, takes one candidate after the other through a pass
until the candidates or the time run out or too many runs failed in a row, and stops the watchdog
however that ended.  A pass that raised a `CandidateRunFailedError` is recorded and skipped; any
other exception ends the loop.

`dispatchPoints` are the states of the loop in which it goes on to another candidate.
-/

namespace Xtrax.Controller

open Git BestSoFar Raising

inductive TerminationReason where
  | normalCompletion
  | budgetExhausted
  | consecutiveFailures
  | allCandidatesFailed
  deriving DecidableEq

structure FailedCandidateRecord where
  iteration : Nat
  handoffPath : String
  exitCode : Int
  reason : String
  deriving DecidableEq

structure MultiIterationLoopResult (F : Type) where
  iterations : List (OneCandidatePassResult F)
  terminationReason : TerminationReason
  /-- The iterations a leap-path event was fired in. -/
  leapPathEvents : List Nat
  failedCandidates : List FailedCandidateRecord

/-- The loop's own variables. -/
structure LoopState (F : Type) where
  candidateIndex : Nat
  iterations : List (OneCandidatePassResult F)
  failedCandidates : List FailedCandidateRecord
  consecutiveFailures : Nat
  leapPathEvents : List Nat
  structuralFlags : List Bool
  previousSource : Option String
  loopStart : ℚ
  bestFitness : Option F

/-- The loop's records after a failed candidate. -/
def LoopState.recordFailure {F : Type} (l : LoopState F) (e : Exc) : LoopState F :=
  { l with
    consecutiveFailures := l.consecutiveFailures + 1
    failedCandidates := l.failedCandidates ++
      [⟨l.candidateIndex + 1, e.handoffPath, e.exitCode, e.text⟩] }

/-- The loop's records after a completed pass. -/
def LoopState.recordPass {F : Type} (l : LoopState F) (r : OneCandidatePassResult F) :
    LoopState F :=
  { l with
    consecutiveFailures := 0
    iterations := l.iterations ++ [r]
    bestFitness := if r.accepted then some r.fitnessDict else l.bestFitness }

/-- What an iteration comes to: another one, or a break. -/
inductive Continuation (F : Type) where
  | next (l : LoopState F)
  | exit (l : LoopState F) (reason : TerminationReason)

/-- `assert_diversity_quota`: a leap is required when none of the last `windowSize` flags is
set. -/
def leapPathIsRequired (flags : List Bool) (windowSize : Nat) : Bool :=
  let window := if windowSize = 0 then flags else flags.drop (flags.length - windowSize)
  if window.length < windowSize then false else !window.any id

section

variable {F : Type} (env : LoopEnv F) (cfg : Config F)

def resetAfterFailedCandidate (bestFitness : Option F) : Loop F Unit :=
  runGitProgram env (rejectBranch cfg.target bestFitness.isSome)

/-- The soft time budget, looked at before each candidate. -/
def budgetIsExhausted (l : LoopState F) : Loop F Bool :=
  match cfg.wallClockBudgetSeconds with
  | none => pure false
  | some budget => do
    let now ← ask env .time
    pure (budget ≤ now - l.loopStart)

/-- Too many failures in a row, or another candidate. -/
def afterFailure (l : LoopState F) : Continuation F :=
  if cfg.maxConsecutiveFailures ≤ l.consecutiveFailures then .exit l .consecutiveFailures
  else .next { l with candidateIndex := l.candidateIndex + 1 }

/-- `except CandidateRunFailedError`. -/
def skipFailedCandidate (l : LoopState F) (e : Exc) : Loop F (Continuation F) := do
  let l := l.recordFailure e
  if cfg.probeRecordDir then
    -- contained: whatever it raises is logged
    let _ ← (attempt (resolveDerivedFrom cfg *> ask env (.emitProbeRecord false)) : Loop F _)
  resetAfterFailedCandidate env cfg l.bestFitness
  pure (afterFailure cfg l)

/-- The diversity quota, over the source of a completed pass. -/
def watchDiversity (l : LoopState F) (r : OneCandidatePassResult F) : Loop F (LoopState F) := do
  let candidateSource ← ask env (.readSource r.handoff.path)
  let l ←
    match l.previousSource with
    | none => pure l
    | some previousSource => do
      let flag ← ask env (.isStructuralMutation previousSource candidateSource)
      let l := { l with structuralFlags := l.structuralFlags ++ [flag] }
      if leapPathIsRequired l.structuralFlags cfg.diversityWindowSize then
        let l := { l with leapPathEvents := l.leapPathEvents ++ [l.candidateIndex] }
        ask env (.leapPathRequired l.candidateIndex)
        pure l
      else pure l
  pure { l with previousSource := some candidateSource }

def completePass (l : LoopState F) (r : OneCandidatePassResult F) : Loop F (Continuation F) := do
  let l ← watchDiversity env cfg (l.recordPass r) r
  pure (.next { l with candidateIndex := l.candidateIndex + 1 })

/-- The pass of one candidate, as the loop calls it. -/
def dispatchPass (l : LoopState F) : Loop F (OneCandidatePassResult F) :=
  runOneCandidatePass env cfg l.bestFitness (l.bestFitness.map fun _ => cfg.higherIsBetter)
    (l.candidateIndex + 1)

/-- One iteration after the budget was looked at. -/
def iteration (l : LoopState F) : Loop F (Continuation F) := do
  match ← attempt (dispatchPass env cfg l) with
  | .ok r => completePass env cfg l r
  | .error raised =>
    if raised.exc.isInstance .candidateRunFailedError ∧ cfg.campaignMode ≠ .confirmation then
      skipFailedCandidate env cfg l raised.exc
    else throw raised

def LoopState.result {F : Type} (l : LoopState F) (reason : TerminationReason) :
    MultiIterationLoopResult F :=
  ⟨l.iterations, reason, l.leapPathEvents, l.failedCandidates⟩

/-- `for candidate_index in range(max_candidates)`, with `n` candidates to go, and its `else`. -/
def candidateLoop : Nat → LoopState F → Loop F (MultiIterationLoopResult F)
  | 0, l =>
    pure (l.result (if l.iterations = [] ∧ l.failedCandidates ≠ [] then .allCandidatesFailed
      else .normalCompletion))
  | n + 1, l => do
    if ← budgetIsExhausted env cfg l then pure (l.result .budgetExhausted)
    else
      match ← iteration env cfg l with
      | .next l => candidateLoop n l
      | .exit l reason => pure (l.result reason)

/-- `finally`: a watchdog that has already stopped is no failure. -/
def stopWatchdog : Loop F Unit := do
  match ← attempt (ask env .stopWatchdog) with
  | .ok _ => pure ()
  | .error raised =>
    if raised.exc.isInstance .watchdogAlreadyStoppedError then pure () else throw raised

/-- Before the loop: the checks, the watchdog and the clock. -/
def startLoop : Loop F (LoopState F) := do
  if cfg.maxCandidates < 1 then raise (.valueError "max_candidates must be >= 1")
  if cfg.maxConsecutiveFailures < 1 then
    raise (.valueError "max_consecutive_failures must be >= 1")
  ask env .startWatchdog
  let loopStart ← ask env .time
  pure ⟨0, [], [], 0, [], [], none, loopStart, none⟩

def guardedLoop (l : LoopState F) : Loop F (MultiIterationLoopResult F) :=
  candidateLoop env cfg cfg.maxCandidates.toNat l

def runMultiIterationLoop : Loop F (MultiIterationLoopResult F) := do
  let l ← startLoop env cfg
  withCleanup (guardedLoop env cfg l) (stopWatchdog env)

/-- The states in which the loop, with `n` candidates to go, takes another one. -/
def dispatchPoints : Nat → LoopState F → LoopWorld F → List (LoopState F × LoopWorld F)
  | 0, _, _ => []
  | n + 1, l, w =>
    match budgetIsExhausted env cfg l w with
    | .ok false w =>
      (l, w) ::
        match iteration env cfg l w with
        | .ok (.next l) w => dispatchPoints n l w
        | _ => []
    | _ => []

/-- The states in which a run that begins in a repository takes another candidate. -/
def dispatches (repo : Repository) : List (LoopState F × LoopWorld F) :=
  match startLoop env cfg ⟨[], repo⟩ with
  | .ok l w => dispatchPoints env cfg cfg.maxCandidates.toNat l w
  | .error _ _ => []

end

/-! ### What follows a pass -/

section

variable {F : Type} {env : LoopEnv F} {cfg : Config F} {I : LoopWorld F → Prop} {l : LoopState F}
variable {w : LoopWorld F}

theorem wp_watchDiversity (hread : ∀ path, Keeps I (ask env (.readSource path)))
    (hmutation : ∀ previous candidate, Keeps I (ask env (.isStructuralMutation previous candidate)))
    (hleap : ∀ i, Keeps I (ask env (.leapPathRequired i))) (hw : I w)
    (r : OneCandidatePassResult F) :
    wp (watchDiversity env cfg l r)
      (fun l' w => I w ∧ ∃ leaps flags source, l' =
        { l with leapPathEvents := leaps, structuralFlags := flags, previousSource := source })
      (fun _ _ => True) w := by
  unfold watchDiversity
  refine (hread _).wp_bind hw (fun source t ht => ?_) fun _ _ _ => trivial
  cases l.previousSource with
  | none => exact ⟨ht, _, _, _, rfl⟩
  | some previousSource =>
    refine (hmutation _ _).wp_bind ht (fun flag t ht => ?_) fun _ _ _ => trivial
    rw [wp_ite]
    split
    · exact (hleap _).wp_bind ht (fun _ t ht => ⟨ht, _, _, _, rfl⟩) fun _ _ _ => trivial
    · exact ⟨ht, _, _, _, rfl⟩

theorem wp_skipFailedCandidate (hprobe : Keeps I (ask env (.emitProbeRecord false)))
    (hderived : Keeps I (resolveDerivedFrom cfg))
    (hreset : ∀ best, Keeps I (resetAfterFailedCandidate env cfg best)) (hw : I w) (e : Exc) :
    wp (skipFailedCandidate env cfg l e)
      (fun next w => I w ∧ next = afterFailure cfg (l.recordFailure e))
      (fun _ _ => True) w := by
  have hrecord : Keeps I
      (attempt (resolveDerivedFrom cfg *> ask env (.emitProbeRecord false)) : Loop F _) := by
    refine Keeps.attempt fun t ht => ?_
    rw [wp_seqRight]
    exact (hderived t ht).mono (fun _ t ht => hprobe t ht) fun _ _ h => h
  have hrest : ∀ t, I t → wp (do
      resetAfterFailedCandidate env cfg (l.recordFailure e).bestFitness
      pure (afterFailure cfg (l.recordFailure e)))
      (fun next w => I w ∧ next = afterFailure cfg (l.recordFailure e))
      (fun _ _ => True) t := by
    intro t ht
    exact (hreset _).wp_bind ht (fun _ t ht => ⟨ht, rfl⟩) fun _ _ _ => trivial
  unfold skipFailedCandidate
  rw [wp_ite]
  split
  · exact hrecord.wp_bind hw (fun _ t ht => hrest t ht) fun _ _ _ => trivial
  · exact hrest w hw

end

end Xtrax.Controller
