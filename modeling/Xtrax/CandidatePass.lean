import Xtrax.BestSoFar
import Xtrax.Raising
import Xtrax.Ratchet

/-!
# One candidate's pass

`runOneCandidatePass` takes one candidate from dispatch to the best-so-far ref: gates, the run,
scoring, the ratchet, the stats and seed gates, and then the accept or the reject branch, after
which evidence, timing and a record may still fail.

Every collaborator is a call (`Call`), which may return or raise whatever it likes, at any time;
a git command is a call for the circumstances it runs in.  The fitness values and the ratchet's
verdict on two of them are left open, and so is what is in a record.
-/

namespace Xtrax.Controller

open Git BestSoFar Raising

inductive CampaignMode where
  | exploration
  | confirmation
  | sequential
  deriving DecidableEq

/-- `_GATED_MODES` of the stats and seed gates. -/
def CampaignMode.gated : CampaignMode → Bool
  | exploration => false
  | confirmation => true
  | sequential => true

structure CandidateHandoff where
  path : String
  contentSha256 : String
  deriving DecidableEq

structure CandidateRunResult where
  success : Bool
  runId : String
  exitCode : Int
  deriving DecidableEq

structure SeedTrialCounts where
  distinctSeedCount : Int
  trialCount : Int
  deriving DecidableEq

/-! ### Calls -/

/-- The steps a pass and the loop around it leave to others. -/
inductive Call where
  | startWatchdog
  | stopWatchdog
  | time
  | dispatchCandidate
  | candidateStatic (path : String)
  | structureTripwire (path : String)
  | candidateSmoke (path : String)
  | checkifiedExecution (path : String)
  | adapterRun (scriptPath derivedFrom : String)
  | sidecarDrift (path runId : String)
  | guardedEvaluate (outputPaths : List String)
  | verifyMetricsProvenance (runId : String)
  | writeMetricsProvenance (runId : String)
  | buildSanctionedEnvelope (iteration : Nat)
  | statsBattery
  | seedTrialCounts (contentSha256 : String)
  | git (command : Git.Command)
  | admitEvidence (runId : String)
  | measureTwoPhaseTiming (path : String)
  | assertNoCompileTimeRegression
  | emitProbeRecord (accepted : Bool)
  | readSource (path : String)
  | isStructuralMutation (previous candidate : String)
  | leapPathRequired (iterationIndex : Nat)
  deriving DecidableEq

/-- What they answer; `F` is the type of fitness values. -/
@[reducible] def Answer (F : Type) : Call → Type
  | .time => ℚ
  | .dispatchCandidate => CandidateHandoff
  | .adapterRun _ _ => CandidateRunResult
  | .guardedEvaluate _ => F
  | .statsBattery => Bool
  | .seedTrialCounts _ => SeedTrialCounts
  | .git _ => Circumstances Exc
  | .readSource _ => String
  | .isStructuralMutation _ _ => Bool
  | _ => Unit

/-- The calls made, and the repository. -/
abbrev LoopWorld (F : Type) := World Call (Answer F) Exc Repository

abbrev LoopEnv (F : Type) := Environment Call (Answer F) Exc

/-- A computation of the loop. -/
abbrev Loop (F α : Type) := Raising (Raised Call Exc) (LoopWorld F) α

/-- The arguments of the loop that every pass gets. -/
structure Config (F : Type) where
  campaignMode : CampaignMode
  distinctRealParents : List String
  outputPaths : List String
  agentMode : String
  wallClockBudgetSeconds : Option ℚ
  diversityWindowSize : Nat
  ratchetRefName : String
  commitTreeSha : Option Tree
  candidateTargetPath : Option String
  allowFreshStartDespiteExistingLineage : Bool
  bootstrapCommitSha : Option Commit
  maxCandidates : Int
  maxConsecutiveFailures : Int
  probeRecordDir : Bool
  higherIsBetter : Dict String Bool
  computeRatchetDecision :
    F → F → Dict String Bool → Except Ratchet.RatchetInputError Ratchet.RatchetDecision

/-- What the accept and the reject branch get. -/
def Config.target {F : Type} (cfg : Config F) : Target where
  ref := cfg.ratchetRefName
  commitTreeSha := cfg.commitTreeSha
  targetPath := cfg.candidateTargetPath
  commitParentSha := cfg.bootstrapCommitSha
  bootstrapBaseTreeSha := cfg.bootstrapCommitSha

structure OneCandidatePassResult (F : Type) where
  handoff : CandidateHandoff
  derivedFrom : String
  runResult : CandidateRunResult
  /-- `gate_outcome.stats_battery.hard_blocked`. -/
  statsHardBlocked : Bool
  /-- `gate_outcome.seed_trial.hard_blocked`. -/
  seedHardBlocked : Bool
  ratchetDecision : Ratchet.RatchetDecision
  fitnessDict : F

def isAccepted (runSuccess statsHardBlocked improved : Bool) : Bool :=
  runSuccess && !statsHardBlocked && improved

def OneCandidatePassResult.accepted {F : Type} (r : OneCandidatePassResult F) : Bool :=
  isAccepted r.runResult.success r.statsHardBlocked r.ratchetDecision.improved

def OneCandidatePassResult.held {F : Type} (r : OneCandidatePassResult F) : Bool :=
  r.accepted && !r.seedHardBlocked

section

variable {F : Type} (env : LoopEnv F) (cfg : Config F)

/-! ### Git -/

/-- The circumstances the environment makes for a command. -/
def circumstances (answer : Except Exc (Circumstances Exc)) : Circumstances Exc :=
  match answer with
  | .ok n => n
  | .error e => ⟨some e, false, "", "", none⟩

/-- A git command in whatever circumstances the environment makes for it. -/
def runCommand (c : Git.Command) : Loop F (c.Completed Exc) := fun w =>
  let answer := env w.events (.git c)
  let n := circumstances answer
  .ok (exec w.vars n c).1
    { events := w.events ++ [⟨.git c, answer⟩], vars := (exec w.vars n c).2 }

/-- A program of git commands, with nobody else at the repository. -/
def runGitProgram {α : Type} (p : GitProgram Exc α) : Loop F α := do
  match ← p.run.interpret (runCommand env) with
  | .ok a => pure a
  | .error e => raise e

/-! ### The steps of a pass -/

def resolveDerivedFrom : Loop F String :=
  match cfg.distinctRealParents with
  | [] => pure ""
  | [parent] => pure parent
  | _ => raise (.of [.multiParentLineageUnsupportedError] "more than one distinct real parent")

/-- Steps 1.5 to 2.3: the gates before the run, the run, and the refusal of a failed one. -/
def runCandidate (handoff : CandidateHandoff) : Loop F (String × CandidateRunResult) := do
  ask env (.candidateStatic handoff.path)
  ask env (.structureTripwire handoff.path)
  ask env (.candidateSmoke handoff.path)
  ask env (.checkifiedExecution handoff.path)
  let derivedFrom ← resolveDerivedFrom cfg
  let runResult ← ask env (.adapterRun handoff.path derivedFrom)
  if runResult.success then pure (derivedFrom, runResult)
  else
    raise ⟨[.candidateRunFailedError], "bathos run did not succeed", handoff.path,
      handoff.contentSha256, runResult.exitCode⟩

/-- Steps 2.4 to 2.56: sidecar drift, the score, its provenance and the agent's envelope. -/
def scoreCandidate (handoff : CandidateHandoff) (runResult : CandidateRunResult)
    (iteration : Nat) : Loop F F := do
  if cfg.agentMode ∈ ["collaborative", "autonomous"] ∧ runResult.runId ≠ "" then
    ask env (.sidecarDrift handoff.path runResult.runId)
  if cfg.outputPaths = [] then
    raise (.valueError "output_paths must be non-empty to score a candidate's raw artifacts")
  let fitness ← ask env (.guardedEvaluate cfg.outputPaths)
  if runResult.runId = "" then
    raise (.valueError "run_id must be non-empty to attest metrics provenance")
  ask env (.verifyMetricsProvenance runResult.runId)
  ask env (.writeMetricsProvenance runResult.runId)
  ask env (.buildSanctionedEnvelope iteration)
  pure fitness

/-- The decision on a first candidate. -/
def automaticAccept : Ratchet.RatchetDecision := ⟨true, 1, 1, .infinite, []⟩

/-- Step 2.6: the ratchet, or the automatic accept of a fresh start. -/
def decideRatchet (bestFitness : Option F) (higherIsBetter : Option (Dict String Bool))
    (fitness : F) : Loop F Ratchet.RatchetDecision :=
  match bestFitness, higherIsBetter with
  | some best, some higherIsBetter =>
    match cfg.computeRatchetDecision fitness best higherIsBetter with
    | .ok decision => pure decision
    | .error _ => raise (.of [.ratchetInputError] "mismatched metric keys, or fewer than 2 metrics")
  | none, none => do
    if cfg.allowFreshStartDespiteExistingLineage then pure automaticAccept
    else
      match ← runGitProgram env (readBestSoFar cfg.ratchetRefName) with
      | none => pure automaticAccept
      | some _ =>
        raise (.of [.priorBestSoFarLineageConflictError]
          "a prior best-so-far commit already exists at ratchet_ref_name")
  | _, _ => raise (.valueError "best_fitness and higher_is_better must both be supplied or both omitted")

/-- `assess_stats_battery_verdict`: hard-blocked when not honored in a gated mode. -/
def assessStatsBatteryVerdict (pass : Bool) (mode : CampaignMode) : Bool := !pass && mode.gated

def minSeeds : Int := 3

def minTrials : Int := 29

def assessSeedTrialFloor (counts : SeedTrialCounts) (mode : CampaignMode) : Loop F Bool := do
  if counts.distinctSeedCount < 0 ∨ counts.trialCount < 0 then
    raise (.of [.seedGateInputError] "distinct_seed_count and trial_count must be non-negative")
  if counts.trialCount < counts.distinctSeedCount then
    raise (.of [.seedGateInputError] "distinct_seed_count cannot exceed trial_count")
  let held := minSeeds ≤ counts.distinctSeedCount ∧ minTrials ≤ counts.trialCount
  pure (!held && mode.gated)

def commitMessage (handoff : CandidateHandoff) (derivedFrom : String) : String :=
  "ratchet best-so-far: candidate " ++ handoff.contentSha256 ++
    if derivedFrom = "" then " (root candidate)" else " derived_from=" ++ derivedFrom

/-- Step 2.7: the accept or the reject branch. -/
def advanceLineage (bestFitness : Option F) (r : OneCandidatePassResult F) : Loop F Unit :=
  if r.accepted then
    runGitProgram env
      (acceptBranch cfg.target r.handoff.path (commitMessage r.handoff r.derivedFrom))
  else runGitProgram env (rejectBranch cfg.target bestFitness.isSome)

/-- Steps 3.5 to 4.5, after the ref: evidence, compile time, the record. -/
def afterLineage (r : OneCandidatePassResult F) : Loop F Unit := do
  if r.runResult.runId ≠ "" then
    match ← attempt (ask env (.admitEvidence r.runResult.runId)) with
    | .ok _ => pure ()
    | .error raised =>
      if raised.exc.isInstance .valueError ∨ raised.exc.isInstance .importError then pure ()
      else throw raised
  ask env (.measureTwoPhaseTiming r.handoff.path)
  ask env .assertNoCompileTimeRegression
  if cfg.probeRecordDir then
    -- contained: whatever it raises is printed
    let _ ← (attempt (ask env (.emitProbeRecord r.accepted)) : Loop F _)

def runOneCandidatePass (bestFitness : Option F) (higherIsBetter : Option (Dict String Bool))
    (iteration : Nat) : Loop F (OneCandidatePassResult F) := do
  if cfg.commitTreeSha = none ∧ cfg.candidateTargetPath = none then
    raise (.valueError
      "candidate_target_path is required when commit_tree_sha is not supplied directly")
  let handoff ← ask env .dispatchCandidate
  let (derivedFrom, runResult) ← runCandidate env cfg handoff
  let fitness ← scoreCandidate env cfg handoff runResult iteration
  let decision ← decideRatchet env cfg bestFitness higherIsBetter fitness
  let pass ← ask env .statsBattery
  let counts ← ask env (.seedTrialCounts handoff.contentSha256)
  let seedHardBlocked ← assessSeedTrialFloor counts cfg.campaignMode
  let r : OneCandidatePassResult F :=
    { handoff, derivedFrom, runResult
      statsHardBlocked := assessStatsBatteryVerdict pass cfg.campaignMode
      seedHardBlocked
      ratchetDecision := decision
      fitnessDict := fitness }
  advanceLineage env cfg bestFitness r
  afterLineage env cfg r
  pure r

end

/-! ### What a pass leaves alone -/

/-- The ratchet's ref is where it was. -/
structure SameRef (ref : String) (r r' : Repository) : Prop where
  refs : r'.refs ref = r.refs ref
  head : r'.head = r.head
  hashed : ∀ f ∈ r.hashed, f ∈ r'.hashed

theorem SameRef.of_quiet {ref : String} {r r' : Repository} (h : Quiet r r') : SameRef ref r r' :=
  ⟨congrFun h.refs ref, h.head, h.hashed⟩

theorem SameRef.refl (ref : String) (r : Repository) : SameRef ref r r := .of_quiet (.refl r)

theorem SameRef.trans {ref : String} {r₁ r₂ r₃ : Repository} (h : SameRef ref r₁ r₂)
    (h' : SameRef ref r₂ r₃) : SameRef ref r₁ r₃ :=
  ⟨h'.refs.trans h.refs, h'.head.trans h.head, fun f hf => h'.hashed f (h.hashed f hf)⟩

/-- The calls whose answers say what becomes of a candidate. -/
def Call.telling : Call → Bool
  | dispatchCandidate => true
  | adapterRun _ _ => true
  | guardedEvaluate _ => true
  | statsBattery => true
  | _ => false

/-- Invariants that only a telling call or a move of the ref may break. -/
structure Inert {F : Type} (ref : String) (I : LoopWorld F → Prop) : Prop where
  event : ∀ w ev, ev.call.telling = false → I w → I { w with events := w.events ++ [ev] }
  vars : ∀ w r, SameRef ref w.vars r → I w → I { w with vars := r }

section

variable {F α β : Type} {env : LoopEnv F} {cfg : Config F} {I : LoopWorld F → Prop}

theorem Inert.ask {ref : String} (hI : Inert ref I) {c : Call} (hc : c.telling = false) :
    Keeps I (ask env c) :=
  fun w hw => wp_ask_of (fun a => hI.event w ⟨c, .ok a⟩ hc hw) fun e => hI.event w ⟨c, .error e⟩ hc hw

/-- A git program makes git calls, and ends as it does with nobody else at the repository. -/
theorem wp_runGitProgram {p : GitProgram Exc α} {w : LoopWorld F}
    {Q : Except Exc α → Repository → Prop}
    (hevent : ∀ w ev, ev.call.telling = false → I w → I { w with events := w.events ++ [ev] })
    (hw : I w) (h : p.run.Meets exec Eq (fun _ _ => True) Q w.vars) :
    wp (runGitProgram env p) (fun a w' => I { w' with vars := w.vars } ∧ Q (.ok a) w'.vars)
      (fun e w' => I { w' with vars := w.vars } ∧ Q (.error e.exc) w'.vars) w := by
  unfold runGitProgram
  rw [wp_bind]
  suffices ∀ (q : Interleaving.Program Git.Command (Git.Command.Completed Exc) (Except Exc α))
      (u : LoopWorld F), I { u with vars := w.vars } →
      q.Meets exec Eq (fun _ _ => True) Q u.vars →
      wp (q.interpret (runCommand env))
        (fun r w' => I { w' with vars := w.vars } ∧ Q r w'.vars) (fun _ _ => False) u by
    refine (this p.run w hw h).mono ?_ fun _ _ h => h.elim
    rintro (e | a) t ht
    · exact ht
    · exact ht
  intro q
  induction q with
  | ret r => exact fun u hu h => ⟨hu, h⟩
  | call c k ih =>
    intro u hu h
    show wp (runCommand env c >>= fun r => (k r).interpret (runCommand env)) _ _ u
    rw [wp_bind]
    refine ih _ _ ?_ (h u.vars (circumstances (env u.events (.git c))) rfl).2
    exact hevent _ ⟨.git c, env u.events (.git c)⟩ rfl hu

theorem evolves_of_eq {ref : String} (r r' : Repository) (h : r = r') : Evolves ref r r' :=
  h ▸ .of_quiet (.refl r)

theorem stable_sameRef (ref : String) (r : Repository) : Stable Eq fun r' => SameRef ref r r' :=
  ⟨fun _ _ h hr => h ▸ hr, fun _ _ h hr => hr.trans (.of_quiet h)⟩

/-- The exception that a call raised, or that a git command did. -/
def AnswerRaises : (c : Call) → Except Exc (Answer F c) → Exc → Prop
  | .git _, answer, e =>
    (circumstances answer).before = some e ∨ (circumstances answer).after = some e
  | _, .error e', e => e' = e
  | _, .ok _, _ => False

theorem wp_runGitProgram_raises {p : GitProgram Exc α} {S : Exc → Prop} (hp : Raises S p.run)
    (w : LoopWorld F) :
    wp (runGitProgram env p) (fun _ _ => True)
      (fun raised w' => S raised.exc ∨ ∃ c answer, ⟨.git c, answer⟩ ∈ w'.events ∧
        AnswerRaises (.git c) answer raised.exc) w := by
  unfold runGitProgram
  rw [wp_bind]
  suffices ∀ (q : Interleaving.Program Git.Command (Git.Command.Completed Exc) (Except Exc α))
      (u : LoopWorld F) (T : Exc → Prop), Raises T q →
      (∀ e, T e → S e ∨ ∃ c answer, ⟨.git c, answer⟩ ∈ u.events ∧ AnswerRaises (.git c) answer e) →
      wp (q.interpret (runCommand env)) (fun r w' => ∀ e, r = .error e →
        S e ∨ ∃ c answer, ⟨.git c, answer⟩ ∈ w'.events ∧ AnswerRaises (.git c) answer e)
        (fun _ _ => False) u by
    refine (this p.run w S hp fun _ => .inl).mono ?_ fun _ _ h => h.elim
    rintro (e | a) t ht
    · exact ht e rfl
    · exact trivial
  intro q
  induction q with
  | ret r =>
    intro u T hq hT e he
    subst he
    exact hT e hq
  | call c k ih =>
    intro u T hq hT
    show wp (runCommand env c >>= fun r => (k r).interpret (runCommand env)) _ _ u
    rw [wp_bind]
    refine ih _ _ _ (hq _) ?_
    rintro e (he | he)
    · refine (hT e he).imp_right ?_
      rintro ⟨c', answer, hmem, hraises⟩
      exact ⟨c', answer, List.mem_append_left _ hmem, hraises⟩
    · exact .inr ⟨c, env u.events (.git c), List.mem_append_right _ List.mem_cons_self,
        exec_error he⟩

theorem Inert.runGitProgram {ref : String} (hI : Inert ref I) {p : GitProgram Exc α}
    (h : ∀ r, p.run.Meets exec Eq (fun _ _ => True) (fun _ r' => SameRef ref r r') r) :
    Keeps I (runGitProgram env p) := by
  intro w hw
  have hback : ∀ w' : LoopWorld F, I { w' with vars := w.vars } → SameRef ref w.vars w'.vars →
      I w' := fun w' h hr => hI.vars { w' with vars := w.vars } _ hr h
  exact (wp_runGitProgram hI.event hw (h w.vars)).mono (fun _ w' h => hback w' h.1 h.2)
    fun _ w' h => hback w' h.1 h.2

theorem Inert.readBestSoFar {ref : String} (hI : Inert ref I) (ref' : String) :
    Keeps I (Controller.runGitProgram env (BestSoFar.readBestSoFar ref')) :=
  hI.runGitProgram fun r => readBestSoFar_meets (stable_sameRef ref r) (.refl ref r)
    (fun _ _ _ => trivial) (fun _ _ h => h) fun _ h => h

/-- The reject branch leaves the ref where it is: a reset comes back to what the ref names. -/
theorem rejectBranch_sameRef {t : Target} {hasBestFitness : Bool} (r : Repository) :
    (rejectBranch t hasBestFitness).run.Meets exec Eq (fun _ _ => True)
      (fun _ r' => SameRef t.ref r r') r := by
  refine rejectBranch_meets (stable_sameRef t.ref r) (.refl t.ref r) (fun _ _ _ => trivial)
    (fun _ _ h => h) fun s₀ s branch best hs₀ hs hbest _ => ⟨trivial, fun _ => ?_⟩
  refine ⟨?_, hs.head, hs.hashed⟩
  by_cases hbranch : branch = t.ref
  · subst hbranch
    rw [Repository.setRef_refs, ← hbest, hs₀.refs]
  · rw [← hs.refs]
    exact Function.update_of_ne (Ne.symm hbranch) ..

theorem resolveDerivedFrom_keeps (I : LoopWorld F → Prop) : Keeps I (resolveDerivedFrom cfg) := by
  unfold resolveDerivedFrom
  split
  · exact .pure
  · exact .pure
  · exact .throw

end

end Xtrax.Controller
