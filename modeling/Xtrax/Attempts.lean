import Xtrax.CampaignLoop

/-!
# The candidates a loop accounts for

Each dispatch ends as one attempt, a completed pass or a recorded failure, so what the loop
returns lists exactly the candidates dispatched, in order (`wp_loop_reported`).  A recorded
failure carries the number of its dispatch, and the path that was handed over there unless a
collaborator of its own accord raised what a failed run raises.

A pass dispatches once and all else in it leaves the dispatches as they are (`Aside`).
-/

namespace Xtrax.Controller

open List Git BestSoFar Raising

variable {F : Type}

/-- What came of a dispatch. -/
abbrev Attempt (F : Type) := OneCandidatePassResult F ⊕ FailedCandidateRecord

/-- What the dispatches answered, in order. -/
def dispatched (events : List (Event Call (Answer F) Exc)) : List (Except Exc CandidateHandoff) :=
  events.filterMap fun ev => match ev with
    | ⟨.dispatchCandidate, answer⟩ => some answer
    | _ => none

/-- A call raised it. -/
def RaisedBy (events : List (Event Call (Answer F) Exc)) (e : Exc) : Prop :=
  ∃ ev ∈ events, AnswerRaises ev.call ev.answer e

/-- The record of a failed dispatch names what was handed over, or a collaborator raised what it
records. -/
def FailedCandidateRecord.Of (f : FailedCandidateRecord)
    (events : List (Event Call (Answer F) Exc)) (answer : Except Exc CandidateHandoff) : Prop :=
  (∃ handoff, answer = .ok handoff ∧ f.handoffPath = handoff.path) ∨
    ∃ e, RaisedBy events e ∧ e.isInstance .candidateRunFailedError = true ∧
      f.handoffPath = e.handoffPath

/-- The attempts are what came of these dispatches, one for one and in order. -/
inductive Accounts (events : List (Event Call (Answer F) Exc)) :
    List (Attempt F) → List (Except Exc CandidateHandoff) → Prop
  | none : Accounts events [] []
  | completed {attempts answers} (r : OneCandidatePassResult F) :
      Accounts events attempts answers →
      Accounts events (attempts ++ [.inl r]) (answers ++ [.ok r.handoff])
  | failed {attempts answers answer} (f : FailedCandidateRecord) :
      Accounts events attempts answers → f.iteration = attempts.length + 1 →
      f.Of events answer → Accounts events (attempts ++ [.inr f]) (answers ++ [answer])

/-- The failures at the end. -/
def trailingFailures (attempts : List (Attempt F)) : Nat :=
  (attempts.reverse.takeWhile Sum.isRight).length

section

variable {events events' : List (Event Call (Answer F) Exc)} {attempts : List (Attempt F)}

theorem RaisedBy.mono {e : Exc} (h : RaisedBy events e) (hsub : ∀ ev ∈ events, ev ∈ events') :
    RaisedBy events' e := by
  obtain ⟨ev, hev, hraises⟩ := h
  exact ⟨ev, hsub ev hev, hraises⟩

theorem Accounts.mono {answers : List (Except Exc CandidateHandoff)}
    (h : Accounts events attempts answers) (hsub : ∀ ev ∈ events, ev ∈ events') :
    Accounts events' attempts answers := by
  induction h with
  | none => exact .none
  | completed r _ ih => exact .completed r ih
  | failed f _ hiteration hof ih =>
    refine .failed f ih hiteration (hof.imp_right ?_)
    rintro ⟨e, hraised, hclass, hpath⟩
    exact ⟨e, hraised.mono hsub, hclass, hpath⟩

@[simp] theorem trailingFailures_completed (r : OneCandidatePassResult F) :
    trailingFailures (attempts ++ [.inl r]) = 0 := by
  simp [trailingFailures]

@[simp] theorem trailingFailures_failed (f : FailedCandidateRecord) :
    trailingFailures (attempts ++ [.inr f]) = trailingFailures attempts + 1 := by
  simp [trailingFailures, takeWhile_cons]

theorem dispatched_append (ev : Event Call (Answer F) Exc)
    (h : ev.call ≠ .dispatchCandidate) : dispatched (events ++ [ev]) = dispatched events := by
  obtain ⟨c, answer⟩ := ev
  rw [dispatched, filterMap_append]
  cases c with
  | dispatchCandidate => exact absurd rfl h
  | _ => exact append_nil _

theorem dispatched_dispatch (answer : Except Exc CandidateHandoff) :
    dispatched (events ++ [⟨.dispatchCandidate, answer⟩]) = dispatched events ++ [answer] :=
  filterMap_append ..

end

/-! ### What is no dispatch -/

/-- Neither a dispatch nor a git command. -/
def Call.plain : Call → Bool
  | dispatchCandidate => false
  | git _ => false
  | _ => true

theorem Call.plain.ne_dispatch {c : Call} (hc : c.plain = true) : c ≠ .dispatchCandidate := by
  rintro rfl
  exact nomatch hc

/-- Invariants that only a dispatch may break. -/
structure Aside (I : LoopWorld F → Prop) : Prop where
  event : ∀ w ev, ev.call ≠ .dispatchCandidate → I w → I { w with events := w.events ++ [ev] }
  vars : ∀ w r, I w → I { w with vars := r }

/-- No further dispatch than `answers`, in a run that began with `before`. -/
def Dispatches (before : List (Event Call (Answer F) Exc))
    (answers : List (Except Exc CandidateHandoff)) (w : LoopWorld F) : Prop :=
  dispatched w.events = answers ∧ ∀ ev ∈ before, ev ∈ w.events

theorem aside_dispatches {before : List (Event Call (Answer F) Exc)}
    {answers : List (Except Exc CandidateHandoff)} : Aside (Dispatches before answers) where
  event _ ev hev h :=
    ⟨(dispatched_append ev hev).trans h.1, fun ev' hev' => mem_append_left _ (h.2 ev' hev')⟩
  vars _ _ h := h

/-- A failed run's exception is that of the run of `handoff`, or some call raised it. -/
def Blames (handoff : CandidateHandoff) (raised : Raised Call Exc) (w : LoopWorld F) : Prop :=
  raised.exc.isInstance .candidateRunFailedError = true →
    raised.exc.handoffPath = handoff.path ∨ RaisedBy w.events raised.exc

section

variable {env : LoopEnv F} {cfg : Config F} {I : LoopWorld F → Prop} {handoff : CandidateHandoff}
variable {α β : Type} {w : LoopWorld F} {m : Loop F α} {k : α → Loop F β}

/-- The computation dispatches nothing, and what it raises is accounted for. -/
def Accountable (I : LoopWorld F → Prop) (handoff : CandidateHandoff) (m : Loop F α) : Prop :=
  ∀ w, I w → wp m (fun _ => I) (fun raised w => I w ∧ Blames handoff raised w) w

theorem Accountable.pure {a : α} : Accountable I handoff (Pure.pure a) := fun _ h => h

theorem Accountable.raise {e : Exc} (h : e.isInstance .candidateRunFailedError = false) :
    Accountable I handoff (Raising.raise e : Loop F α) :=
  fun _ hw => ⟨hw, fun he => absurd (h.symm.trans he) Bool.false_ne_true⟩

theorem Accountable.bind (hm : Accountable I handoff m) (hk : ∀ a, Accountable I handoff (k a)) :
    Accountable I handoff (m >>= k) :=
  Upholds.bind hm hk

theorem Accountable.ite {c : Prop} [Decidable c] {n : Loop F α} (hm : Accountable I handoff m)
    (hn : Accountable I handoff n) : Accountable I handoff (if c then m else n) :=
  Upholds.ite hm hn

theorem Accountable.step {R : β → LoopWorld F → Prop} (hm : Accountable I handoff m) (hw : I w)
    (hk : ∀ a t, I t → wp (k a) R (fun raised w => I w ∧ Blames handoff raised w) t) :
    wp (m >>= k) R (fun raised w => I w ∧ Blames handoff raised w) w :=
  Upholds.wp_bind hm hw hk fun _ _ ht => ht

theorem Accountable.ask (hI : Aside I) {c : Call} (hc : c.plain = true) :
    Accountable I handoff (Raising.ask env c) := by
  have hdispatch := Call.plain.ne_dispatch hc
  refine fun w hw => wp_ask_of (fun a => hI.event w ⟨c, .ok a⟩ hdispatch hw) fun e =>
    ⟨hI.event w ⟨c, .error e⟩ hdispatch hw, fun _ => .inr ⟨⟨c, .error e⟩, by simp, ?_⟩⟩
  cases c with
  | git command => exact nomatch hc
  | _ => rfl

theorem Aside.silent (hI : Aside I) (w : LoopWorld F) (ev : Event Call (Answer F) Exc)
    (hev : ev.call.telling = false) (h : I w) : I { w with events := w.events ++ [ev] } := by
  refine hI.event w ev (fun hd => ?_) h
  rw [hd] at hev
  exact nomatch hev

theorem Accountable.git (hI : Aside I) {p : GitProgram Exc α}
    (hp : Raises (fun e => e.isInstance .candidateRunFailedError = false) p.run) :
    Accountable I handoff (runGitProgram env p) := by
  intro w hw
  refine ((wp_runGitProgram hI.silent hw Interleaving.Program.meets_trivial).and
    (wp_runGitProgram_raises hp w)).mono (fun _ t ht => ?_) fun raised t ht => ?_
  · exact hI.vars { t with vars := w.vars } t.vars ht.1.1
  · refine ⟨hI.vars { t with vars := w.vars } t.vars ht.1.1, fun he => .inr ?_⟩
    rcases ht.2 with hown | ⟨command, answer, hmem, hraises⟩
    · exact absurd (hown.symm.trans he) Bool.false_ne_true
    · exact ⟨_, hmem, hraises⟩

theorem Accountable.attempt (hm : Accountable I handoff m) :
    Accountable I handoff (Raising.attempt m : Loop F _) := by
  intro w hw
  rw [wp_attempt]
  exact (hm w hw).mono (fun _ _ ht => ht) fun _ _ ht => ht.1

/-! ### The steps of a pass -/

theorem resolveDerivedFrom_accountable : Accountable I handoff (resolveDerivedFrom cfg) := by
  unfold resolveDerivedFrom
  split
  · exact .pure
  · exact .pure
  · exact .raise rfl

theorem runCandidate_accountable (hI : Aside I) :
    Accountable I handoff (runCandidate env cfg handoff) := by
  unfold runCandidate
  refine (Accountable.ask hI rfl).bind fun _ => (Accountable.ask hI rfl).bind
    fun _ => (Accountable.ask hI rfl).bind fun _ => (Accountable.ask hI rfl).bind
    fun _ => resolveDerivedFrom_accountable.bind fun _ => (Accountable.ask hI rfl).bind
    fun run => ?_
  exact .ite .pure fun w hw => ⟨hw, fun _ => .inl rfl⟩

theorem scoreCandidate_accountable (hI : Aside I) (runResult : CandidateRunResult) (n : Nat) :
    Accountable I handoff (scoreCandidate env cfg handoff runResult n) := by
  have hask : ∀ {c : Call}, c.plain = true → Accountable I handoff (Raising.ask env c) :=
    Accountable.ask hI
  have hattest : ∀ fitness : F, Accountable I handoff (do
      Raising.ask env (.verifyMetricsProvenance runResult.runId)
      Raising.ask env (.writeMetricsProvenance runResult.runId)
      Raising.ask env (.buildSanctionedEnvelope n)
      Pure.pure fitness) := fun fitness =>
    (hask rfl).bind fun _ => (hask rfl).bind fun _ => (hask rfl).bind fun _ => .pure
  have hscore : Accountable I handoff (do
      if cfg.outputPaths = [] then
        Raising.raise
          (.valueError "output_paths must be non-empty to score a candidate's raw artifacts")
      let fitness ← Raising.ask env (.guardedEvaluate cfg.outputPaths)
      if runResult.runId = "" then
        Raising.raise (.valueError "run_id must be non-empty to attest metrics provenance")
      Raising.ask env (.verifyMetricsProvenance runResult.runId)
      Raising.ask env (.writeMetricsProvenance runResult.runId)
      Raising.ask env (.buildSanctionedEnvelope n)
      Pure.pure fitness) := by
    refine .ite (.bind (.raise rfl) fun _ => (hask rfl).bind fun fitness => ?_)
      ((hask rfl).bind fun fitness => ?_)
    · exact .ite (.bind (.raise rfl) fun _ => hattest fitness) (hattest fitness)
    · exact .ite (.bind (.raise rfl) fun _ => hattest fitness) (hattest fitness)
  unfold scoreCandidate
  exact .ite ((hask rfl).bind fun _ => hscore) hscore

theorem decideRatchet_accountable (hI : Aside I) (best : Option F)
    (higherIsBetter : Option (Dict String Bool)) (fitness : F) :
    Accountable I handoff (decideRatchet env cfg best higherIsBetter fitness) := by
  unfold decideRatchet
  split
  · split
    · exact .pure
    · exact .raise rfl
  · refine .ite .pure ((Accountable.git hI raises_gitRun).bind fun prior => ?_)
    cases prior with
    | none => exact .pure
    | some commit => exact .raise rfl
  · exact .raise rfl

theorem assessSeedTrialFloor_accountable (counts : SeedTrialCounts) (mode : CampaignMode) :
    Accountable I handoff (assessSeedTrialFloor counts mode : Loop F Bool) := by
  unfold assessSeedTrialFloor
  have hfloor : Accountable I handoff (do
      if counts.trialCount < counts.distinctSeedCount then
        Raising.raise (.of [.seedGateInputError] "distinct_seed_count cannot exceed trial_count")
      let held := minSeeds ≤ counts.distinctSeedCount ∧ minTrials ≤ counts.trialCount
      Pure.pure (!held && mode.gated) : Loop F Bool) :=
    .ite (.bind (.raise rfl) fun _ => .pure) .pure
  exact .ite (.bind (.raise rfl) fun _ => hfloor) hfloor

theorem advanceLineage_accountable (hI : Aside I) (best : Option F)
    (r : OneCandidatePassResult F) : Accountable I handoff (advanceLineage env cfg best r) := by
  unfold advanceLineage
  exact .ite (.git hI (acceptBranch_raises (fun _ => rfl) (fun _ => rfl) (fun _ => rfl)
      (fun _ => rfl) _ _ _)) (.git hI (rejectBranch_raises (fun _ => rfl) _ _))

theorem afterLineage_accountable (hI : Aside I) (r : OneCandidatePassResult F) :
    Accountable I handoff (afterLineage env cfg r) := by
  have hask : ∀ {c : Call}, c.plain = true → Accountable I handoff (Raising.ask env c) :=
    Accountable.ask hI
  have hrest : Accountable I handoff (do
      Raising.ask env (.measureTwoPhaseTiming r.handoff.path)
      Raising.ask env .assertNoCompileTimeRegression
      if cfg.probeRecordDir then
        let _ ← (Raising.attempt (Raising.ask env (.emitProbeRecord r.accepted)) : Loop F _)) :=
    (hask rfl).bind fun _ => (hask rfl).bind fun _ =>
      .ite ((hask rfl).attempt.bind fun _ => .pure) .pure
  unfold afterLineage
  refine .ite (fun w hw => ?_) hrest
  -- what is raised again was raised by the call
  rw [wp_bind, wp_attempt]
  refine wp_ask_of (fun _ => hrest _ (hI.event _ _ nofun hw)) fun e => ?_
  have ht := hI.event w ⟨.admitEvidence r.runResult.runId, .error e⟩ nofun hw
  dsimp only
  rw [wp_ite]
  split
  · exact hrest _ ht
  · exact ⟨ht, fun _ => .inr ⟨_, mem_append_right _ mem_cons_self, rfl⟩⟩

theorem wp_pass_dispatches (best : Option F) (higherIsBetter : Option (Dict String Bool))
    (n : Nat) (w : LoopWorld F) :
    wp (runOneCandidatePass env cfg best higherIsBetter n)
      (fun r => Dispatches w.events (dispatched w.events ++ [.ok r.handoff]))
      (fun raised w' => raised.exc.isInstance .candidateRunFailedError = true →
        ∃ answer, Dispatches w.events (dispatched w.events ++ [answer]) w' ∧
          ((∃ handoff, answer = .ok handoff ∧ raised.exc.handoffPath = handoff.path) ∨
            RaisedBy w'.events raised.exc)) w := by
  have hdispatch : ∀ answer, Dispatches w.events (dispatched w.events ++ [answer])
      { w with events := w.events ++ [⟨.dispatchCandidate, answer⟩] } :=
    fun answer => ⟨dispatched_dispatch answer, fun ev hev => mem_append_left _ hev⟩
  unfold runOneCandidatePass
  rw [wp_ite]
  split
  · intro h
    cases h
  rw [wp_bind]
  refine wp_ask_of (fun handoff => ?_) fun e _ =>
    ⟨_, hdispatch (.error e), .inr ⟨_, mem_append_right _ mem_cons_self, rfl⟩⟩
  let I : LoopWorld F → Prop := Dispatches w.events (dispatched w.events ++ [.ok handoff])
  have hI : Aside I := aside_dispatches
  suffices ∀ t, I t → wp (do
      let ran ← runCandidate env cfg handoff
      let fitness ← scoreCandidate env cfg handoff ran.2 n
      let decision ← decideRatchet env cfg best higherIsBetter fitness
      let pass ← Raising.ask env .statsBattery
      let counts ← Raising.ask env (.seedTrialCounts handoff.contentSha256)
      let seedHardBlocked ← assessSeedTrialFloor counts cfg.campaignMode
      let r : OneCandidatePassResult F :=
        { handoff, derivedFrom := ran.1, runResult := ran.2
          statsHardBlocked := assessStatsBatteryVerdict pass cfg.campaignMode
          seedHardBlocked
          ratchetDecision := decision
          fitnessDict := fitness }
      advanceLineage env cfg best r
      afterLineage env cfg r
      Pure.pure r)
      (fun r w => I w ∧ r.handoff = handoff)
      (fun raised w => I w ∧ Blames handoff raised w) t by
    refine (this _ (hdispatch _)).mono ?_ ?_
    · rintro r t ⟨ht, rfl⟩
      exact ht
    · rintro raised t ⟨ht, hblames⟩ he
      exact ⟨_, ht, (hblames he).imp_left fun h => ⟨handoff, rfl, h⟩⟩
  intro t ht
  refine (runCandidate_accountable hI).step ht fun ran t ht => ?_
  refine (scoreCandidate_accountable hI ran.2 n).step ht fun fitness t ht => ?_
  refine (decideRatchet_accountable hI best higherIsBetter fitness).step ht fun decision t ht => ?_
  refine (Accountable.ask hI rfl).step ht fun pass t ht => ?_
  refine (Accountable.ask hI rfl).step ht fun counts t ht => ?_
  refine (assessSeedTrialFloor_accountable counts _).step ht fun seedHardBlocked t ht => ?_
  refine (advanceLineage_accountable hI best _).step ht fun _ t ht => ?_
  exact (afterLineage_accountable hI _).step ht fun _ t ht => ⟨ht, rfl⟩

/-! ### The loop -/

variable {l : LoopState F} {attempts : List (Attempt F)}

/-- The loop's records are those of the attempts so far. -/
structure Records (attempts : List (Attempt F)) (l : LoopState F) (w : LoopWorld F) : Prop where
  iterations : l.iterations = attempts.filterMap Sum.getLeft?
  failed : l.failedCandidates = attempts.filterMap Sum.getRight?
  consecutive : l.consecutiveFailures = trailingFailures attempts
  accounts : Accounts w.events attempts (dispatched w.events)

theorem aside_records : Aside (Records attempts l) where
  event w ev hev h := by
    refine ⟨h.iterations, h.failed, h.consecutive, ?_⟩
    rw [dispatched_append ev hev]
    exact h.accounts.mono fun ev' hev' => mem_append_left _ hev'
  vars _ _ h := ⟨h.iterations, h.failed, h.consecutive, h.accounts⟩

theorem Aside.ask (hI : Aside I) {c : Call} (hc : c.plain = true) : Keeps I (Raising.ask env c) :=
  fun w hw => wp_ask_of (fun a => hI.event w ⟨c, .ok a⟩ (Call.plain.ne_dispatch hc) hw)
    fun e => hI.event w ⟨c, .error e⟩ (Call.plain.ne_dispatch hc) hw

theorem Aside.git (hI : Aside I) (p : GitProgram Exc α) : Keeps I (runGitProgram env p) := by
  intro w hw
  exact (wp_runGitProgram hI.silent hw Interleaving.Program.meets_trivial).mono
    (fun _ t ht => hI.vars { t with vars := w.vars } t.vars ht.1)
    fun _ t ht => hI.vars { t with vars := w.vars } t.vars ht.1

theorem Records.pass {w' : LoopWorld F} {r : OneCandidatePassResult F} (h : Records attempts l w)
    (hw : Dispatches w.events (dispatched w.events ++ [.ok r.handoff]) w') :
    Records (attempts ++ [.inl r]) (l.recordPass r) w' where
  iterations := by simp [LoopState.recordPass, h.iterations]
  failed := by simp [LoopState.recordPass, h.failed]
  consecutive := by simp [LoopState.recordPass]
  accounts := by
    rw [hw.1]
    exact .completed r (h.accounts.mono hw.2)

theorem Records.failure {w' : LoopWorld F} {e : Exc} {answer : Except Exc CandidateHandoff}
    (h : Records attempts l w) (hindex : l.candidateIndex = attempts.length)
    (hfailed : e.isInstance .candidateRunFailedError = true)
    (hw : Dispatches w.events (dispatched w.events ++ [answer]) w')
    (hof : (∃ handoff, answer = .ok handoff ∧ e.handoffPath = handoff.path) ∨
      RaisedBy w'.events e) :
    Records (attempts ++ [.inr ⟨l.candidateIndex + 1, e.handoffPath, e.exitCode, e.text⟩])
      (l.recordFailure e) w' where
  iterations := by simp [LoopState.recordFailure, h.iterations]
  failed := by simp [LoopState.recordFailure, h.failed]
  consecutive := by simp [LoopState.recordFailure, h.consecutive]
  accounts := by
    rw [hw.1]
    exact .failed _ (h.accounts.mono hw.2) (congrArg (· + 1) hindex)
      (hof.imp_right fun hraised => ⟨e, hraised, hfailed, rfl⟩)

/-- What the records are when an iteration is over. -/
def Continues (cfg : Config F) (next : Continuation F) (w : LoopWorld F) : Prop :=
  ∃ attempts, match next with
    | .next l => Records attempts l w ∧ l.candidateIndex = attempts.length ∧
        trailingFailures attempts < cfg.maxConsecutiveFailures
    | .exit l reason => Records attempts l w ∧ reason = .consecutiveFailures ∧
        cfg.maxConsecutiveFailures ≤ trailingFailures attempts

theorem wp_iteration_records (hmax : 1 ≤ cfg.maxConsecutiveFailures) (h : Records attempts l w)
    (hindex : l.candidateIndex = attempts.length) :
    wp (iteration env cfg l) (Continues cfg) (fun _ _ => True) w := by
  unfold iteration
  rw [wp_bind, wp_attempt]
  refine (wp_pass_dispatches _ _ _ w).mono (fun r t ht => ?_) fun raised t ht => ?_
  · -- a completed pass
    have hrecords := h.pass ht
    dsimp only
    unfold completePass
    rw [wp_bind]
    refine (wp_watchDiversity (fun _ => aside_records.ask rfl)
      (fun _ _ => aside_records.ask rfl) (fun _ => aside_records.ask rfl) hrecords r).mono ?_
      fun _ _ h => h
    rintro _ u ⟨hu, leaps, flags, source, rfl⟩
    refine ⟨_, ⟨hu.iterations, hu.failed, hu.consecutive, hu.accounts⟩, ?_, ?_⟩
    · simp [LoopState.recordPass, hindex]
    · rw [trailingFailures_completed]
      exact hmax
  · dsimp only
    rw [wp_ite]
    split
    · -- a failed run that is skipped
      rename_i hskip
      obtain ⟨answer, hdispatches, hof⟩ := ht hskip.1
      have hrecords := h.failure hindex hskip.1 hdispatches hof
      refine (wp_skipFailedCandidate (aside_records.ask rfl) (resolveDerivedFrom_keeps _)
        (fun best => aside_records.git _) hrecords raised.exc).mono ?_ fun _ _ h => h
      rintro _ u ⟨hu, rfl⟩
      refine ⟨attempts ++ [.inr ⟨l.candidateIndex + 1, raised.exc.handoffPath,
        raised.exc.exitCode, raised.exc.text⟩], ?_⟩
      have hconsecutive := hu.consecutive
      by_cases hhalt : cfg.maxConsecutiveFailures ≤ (l.recordFailure raised.exc).consecutiveFailures
      · rw [afterFailure, if_pos hhalt]
        exact ⟨hu, rfl, hconsecutive ▸ hhalt⟩
      · rw [afterFailure, if_neg hhalt]
        rw [hconsecutive, not_le] at hhalt
        refine ⟨⟨hu.iterations, hu.failed, hu.consecutive, hu.accounts⟩, ?_, hhalt⟩
        simp [LoopState.recordFailure, hindex]
    · exact trivial

/-- What the loop returns is what came of its dispatches, and says why it ended. -/
structure Reported (cfg : Config F) (attempts : List (Attempt F))
    (r : MultiIterationLoopResult F) (w : LoopWorld F) : Prop where
  iterations : r.iterations = attempts.filterMap Sum.getLeft?
  failed : r.failedCandidates = attempts.filterMap Sum.getRight?
  accounts : Accounts w.events attempts (dispatched w.events)
  halted : r.terminationReason = .consecutiveFailures ↔
    cfg.maxConsecutiveFailures ≤ trailingFailures attempts
  allFailed : r.terminationReason = .allCandidatesFailed →
    r.iterations = [] ∧ r.failedCandidates ≠ []
  normal : r.terminationReason = .normalCompletion → r.iterations ≠ [] ∨ r.failedCandidates = []

theorem Records.reported (h : Records attempts l w)
    (htrailing : trailingFailures attempts < cfg.maxConsecutiveFailures)
    {reason : TerminationReason} (hreason : reason ≠ .consecutiveFailures)
    (hall : reason = .allCandidatesFailed → l.iterations = [] ∧ l.failedCandidates ≠ [])
    (hnormal : reason = .normalCompletion → l.iterations ≠ [] ∨ l.failedCandidates = []) :
    Reported cfg attempts (l.result reason) w :=
  ⟨h.iterations, h.failed, h.accounts, iff_of_false hreason (not_le.mpr htrailing), hall, hnormal⟩

theorem wp_candidateLoop_reported (hmax : 1 ≤ cfg.maxConsecutiveFailures) (n : Nat)
    (h : Records attempts l w) (hindex : l.candidateIndex = attempts.length)
    (htrailing : trailingFailures attempts < cfg.maxConsecutiveFailures) :
    wp (candidateLoop env cfg n l) (fun r w => ∃ attempts, Reported cfg attempts r w)
      (fun _ _ => True) w := by
  induction n generalizing attempts l w with
  | zero =>
    unfold candidateLoop
    rw [wp_pure]
    by_cases hall : l.iterations = [] ∧ l.failedCandidates ≠ []
    · rw [if_pos hall]
      exact ⟨attempts, h.reported htrailing nofun (fun _ => hall) nofun⟩
    · rw [if_neg hall]
      refine ⟨attempts, h.reported htrailing nofun nofun fun _ => ?_⟩
      rw [not_and_or, not_not] at hall
      exact hall
  | succ n ih =>
    unfold candidateLoop
    have hbudget : Keeps (Records attempts l) (budgetIsExhausted env cfg l) := by
      unfold budgetIsExhausted
      cases cfg.wallClockBudgetSeconds with
      | none => exact .pure
      | some budget => exact (aside_records.ask rfl).bind fun _ => .pure
    refine hbudget.wp_bind h (fun exhausted t ht => ?_) fun _ _ _ => trivial
    rw [wp_ite]
    split
    · exact ⟨attempts, ht.reported htrailing nofun nofun nofun⟩
    rw [wp_bind]
    refine (wp_iteration_records hmax ht hindex).mono (fun next u hu => ?_) fun _ _ _ => trivial
    obtain ⟨attempts', hu⟩ := hu
    cases next with
    | next l' => exact ih hu.1 hu.2.1 hu.2.2
    | exit l' reason =>
      obtain ⟨hrecords, rfl, hhalt⟩ := hu
      exact ⟨attempts', hrecords.iterations, hrecords.failed, hrecords.accounts,
        iff_of_true rfl hhalt, nofun, nofun⟩

/-- **What the loop returns accounts for every dispatch.** -/
theorem wp_loop_reported (repo : Repository) :
    wp (runMultiIterationLoop env cfg) (fun r w => ∃ attempts, Reported cfg attempts r w)
      (fun _ _ => True) ⟨[], repo⟩ := by
  have hI : Aside fun w : LoopWorld F => Accounts w.events ([] : List (Attempt F))
      (dispatched w.events) := by
    refine ⟨fun w ev hev hw => ?_, fun _ _ hw => hw⟩
    rw [dispatched_append ev hev]
    exact hw.mono fun ev' hev' => mem_append_left _ hev'
  unfold runMultiIterationLoop startLoop
  rw [wp_bind, wp_ite]
  split
  · exact trivial
  rw [wp_ite]
  split
  · exact trivial
  rename_i hmax
  refine (hI.ask rfl).wp_bind .none (fun _ t ht => ?_) fun _ _ _ => trivial
  refine (hI.ask rfl).wp_bind ht (fun start t ht => ?_) fun _ _ _ => trivial
  rw [wp_pure, wp_finally]
  have hstop : ∀ (r : MultiIterationLoopResult F) (attempts : List (Attempt F)),
      Keeps (Reported cfg attempts r) (stopWatchdog env) := by
    intro r attempts
    have hreported : Aside (Reported cfg attempts r) := by
      refine ⟨fun w ev hev h => ?_, fun _ _ h => ⟨h.iterations, h.failed, h.accounts, h.halted,
        h.allFailed, h.normal⟩⟩
      refine ⟨h.iterations, h.failed, ?_, h.halted, h.allFailed, h.normal⟩
      rw [dispatched_append ev hev]
      exact h.accounts.mono fun ev' hev' => mem_append_left _ hev'
    unfold stopWatchdog
    refine ((hreported.ask rfl).attempt).bind fun answer => ?_
    cases answer with
    | ok _ => exact .pure
    | error raised => exact .ite .pure .throw
  refine (wp_candidateLoop_reported (by omega) _ ⟨rfl, rfl, rfl, ht⟩ rfl ?_).mono ?_ ?_
  · show (0 : Int) < _
    omega
  · rintro r u ⟨attempts, hu⟩
    exact (hstop r attempts u hu).mono (fun _ _ h => ⟨attempts, h⟩) fun _ _ _ => trivial
  · intro raised u _
    unfold stopWatchdog wp
    cases (attempt (Raising.ask env .stopWatchdog) >>= _ : Loop F Unit) u <;> trivial

end

end Xtrax.Controller
