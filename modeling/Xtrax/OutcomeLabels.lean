import Xtrax.Attempts
import Xtrax.CampaignConclusion

/-!
# The label of a campaign

What the label of a campaign should say of the loop is in `ReturnedLabel` and `RaisedLabel`; when
it says so is `labels_true_iff`: unless a clock reading is past the budget when all candidates so
far failed, or one of the three exception types comes from another step than the dispatch, or the
watchdog's `stop()` replaces the dispatch's exception.

These are conditions on the steps of the loop (`PlainSteps`), each in the state it starts in: the
clock readings, with the candidates before them (`turns`), what each turn raised and from which
call (`turnRaises`), and what `stop()` raised.  `plain_iff` brings them to the end of the loop.
-/

namespace Xtrax.Controller

open List Git BestSoFar Raising

variable {F : Type}

/-! ### What the labels should say -/

/-- All that was attempted failed, and something was. -/
def AllFailed (attempts : List (Attempt F)) : Prop :=
  attempts ≠ [] ∧ ∀ a ∈ attempts, a.isRight = true

theorem allFailed_iff {attempts : List (Attempt F)} :
    AllFailed attempts ↔ attempts.filterMap Sum.getLeft? = [] ∧
      attempts.filterMap Sum.getRight? ≠ [] := by
  induction attempts with
  | nil => exact ⟨fun h => absurd rfl h.1, fun h => absurd rfl h.2⟩
  | cons a attempts ih =>
    cases a with
    | inl r => simp [AllFailed]
    | inr f =>
      simp only [AllFailed, filterMap_eq_nil_iff, mem_cons, forall_eq_or_imp,
        Sum.isRight_inr, Sum.getLeft?_inr, filterMap_cons, Sum.getRight?_inr, ne_eq,
        reduceCtorEq, not_false_eq_true, true_and, and_true]
      exact forall₂_congr fun a _ => by cases a <;> simp

/-- The label of a campaign whose loop returned: a success means that some candidate completed or
none failed, a partial failure that too many failed in a row or all did. -/
structure ReturnedLabel (cfg : Config F) (r : MultiIterationLoopResult F)
    (events : List (Event Call (Answer F) Exc)) (label : OutcomeLabel)
    (attempts : List (Attempt F)) : Prop where
  iterations : r.iterations = attempts.filterMap Sum.getLeft?
  failed : r.failedCandidates = attempts.filterMap Sum.getRight?
  accounts : Accounts events attempts (dispatched events)
  success : label = .success → r.iterations ≠ [] ∨ r.failedCandidates = []
  partialFailure : label = .partialFailure ↔
    cfg.maxConsecutiveFailures ≤ trailingFailures attempts ∨ AllFailed attempts
  aborted : label ≠ .aborted

/-- What the guarded part of the loop raised. -/
def LoopEnd.body : LoopEnd F → Option (Raised Call Exc)
  | bodyRaised raised => some raised
  | stopRaised _ inFlight => inFlight
  | _ => none

/-- `dispatch_candidate` itself raised one of its documented exceptions. -/
def DispatchFailed (raised : Raised Call Exc) : Prop :=
  raised.source = some .dispatchCandidate ∧ isCaughtPerCandidateFailure raised.exc = true

/-- The label of a campaign whose loop raised. -/
structure RaisedLabel (e : LoopEnd F) (label : OutcomeLabel) : Prop where
  partialFailure : label = .partialFailure ↔ ∃ raised, e.body = some raised ∧ DispatchFailed raised
  aborted : label = .aborted ↔ ¬ ∃ raised, e.body = some raised ∧ DispatchFailed raised

section

variable (env : CampaignEnv) (lenv : LoopEnv F) (cfg : CampaignConfig F) (repo : Repository)

/-- The label tells the truth about the loop. -/
def TrueLabel (label : OutcomeLabel) : Prop :=
  match outcome (runMultiIterationLoop lenv cfg.loop) ⟨[], repo⟩ with
  | (.ok r, w) => ∃ attempts, ReturnedLabel cfg.loop r w.events label attempts
  | (.error _, _) => RaisedLabel (loopEnd lenv cfg.loop ⟨[], repo⟩) label

/-- Whenever the campaign is concluded, its label tells the truth. -/
def TrueLabels : Prop :=
  ∀ ev ∈ (campaign env lenv cfg ⟨[], repo⟩).2.events, ∀ campaignId label text,
    ev.call = .campaignConclude campaignId label text → TrueLabel lenv cfg repo label

end

/-! ### The steps of the loop -/

section

variable (env : LoopEnv F) (cfg : Config F)

/-- The states in which the loop, with `n` candidates to go, looks at its time budget. -/
def turns : Nat → LoopState F → LoopWorld F → List (LoopState F × LoopWorld F)
  | 0, _, _ => []
  | n + 1, l, w =>
    (l, w) ::
      match budgetIsExhausted env cfg l w with
      | .ok false w =>
        match iteration env cfg l w with
        | .ok (.next l) w => turns n l w
        | _ => []
      | _ => []

/-- The clock reading of a turn is past the budget. -/
def PastBudget (p : LoopState F × LoopWorld F) : Prop :=
  ∃ w, budgetIsExhausted env cfg p.1 p.2 = .ok true w

/-- What a turn raises: the clock, the pass of its candidate, or what follows the pass. -/
def turnRaises (p : LoopState F × LoopWorld F) : Option (Raised Call Exc) :=
  match budgetIsExhausted env cfg p.1 p.2 with
  | .error raised _ => some raised
  | .ok true _ => none
  | .ok false w =>
    match iteration env cfg p.1 w with
    | .error raised _ => some raised
    | .ok _ _ => none

variable (repo : Repository)

/-- The turns of a run that begins in a repository. -/
def loopTurns : List (LoopState F × LoopWorld F) :=
  match startLoop env cfg ⟨[], repo⟩ with
  | .ok l w => turns env cfg cfg.maxCandidates.toNat l w
  | .error _ _ => []

/-- The start of the loop or one of its turns raises. -/
def StepRaises (raised : Raised Call Exc) : Prop :=
  (∃ w, startLoop env cfg ⟨[], repo⟩ = .error raised w) ∨
    ∃ p ∈ loopTurns env cfg repo, turnRaises env cfg p = some raised

/-- The watchdog's `stop()` raises, which is not that it has already stopped. -/
def StopRaises (raised : Raised Call Exc) : Prop :=
  ∃ l w t, startLoop env cfg ⟨[], repo⟩ = .ok l w ∧
    stopWatchdog env (outcome (guardedLoop env cfg l) w).2 = .error raised t

/-- No clock reading is past the budget when every candidate so far has failed, no step but the
dispatch raises one of the three exception types, and `stop()` raises one of them exactly if the
dispatch did. -/
structure PlainSteps : Prop where
  budget : (¬ ∃ raised, StopRaises env cfg repo raised) → ∀ p ∈ loopTurns env cfg repo,
    PastBudget env cfg p → p.1.iterations ≠ [] ∨ p.1.failedCandidates = []
  raised : (¬ ∃ raised, StopRaises env cfg repo raised) → ∀ raised, StepRaises env cfg repo raised →
    isCaughtPerCandidateFailure raised.exc = true → raised.source = some .dispatchCandidate
  stop : ∀ raised, StopRaises env cfg repo raised → (isCaughtPerCandidateFailure raised.exc = true ↔
    ∃ raised, StepRaises env cfg repo raised ∧ DispatchFailed raised)

end

def LoopEnd.Plain : LoopEnd F → Prop
  | returned r => r.terminationReason = .budgetExhausted →
      r.iterations ≠ [] ∨ r.failedCandidates = []
  | startRaised raised => isCaughtPerCandidateFailure raised.exc = false
  | bodyRaised raised => isCaughtPerCandidateFailure raised.exc = true →
      raised.source = some .dispatchCandidate
  | stopRaised raised none => isCaughtPerCandidateFailure raised.exc = false
  | stopRaised raised (some inFlight) =>
      isCaughtPerCandidateFailure raised.exc = true ↔ DispatchFailed inFlight

section

variable {env : LoopEnv F} {cfg : Config F} {l : LoopState F} {w : LoopWorld F} {repo : Repository}

variable (env cfg) in
theorem wp_iteration_exit (l : LoopState F) (w : LoopWorld F) :
    wp (iteration env cfg l)
      (fun next _ => ∀ l' reason, next = .exit l' reason → reason = .consecutiveFailures)
      (fun _ _ => True) w := by
  have hkeeps : ∀ {α : Type} (m : Loop F α), Keeps (fun _ : LoopWorld F => True) m := by
    intro α m w _
    unfold wp
    cases m w <;> trivial
  unfold iteration
  rw [wp_bind, wp_attempt]
  refine (hkeeps _ w trivial).mono (fun r t _ => ?_) fun raised t _ => ?_
  · dsimp only
    unfold completePass
    refine (hkeeps _).wp_bind trivial (fun _ _ _ => ?_) fun _ _ _ => trivial
    exact fun _ _ h => nomatch h
  · dsimp only
    rw [wp_ite]
    split
    · refine (wp_skipFailedCandidate (hkeeps _) (hkeeps _) (fun _ => hkeeps _) trivial _).mono
        (fun next t h l' reason hexit => ?_) fun _ _ _ => trivial
      obtain ⟨-, hnext⟩ := h
      rw [hnext, afterFailure] at hexit
      split at hexit
      · cases hexit
        rfl
      · cases hexit
    · trivial

variable (env cfg) in
/-- The step lemma of `turns`, by induction over the candidates to go. -/
theorem wp_candidateLoop_turns (n : Nat) (l : LoopState F) (w : LoopWorld F) :
    wp (candidateLoop env cfg n l)
      (fun r _ => (∀ p ∈ turns env cfg n l w, turnRaises env cfg p = none) ∧
        ((∀ p ∈ turns env cfg n l w, PastBudget env cfg p →
            p.1.iterations ≠ [] ∨ p.1.failedCandidates = []) ↔ (LoopEnd.returned r).Plain))
      (fun raised _ => (∀ p ∈ turns env cfg n l w, ¬ PastBudget env cfg p) ∧
        ∀ raised', (∃ p ∈ turns env cfg n l w, turnRaises env cfg p = some raised') ↔
          raised' = raised) w := by
  induction n generalizing l w with
  | zero =>
    refine ⟨fun _ hp => absurd hp not_mem_nil, iff_of_true (fun _ hp => absurd hp not_mem_nil) ?_⟩
    intro hreason
    simp only [LoopState.result] at hreason
    split at hreason <;> cases hreason
  | succ n ih =>
    unfold candidateLoop
    rw [wp_bind]
    cases hbudget : budgetIsExhausted env cfg l w with
    | error raised t =>
      rw [wp_iff_of_error hbudget]
      simp [turns, turnRaises, PastBudget, hbudget, eq_comm]
    | ok exhausted t =>
      rw [wp_iff_of_ok hbudget]
      cases exhausted with
      | true =>
        refine ⟨by simp [turns, turnRaises, hbudget], ?_⟩
        simp [turns, PastBudget, hbudget, LoopEnd.Plain, LoopState.result]
      | false =>
        have hreads : ¬ PastBudget env cfg (l, w) := by simp [PastBudget, hbudget]
        simp only [Bool.false_eq_true, if_false]
        rw [wp_bind]
        have hexit := wp_iteration_exit env cfg l t
        cases hiteration : iteration env cfg l t with
        | error raised u =>
          rw [wp_iff_of_error hiteration]
          simp [turns, turnRaises, PastBudget, hbudget, hiteration, eq_comm]
        | ok next u =>
          rw [wp_iff_of_ok hiteration] at hexit ⊢
          have hnone : turnRaises env cfg (l, w) = none := by simp [turnRaises, hbudget, hiteration]
          cases next with
          | exit l' reason =>
            obtain rfl := hexit l' reason rfl
            have hturns : turns env cfg (n + 1) l w = [(l, w)] := by
              simp [turns, hbudget, hiteration]
            rw [hturns]
            refine ⟨by simpa using hnone, iff_of_true ?_ ?_⟩
            · simpa using fun h => absurd h hreads
            · exact fun h => nomatch h
          | next l' =>
            have hturns : turns env cfg (n + 1) l w = (l, w) :: turns env cfg n l' u := by
              simp [turns, hbudget, hiteration]
            rw [hturns]
            refine (ih l' u).mono (fun r _ h => ?_) fun raised _ h => ?_
            · simpa [hnone, hreads] using h
            · simpa [hnone, hreads] using h

variable (env cfg) in
theorem wp_startLoop_source (w : LoopWorld F) :
    wp (startLoop env cfg) (fun _ _ => True)
      (fun raised _ => raised.source ≠ some .dispatchCandidate) w := by
  unfold startLoop
  rw [wp_ite]
  split
  · exact nofun
  rw [wp_ite]
  split
  · exact nofun
  rw [wp_bind]
  refine wp_ask_of (fun _ => ?_) fun e => by simp
  rw [wp_bind]
  exact wp_ask_of (fun _ => trivial) fun e => by simp

theorem stopRaises_iff {t u : LoopWorld F} {raised : Raised Call Exc}
    (hstart : startLoop env cfg ⟨[], repo⟩ = .ok l t)
    (hbody : (outcome (guardedLoop env cfg l) t).2 = u) :
    StopRaises env cfg repo raised ↔ ∃ v, stopWatchdog env u = .error raised v := by
  unfold StopRaises
  rw [hstart]
  constructor
  · rintro ⟨l', t', v, hl, hstop⟩
    cases hl
    exact ⟨v, hbody ▸ hstop⟩
  · rintro ⟨v, hstop⟩
    exact ⟨l, t, v, rfl, hbody.symm ▸ hstop⟩

theorem plainSteps_iff_of_stop {raised : Raised Call Exc}
    (hstops : ∀ r, StopRaises env cfg repo r ↔ r = raised) :
    PlainSteps env cfg repo ↔ (isCaughtPerCandidateFailure raised.exc = true ↔
      ∃ r, StepRaises env cfg repo r ∧ DispatchFailed r) := by
  have hsome : ∃ r, StopRaises env cfg repo r := ⟨raised, (hstops raised).mpr rfl⟩
  refine ⟨fun h => h.stop raised ((hstops raised).mpr rfl), fun h => ?_⟩
  refine ⟨absurd hsome, absurd hsome, fun r hr => ?_⟩
  rwa [(hstops r).mp hr]

theorem plainSteps_iff_of_not_stop (hstops : ¬ ∃ r, StopRaises env cfg repo r) :
    PlainSteps env cfg repo ↔
      (∀ p ∈ loopTurns env cfg repo, PastBudget env cfg p →
        p.1.iterations ≠ [] ∨ p.1.failedCandidates = []) ∧
      ∀ raised, StepRaises env cfg repo raised →
        isCaughtPerCandidateFailure raised.exc = true → raised.source = some .dispatchCandidate :=
  ⟨fun h => ⟨h.budget hstops, h.raised hstops⟩,
    fun h => ⟨fun _ => h.1, fun _ => h.2, fun r hr => absurd ⟨r, hr⟩ hstops⟩⟩

/-- **The end of the loop is plain exactly if its steps are.** -/
theorem plain_iff : (loopEnd env cfg ⟨[], repo⟩).Plain ↔ PlainSteps env cfg repo := by
  cases hstart : startLoop env cfg ⟨[], repo⟩ with
  | error raised t =>
    have hsource := wp_startLoop_source env cfg ⟨[], repo⟩
    rw [wp_iff_of_error hstart] at hsource
    have hstops : ¬ ∃ r, StopRaises env cfg repo r := by simp [StopRaises, hstart]
    have hturns : loopTurns env cfg repo = [] := by rw [loopTurns, hstart]
    have hstep : ∀ r, StepRaises env cfg repo r ↔ r = raised := by
      simp [StepRaises, hturns, hstart, eq_comm]
    rw [show loopEnd env cfg ⟨[], repo⟩ = .startRaised raised by simp only [loopEnd, hstart],
      plainSteps_iff_of_not_stop hstops, hturns]
    simp only [hstep, forall_eq, LoopEnd.Plain, not_mem_nil, false_implies, implies_true, true_and]
    exact ⟨fun h hcaught => absurd hcaught (Bool.eq_false_iff.mp h),
      fun h => Bool.eq_false_iff.mpr fun hcaught => hsource (h hcaught)⟩
  | ok l t =>
    have hturns := wp_candidateLoop_turns env cfg cfg.maxCandidates.toNat l t
    have hloop : loopTurns env cfg repo = turns env cfg cfg.maxCandidates.toNat l t := by
      rw [loopTurns, hstart]
    have hstep : ∀ r, StepRaises env cfg repo r ↔
        ∃ p ∈ turns env cfg cfg.maxCandidates.toNat l t, turnRaises env cfg p = some r := by
      simp [StepRaises, hloop, hstart]
    cases hbody : guardedLoop env cfg l t with
    | ok r u =>
      obtain ⟨hnone, hbudget⟩ := (wp_iff_of_ok hbody).mp hturns
      have hquiet : ∀ r, ¬ StepRaises env cfg repo r := by
        intro r hr
        obtain ⟨p, hp, hraises⟩ := (hstep r).mp hr
        exact nomatch (hnone p hp).symm.trans hraises
      have hend : (outcome (guardedLoop env cfg l) t).2 = u := by rw [outcome, hbody]
      cases hstop : stopWatchdog env u with
      | ok _ v =>
        have hstops : ¬ ∃ r, StopRaises env cfg repo r := by
          simp [stopRaises_iff hstart hend, hstop]
        rw [show loopEnd env cfg ⟨[], repo⟩ = .returned r by
            simp only [loopEnd, hstart, hbody, hstop],
          plainSteps_iff_of_not_stop hstops, hloop, hbudget]
        exact (and_iff_left fun r hr => absurd hr (hquiet r)).symm
      | error raised v =>
        have hstops : ∀ r, StopRaises env cfg repo r ↔ r = raised := by
          simp [stopRaises_iff hstart hend, hstop, eq_comm]
        have hno : ¬ ∃ r, StepRaises env cfg repo r ∧ DispatchFailed r := fun ⟨r, hr, _⟩ => hquiet r hr
        rw [show loopEnd env cfg ⟨[], repo⟩ = .stopRaised raised none by
            simp only [loopEnd, hstart, hbody, hstop],
          plainSteps_iff_of_stop hstops]
        exact Bool.eq_false_iff.trans (iff_false_right hno).symm
    | error inFlight u =>
      obtain ⟨hnone, hraises⟩ := (wp_iff_of_error hbody).mp hturns
      have honly : ∀ r, StepRaises env cfg repo r ↔ r = inFlight := fun r =>
        (hstep r).trans (hraises r)
      have hend : (outcome (guardedLoop env cfg l) t).2 = u := by rw [outcome, hbody]
      cases hstop : stopWatchdog env u with
      | ok _ v =>
        have hstops : ¬ ∃ r, StopRaises env cfg repo r := by
          simp [stopRaises_iff hstart hend, hstop]
        rw [show loopEnd env cfg ⟨[], repo⟩ = .bodyRaised inFlight by
            simp only [loopEnd, hstart, hbody, hstop],
          plainSteps_iff_of_not_stop hstops, hloop]
        simp only [honly, forall_eq]
        exact (and_iff_right fun p hp hpast => absurd hpast (hnone p hp)).symm
      | error raised v =>
        have hstops : ∀ r, StopRaises env cfg repo r ↔ r = raised := by
          simp [stopRaises_iff hstart hend, hstop, eq_comm]
        rw [show loopEnd env cfg ⟨[], repo⟩ = .stopRaised raised (some inFlight) by
            simp only [loopEnd, hstart, hbody, hstop],
          plainSteps_iff_of_stop hstops]
        simp only [honly, exists_eq_left]
        exact Iff.rfl

end

/-! ### When they do -/

section

variable {env : CampaignEnv} {lenv : LoopEnv F} {cfg : CampaignConfig F} {repo : Repository}

theorem loopEnd_result (lenv : LoopEnv F) (cfg : Config F) (w : LoopWorld F) :
    (loopEnd lenv cfg w).result = (outcome (runMultiIterationLoop lenv cfg) w).1 :=
  (wp_runMultiIterationLoop w).outcome (P := fun result _ => (loopEnd lenv cfg w).result = result)

theorem returnedLabel_iff {cfg : Config F} {r : MultiIterationLoopResult F} {w : LoopWorld F}
    {attempts : List (Attempt F)} (h : Reported cfg attempts r w) :
    (∃ attempts, ReturnedLabel cfg r w.events (r.outcome cfg.maxConsecutiveFailures).1 attempts) ↔
      (LoopEnd.returned r).Plain := by
  have hfailed : AllFailed attempts ↔ r.iterations = [] ∧ r.failedCandidates ≠ [] := by
    rw [allFailed_iff, ← h.iterations, ← h.failed]
  constructor
  · rintro ⟨attempts', hlabel⟩ hbudget
    refine hlabel.success ?_
    rw [MultiIterationLoopResult.outcome, hbudget]
  · intro hplain
    refine ⟨attempts, h.iterations, h.failed, h.accounts, fun hsuccess => ?_, ?_, ?_⟩
    · cases hreason : r.terminationReason with
      | normalCompletion => exact h.normal hreason
      | budgetExhausted => exact hplain hreason
      | consecutiveFailures =>
        rw [MultiIterationLoopResult.outcome, hreason] at hsuccess
        exact nomatch hsuccess
      | allCandidatesFailed =>
        rw [MultiIterationLoopResult.outcome, hreason] at hsuccess
        exact nomatch hsuccess
    · rw [hfailed, ← h.halted]
      cases hreason : r.terminationReason with
      | consecutiveFailures =>
        exact iff_of_true (by rw [MultiIterationLoopResult.outcome, hreason]) (.inl rfl)
      | allCandidatesFailed =>
        exact iff_of_true (by rw [MultiIterationLoopResult.outcome, hreason])
          (.inr (h.allFailed hreason))
      | normalCompletion =>
        refine iff_of_false (by rw [MultiIterationLoopResult.outcome, hreason]; nofun) ?_
        rintro (hhalt | hall)
        · exact nomatch hhalt
        · exact (h.normal hreason).elim (fun hne => hne hall.1) hall.2
      | budgetExhausted =>
        refine iff_of_false (by rw [MultiIterationLoopResult.outcome, hreason]; nofun) ?_
        rintro (hhalt | hall)
        · exact nomatch hhalt
        · exact (hplain hreason).elim (fun hne => hne hall.1) hall.2
    · unfold MultiIterationLoopResult.outcome
      cases r.terminationReason <;> nofun

theorem failureOutcome_cases (e : Exc) :
    (isCaughtPerCandidateFailure e = true ∧ (failureOutcome e).1 = .partialFailure) ∨
      (isCaughtPerCandidateFailure e = false ∧ (failureOutcome e).1 = .aborted) := by
  unfold failureOutcome
  cases isCaughtPerCandidateFailure e
  · exact .inr ⟨rfl, rfl⟩
  · exact .inl ⟨rfl, rfl⟩

/-- A label by the exception's types is true exactly if they tell whether the dispatch failed. -/
theorem raisedLabel_iff {e : LoopEnd F} {exc : Exc} :
    RaisedLabel e (failureOutcome exc).1 ↔
      (isCaughtPerCandidateFailure exc = true ↔
        ∃ raised, e.body = some raised ∧ DispatchFailed raised) := by
  rcases failureOutcome_cases exc with ⟨hcaught, hlabel⟩ | ⟨hcaught, hlabel⟩
  · rw [hlabel, hcaught]
    refine ⟨fun h => iff_of_true rfl (h.partialFailure.mp rfl), fun h => ⟨?_, ?_⟩⟩
    · exact iff_of_true rfl (h.mp rfl)
    · exact iff_of_false nofun (not_not.mpr (h.mp rfl))
  · rw [hlabel, hcaught]
    refine ⟨fun h => iff_of_false nofun (h.aborted.mp rfl), fun h => ?_⟩
    have hnot : ¬ ∃ raised, e.body = some raised ∧ DispatchFailed raised := fun hd =>
      Bool.false_ne_true (h.mpr hd)
    exact ⟨iff_of_false nofun hnot, iff_of_true rfl hnot⟩

theorem raised_plain_iff {e : LoopEnd F} {raised : Raised Call Exc} (h : e.result = .error raised) :
    (isCaughtPerCandidateFailure raised.exc = true ↔
        ∃ raised, e.body = some raised ∧ DispatchFailed raised) ↔ e.Plain := by
  cases e with
  | returned r => exact nomatch h
  | startRaised r =>
    cases h
    have hnot : ¬ ∃ r', (LoopEnd.startRaised raised : LoopEnd F).body = some r' ∧
        DispatchFailed r' := fun ⟨_, hbody, _⟩ => nomatch hbody
    exact ⟨fun h => Bool.eq_false_iff.mpr fun hc => hnot (h.mp hc),
      fun h => iff_of_false (Bool.eq_false_iff.mp h) hnot⟩
  | bodyRaised r =>
    cases h
    constructor
    · intro h hcaught
      obtain ⟨r', hbody, hdispatch⟩ := h.mp hcaught
      cases hbody
      exact hdispatch.1
    · refine fun h => ⟨fun hcaught => ⟨raised, rfl, h hcaught, hcaught⟩, ?_⟩
      rintro ⟨r', hbody, hdispatch⟩
      cases hbody
      exact hdispatch.2
  | stopRaised r inFlight =>
    cases h
    cases inFlight with
    | none =>
      have hnot : ¬ ∃ r', (LoopEnd.stopRaised raised none : LoopEnd F).body = some r' ∧
          DispatchFailed r' := fun ⟨_, hbody, _⟩ => nomatch hbody
      exact ⟨fun h => Bool.eq_false_iff.mpr fun hc => hnot (h.mp hc),
        fun h => iff_of_false (Bool.eq_false_iff.mp h) hnot⟩
    | some inFlight =>
      have hbody : (∃ r', (LoopEnd.stopRaised raised (some inFlight) : LoopEnd F).body = some r' ∧
          DispatchFailed r') ↔ DispatchFailed inFlight :=
        ⟨fun ⟨_, hbody, hd⟩ => Option.some.inj hbody ▸ hd, fun hd => ⟨inFlight, rfl, hd⟩⟩
      rw [hbody]
      exact Iff.rfl

/-- The campaign was concluded. -/
def Concluded (events : List CampaignEvent) : Prop :=
  ∃ ev ∈ events, ∃ campaignId label text, ev.call = .campaignConclude campaignId label text

/-- The label a campaign is concluded with, for what leaves its loop. -/
def labelOf (cfg : Config F) :
    Except (Raised Call Exc) (MultiIterationLoopResult F) → OutcomeLabel
  | .ok r => (r.outcome cfg.maxConsecutiveFailures).1
  | .error raised => (failureOutcome raised.exc).1

theorem Course.label {campaignId : String} {tail : List CampaignEvent}
    {loop : Except (Raised Call Exc) (MultiIterationLoopResult F)}
    {result : Except CampaignRaised (CampaignLoopResult F)}
    (h : Course cfg campaignId loop tail result) {ev : CampaignEvent} (hev : ev ∈ tail)
    {id text : String} {label : OutcomeLabel} (hcall : ev.call = .campaignConclude id label text) :
    label = labelOf cfg.loop loop := by
  cases h with
  | createdHookRaised e =>
    obtain rfl := mem_singleton.mp hev
    exact nomatch hcall
  | describeRaised raised e hloop =>
    rcases mem_cons.mp hev with rfl | hev
    · exact nomatch hcall
    · obtain rfl := mem_singleton.mp hev
      exact nomatch hcall
  | failed raised text' answer kind hook hloop =>
    subst hloop
    simp only [mem_cons, not_mem_nil, or_false] at hev
    rcases hev with rfl | rfl | rfl | rfl
    · exact nomatch hcall
    · exact nomatch hcall
    · cases hcall
      rfl
    · exact nomatch hcall
  | concludeRaised r e hloop =>
    subst hloop
    simp only [mem_cons, not_mem_nil, or_false] at hev
    rcases hev with rfl | rfl
    · exact nomatch hcall
    · cases hcall
      rfl
  | concluded r conclusion hook hloop =>
    subst hloop
    simp only [mem_cons, not_mem_nil, or_false] at hev
    rcases hev with rfl | rfl | rfl
    · exact nomatch hcall
    · cases hcall
      rfl
    · exact nomatch hcall

theorem label_of_campaign {inner : LoopWorld F} {ev : CampaignEvent}
    (hev : ev ∈ (campaign env lenv cfg inner).2.events) {id text : String} {label : OutcomeLabel}
    (hcall : ev.call = .campaignConclude id label text) :
    label = labelOf cfg.loop (loopEnd lenv cfg.loop inner).result := by
  rcases campaign_cases env lenv cfg inner with
    ⟨hopens, -⟩ | ⟨campaignId, opening, tail, hevents, hopens, hcourse⟩
  · have hopen := hopens ev hev
    rw [hcall] at hopen
    exact nomatch hopen
  · rw [hevents] at hev
    rcases mem_append.mp hev with hev | hev
    · have hopen := hopens ev hev
      rw [hcall] at hopen
      exact nomatch hopen
    · exact hcourse.label hev hcall

theorem trueLabel_iff :
    TrueLabel lenv cfg repo (labelOf cfg.loop (loopEnd lenv cfg.loop ⟨[], repo⟩).result) ↔
      (loopEnd lenv cfg.loop ⟨[], repo⟩).Plain := by
  have hresult := loopEnd_result lenv cfg.loop ⟨[], repo⟩
  have hreported : ∀ r, (outcome (runMultiIterationLoop lenv cfg.loop) ⟨[], repo⟩).1 = .ok r →
      ∃ attempts, Reported cfg.loop attempts r
        (outcome (runMultiIterationLoop lenv cfg.loop) ⟨[], repo⟩).2 := by
    refine wp.outcome (P := fun result w => ∀ r, result = .ok r →
      ∃ attempts, Reported cfg.loop attempts r w) ?_
    exact (wp_loop_reported repo).mono (fun r w h r' hr => Except.ok.inj hr ▸ h)
      fun _ _ _ r hr => nomatch hr
  unfold TrueLabel
  rcases hout : outcome (runMultiIterationLoop lenv cfg.loop) ⟨[], repo⟩ with ⟨raised | r, w⟩
  · rw [hout] at hresult
    rw [hresult]
    exact Iff.trans raisedLabel_iff (raised_plain_iff hresult)
  · rw [hout] at hresult hreported
    obtain ⟨attempts, h⟩ := hreported r rfl
    cases hend : loopEnd lenv cfg.loop ⟨[], repo⟩ with
    | returned r' =>
      rw [hend] at hresult
      obtain rfl := Except.ok.inj hresult
      exact returnedLabel_iff h
    | startRaised _ =>
      rw [hend] at hresult
      exact nomatch hresult
    | bodyRaised _ =>
      rw [hend] at hresult
      exact nomatch hresult
    | stopRaised _ _ =>
      rw [hend] at hresult
      exact nomatch hresult

theorem plain_of_trueLabels (hconcluded : Concluded (campaign env lenv cfg ⟨[], repo⟩).2.events)
    (h : TrueLabels env lenv cfg repo) : (loopEnd lenv cfg.loop ⟨[], repo⟩).Plain := by
  obtain ⟨ev, hev, campaignId, label, text, hcall⟩ := hconcluded
  have htrue := h ev hev campaignId label text hcall
  rwa [label_of_campaign hev hcall, trueLabel_iff] at htrue

/-- **When the labels tell the truth.** -/
theorem labels_true_iff (hconcluded : Concluded (campaign env lenv cfg ⟨[], repo⟩).2.events) :
    TrueLabels env lenv cfg repo ↔ PlainSteps lenv cfg.loop repo := by
  rw [← plain_iff]
  refine ⟨plain_of_trueLabels hconcluded, fun hplain ev hev campaignId label text hcall => ?_⟩
  rwa [label_of_campaign hev hcall, trueLabel_iff]

end

/-! ### A candidate that cannot be decoded -/

def CampaignCall.concludes : CampaignCall → Bool
  | campaignConclude _ _ _ => true
  | _ => false

theorem concluded_of_any (events : List CampaignEvent)
    (h : events.any (fun ev => ev.call.concludes) = true) : Concluded events := by
  obtain ⟨ev, hev, hconcludes⟩ := any_eq_true.mp h
  refine ⟨ev, hev, ?_⟩
  cases hcall : ev.call with
  | campaignConclude campaignId label text => exact ⟨campaignId, label, text, rfl⟩
  | _ =>
    rw [hcall] at hconcludes
    exact nomatch hconcludes

/-- The loop returned, and not for its time budget. -/
def LoopEnd.ranOut : LoopEnd F → Bool
  | returned r => r.terminationReason != .budgetExhausted
  | _ => false

theorem plainSteps_of_ranOut {lenv : LoopEnv F} {cfg : Config F} {repo : Repository}
    (h : (loopEnd lenv cfg ⟨[], repo⟩).ranOut = true) : PlainSteps lenv cfg repo := by
  refine plain_iff.mp ?_
  cases hend : loopEnd lenv cfg ⟨[], repo⟩ with
  | returned r =>
    rw [hend] at h
    exact fun hreason => absurd hreason (bne_iff_ne.mp h)
  | _ =>
    rw [hend] at h
    exact nomatch h

theorem completed_run :
    (campaign (hooks (.ok ())) (collaborators (.ok ())) explorationCampaign
      ⟨[], bareRepository⟩).2.events.any (fun ev => ev.call.concludes) = true ∧
    (loopEnd (collaborators (.ok ())) explorationCampaign.loop
      ⟨[], bareRepository⟩).ranOut = true := by
  decide +kernel

theorem labels_true_iff_completed :
    Concluded (campaign (hooks (.ok ())) (collaborators (.ok ())) explorationCampaign
      ⟨[], bareRepository⟩).2.events ∧
    TrueLabels (hooks (.ok ())) (collaborators (.ok ())) explorationCampaign bareRepository := by
  obtain ⟨hconcludes, hran⟩ := completed_run
  have hconcluded := concluded_of_any _ hconcludes
  refine ⟨hconcluded, ?_⟩
  rw [labels_true_iff hconcluded]
  exact plainSteps_of_ranOut hran

/-- The guarded part raised one of the three types, but not in the dispatch. -/
def LoopEnd.strayFailure : LoopEnd F → Bool
  | bodyRaised raised => isCaughtPerCandidateFailure raised.exc &&
      raised.source != some .dispatchCandidate
  | _ => false

theorem LoopEnd.not_plain {e : LoopEnd F} (h : e.strayFailure = true) : ¬ e.Plain := by
  cases e with
  | bodyRaised raised =>
    obtain ⟨hcaught, hstray⟩ := Bool.and_eq_true_iff.mp h
    exact fun hplain => bne_iff_ne.mp hstray (hplain hcaught)
  | _ => exact nomatch h

theorem not_trueLabels_of_stray {env : CampaignEnv} {lenv : LoopEnv F} {cfg : CampaignConfig F}
    {repo : Repository} (hconcluded : Concluded (campaign env lenv cfg ⟨[], repo⟩).2.events)
    (hstray : (loopEnd lenv cfg.loop ⟨[], repo⟩).strayFailure = true) :
    ¬ TrueLabels env lenv cfg repo :=
  fun h => LoopEnd.not_plain hstray (plain_of_trueLabels hconcluded h)

/-- The source of the candidate is no UTF-8, which is a `ValueError` when it is read. -/
def undecodable : LoopEnv ℕ := fun events call =>
  if call = .readSource "c.py" then
    .error (.of [.other "UnicodeDecodeError", .valueError] "invalid start byte")
  else collaborators (.ok ()) events call

theorem undecodable_run :
    (campaign (hooks (.ok ())) undecodable explorationCampaign ⟨[], bareRepository⟩).2.events.any
      (fun ev => ev.call.concludes) = true ∧
    (loopEnd undecodable exploration ⟨[], bareRepository⟩).strayFailure = true := by
  decide +kernel

/-- The campaign is concluded as a partial failure of the dispatch, which did not fail. -/
theorem undecodable_mislabelled :
    Concluded (campaign (hooks (.ok ())) undecodable explorationCampaign
      ⟨[], bareRepository⟩).2.events ∧
    ¬ TrueLabels (hooks (.ok ())) undecodable explorationCampaign bareRepository :=
  have hconcluded := concluded_of_any _ (And.left undecodable_run)
  ⟨hconcluded, not_trueLabels_of_stray hconcluded (And.right undecodable_run)⟩

end Xtrax.Controller
