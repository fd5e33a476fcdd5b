import Xtrax.MultiIterationLoop

/-!
# A campaign around the loop

`runCampaignLoop` passes the gates, creates a campaign, runs the loop and concludes the campaign
with a label for how the loop ended.  Besides the loop's own collaborators there are the gates,
the campaign adapter, the hook for campaign events, and the text of an exception.

`loopEnd` is which of the phases of the loop raised, and what.  `Course` lists all that may come
of a campaign once it is created, call by call (`course_of_created`).
-/

namespace Xtrax.Controller

open List Git BestSoFar Raising

inductive OutcomeLabel where
  | success
  | partialFailure
  | aborted
  deriving DecidableEq

inductive LoopEventKind where
  | campaignCreated
  | campaignConcluded
  | campaignConcludeFailed
  deriving DecidableEq

structure LoopEvent where
  taskId : String
  kind : LoopEventKind
  campaignId : String
  /-- `none` for the empty label of `campaign_created`. -/
  outcomeLabel : Option OutcomeLabel
  deriving DecidableEq

structure CapabilityProbeResult where
  seedLive : Bool
  statsBatteryLive : Bool
  deriving DecidableEq

structure CampaignConclusion where
  status : String
  campaignId : String
  outcomeLabel : String
  deriving DecidableEq

/-- The steps `run_campaign_loop` leaves to others, besides the loop. -/
inductive CampaignCall where
  | campaignApproval (campaignName : String)
  | capabilityProbe
  | buildClosureManifest
  | evaluatorCompleteness
  | campaignCreate (campaignName : String) (mode : CampaignMode) (question hypothesis : String)
  | loopEvent (event : LoopEvent)
  /-- The class name and the text of an exception. -/
  | describe (e : Exc)
  | campaignConclude (campaignId : String) (outcomeLabel : OutcomeLabel) (conclusion : String)
  deriving DecidableEq

/-- What they answer. -/
@[reducible] def CampaignAnswer : CampaignCall → Type
  | .capabilityProbe => CapabilityProbeResult
  | .campaignCreate _ _ _ _ => String
  | .describe _ => String
  | .campaignConclude _ _ _ => CampaignConclusion
  | _ => Unit

abbrev CampaignEvent := Event CampaignCall CampaignAnswer Exc

/-- The calls made, and the loop's calls and repository. -/
abbrev CampaignWorld (F : Type) := World CampaignCall CampaignAnswer Exc (LoopWorld F)

abbrev CampaignEnv := Environment CampaignCall CampaignAnswer Exc

/-- What leaves a campaign, with the call it came from, the campaign's or the loop's. -/
abbrev CampaignRaised := Raised (CampaignCall ⊕ Call) Exc

abbrev Campaign (F α : Type) := Raising CampaignRaised (CampaignWorld F) α

/-- The arguments of a campaign. -/
structure CampaignConfig (F : Type) where
  taskId : String
  campaignName : String
  campaignQuestion : String
  campaignHypothesis : String
  loop : Config F

structure CampaignLoopResult (F : Type) where
  taskId : String
  campaignId : String
  loopResult : MultiIterationLoopResult F
  conclusion : CampaignConclusion

/-- `_CAUGHT_PER_CANDIDATE_FAILURE_TYPES`. -/
def isCaughtPerCandidateFailure (e : Exc) : Bool :=
  e.isInstance .candidateHandoffFailure || e.isInstance .timeoutError || e.isInstance .valueError

def MultiIterationLoopResult.acceptedCount {F : Type} (r : MultiIterationLoopResult F) : Nat :=
  r.iterations.countP (·.accepted)

def MultiIterationLoopResult.heldCount {F : Type} (r : MultiIterationLoopResult F) : Nat :=
  r.iterations.countP (·.held)

/-- The counts of a conclusion. -/
def MultiIterationLoopResult.counts {F : Type} (r : MultiIterationLoopResult F) : String :=
  toString r.failedCandidates.length ++ " failed total, " ++ toString r.iterations.length ++
    " completed (" ++ toString r.acceptedCount ++ " accepted, " ++ toString r.heldCount ++ " held)"

/-- `outcome_label` and `summary` of a campaign whose loop returned. -/
def MultiIterationLoopResult.outcome {F : Type} (r : MultiIterationLoopResult F)
    (maxConsecutiveFailures : Int) : OutcomeLabel × String :=
  match r.terminationReason with
  | .consecutiveFailures =>
    (.partialFailure, "halted after " ++ toString maxConsecutiveFailures ++
      " consecutive failed candidate run(s) (" ++ r.counts ++
      "), termination_reason=consecutive_failures")
  | .allCandidatesFailed =>
    (.partialFailure, "all " ++ toString r.failedCandidates.length ++
      " candidate run(s) failed, none completed (" ++ r.counts ++
      "), termination_reason=all_candidates_failed")
  | .budgetExhausted =>
    (.success, "completed " ++ toString r.iterations.length ++ " candidate(s) (" ++ r.counts ++
      "), termination_reason=budget_exhausted")
  | .normalCompletion =>
    (.success, "completed " ++ toString r.iterations.length ++ " candidate(s) (" ++ r.counts ++
      "), termination_reason=normal_completion")

/-- The label of a campaign whose loop raised, and the first words of its conclusion. -/
def failureOutcome (e : Exc) : OutcomeLabel × String :=
  if isCaughtPerCandidateFailure e then
    (.partialFailure, "caught per-candidate dispatch failure ")
  else (.aborted, "uncaught exception ")

section

variable {F : Type} (env : CampaignEnv) (loopEnv : LoopEnv F) (cfg : CampaignConfig F)

def call (c : CampaignCall) : Campaign F (CampaignAnswer c) :=
  onPart id (fun w _ => w) (fun r => ⟨r.exc, r.source.map .inl⟩) (ask env c)

/-- The loop, on its own part of the state. -/
def runLoop : Campaign F (MultiIterationLoopResult F) :=
  onPart World.vars (fun s w => { w with vars := s }) (fun r => ⟨r.exc, r.source.map .inr⟩)
    (runMultiIterationLoop loopEnv cfg.loop)

def assertCapabilityLive (probe : CapabilityProbeResult) (mode : CampaignMode) : Campaign F Unit :=
  if mode.gated ∧ ¬(probe.seedLive ∧ probe.statsBatteryLive) then
    raise (.of [.other "CapabilityNotLiveError"] "bathos capability not live")
  else pure ()

/-- The gates, and the creation of the campaign. -/
def openCampaign : Campaign F String := do
  if cfg.loop.maxCandidates < 1 then raise (.valueError "max_candidates must be >= 1")
  call env (.campaignApproval cfg.campaignName)
  let probe ← call env .capabilityProbe
  assertCapabilityLive probe cfg.loop.campaignMode
  call env .buildClosureManifest
  call env .evaluatorCompleteness
  call env (.campaignCreate cfg.campaignName cfg.loop.campaignMode cfg.campaignQuestion
    cfg.campaignHypothesis)

@[reducible] def CampaignConfig.event (campaignId : String) (kind : LoopEventKind)
    (label : Option OutcomeLabel) : CampaignCall :=
  .loopEvent ⟨cfg.taskId, kind, campaignId, label⟩

def concludeBestEffort (campaignId : String) (label : OutcomeLabel) (conclusion : String) :
    Campaign F Unit := do
  match ← attempt (call env (.campaignConclude campaignId label conclusion)) with
  | .error _ => call env (cfg.event campaignId .campaignConcludeFailed (some label))
  | .ok _ => call env (cfg.event campaignId .campaignConcluded (some label))

/-- The two `except` blocks. -/
def concludeRaised (campaignId : String) (raised : CampaignRaised) :
    Campaign F (CampaignLoopResult F) := do
  let text ← call env (.describe raised.exc)
  concludeBestEffort env cfg campaignId (failureOutcome raised.exc).1
    ((failureOutcome raised.exc).2 ++ text)
  throw raised

def concludeReturned (campaignId : String) (r : MultiIterationLoopResult F) :
    Campaign F (CampaignLoopResult F) := do
  let (label, summary) := r.outcome cfg.loop.maxConsecutiveFailures
  let conclusion ← call env (.campaignConclude campaignId label summary)
  call env (cfg.event campaignId .campaignConcluded (some label))
  pure ⟨cfg.taskId, campaignId, r, conclusion⟩

def runCreated (campaignId : String) : Campaign F (CampaignLoopResult F) := do
  call env (cfg.event campaignId .campaignCreated none)
  match ← attempt (runLoop loopEnv cfg) with
  | .error raised => concludeRaised env cfg campaignId raised
  | .ok r => concludeReturned env cfg campaignId r

def runCampaignLoop : Campaign F (CampaignLoopResult F) := do
  let campaignId ← openCampaign env cfg
  runCreated env loopEnv cfg campaignId

end

/-! ### How the loop ends -/

inductive LoopEnd (F : Type) where
  | returned (r : MultiIterationLoopResult F)
  | startRaised (raised : Raised Call Exc)
  | bodyRaised (raised : Raised Call Exc)
  /-- The clean-up raised, after what the guarded part raised, if it did. -/
  | stopRaised (raised : Raised Call Exc) (inFlight : Option (Raised Call Exc))

namespace LoopEnd

variable {F : Type}

/-- What leaves the loop. -/
def result : LoopEnd F → Except (Raised Call Exc) (MultiIterationLoopResult F)
  | returned r => .ok r
  | startRaised raised => .error raised
  | bodyRaised raised => .error raised
  | stopRaised raised _ => .error raised

def raised : LoopEnd F → List (Raised Call Exc)
  | returned _ => []
  | startRaised raised => [raised]
  | bodyRaised raised => [raised]
  | stopRaised raised inFlight => inFlight.toList ++ [raised]

theorem mem_raised {e : LoopEnd F} {r : Raised Call Exc} (h : e.result = .error r) :
    r ∈ e.raised := by
  cases e with
  | returned _ => exact nomatch h
  | startRaised _ =>
    cases h
    exact mem_cons_self
  | bodyRaised _ =>
    cases h
    exact mem_cons_self
  | stopRaised _ _ =>
    cases h
    exact mem_append_right _ mem_cons_self

theorem raised_eq_nil_iff {e : LoopEnd F} : e.raised = [] ↔ ∃ r, e.result = .ok r := by
  have herror : ∀ r : Raised Call Exc, e.result = .error r →
      (e.raised = [] ↔ ∃ r, e.result = .ok r) := by
    intro r hr
    refine ⟨fun h => ?_, ?_⟩
    · have hmem := mem_raised hr
      rw [h] at hmem
      exact nomatch hmem
    · rintro ⟨r', hr'⟩
      exact nomatch hr.symm.trans hr'
  cases e with
  | returned r => exact ⟨fun _ => ⟨r, rfl⟩, fun _ => rfl⟩
  | startRaised r => exact herror r rfl
  | bodyRaised r => exact herror r rfl
  | stopRaised r _ => exact herror r rfl

end LoopEnd

section

variable {F : Type} (env : LoopEnv F) (cfg : Config F)

/-- How the loop ends that begins in `w`. -/
def loopEnd (w : LoopWorld F) : LoopEnd F :=
  match startLoop env cfg w with
  | .error raised _ => .startRaised raised
  | .ok l w =>
    match guardedLoop env cfg l w with
    | .ok r w =>
      match stopWatchdog env w with
      | .ok _ _ => .returned r
      | .error raised _ => .stopRaised raised none
    | .error raised w =>
      match stopWatchdog env w with
      | .ok _ _ => .bodyRaised raised
      | .error raised' _ => .stopRaised raised' (some raised)

variable {env cfg}

theorem wp_runMultiIterationLoop (w : LoopWorld F) :
    wp (runMultiIterationLoop env cfg) (fun r _ => (loopEnd env cfg w).result = .ok r)
      (fun raised _ => (loopEnd env cfg w).result = .error raised) w := by
  unfold runMultiIterationLoop loopEnd
  rw [wp_bind]
  cases hstart : startLoop env cfg w with
  | error raised w =>
    rw [wp_iff_of_error hstart]
    rfl
  | ok l w =>
    rw [wp_iff_of_ok hstart, wp_finally]
    cases hbody : guardedLoop env cfg l w with
    | ok r w =>
      rw [wp_iff_of_ok hbody]
      cases hstop : stopWatchdog env w with
      | ok _ _ =>
        rw [wp_iff_of_ok hstop]
        simp only [hbody, hstop]
        rfl
      | error raised _ =>
        rw [wp_iff_of_error hstop]
        simp only [hbody, hstop]
        rfl
    | error raised w =>
      rw [wp_iff_of_error hbody]
      cases hstop : stopWatchdog env w with
      | ok _ _ =>
        rw [wp_iff_of_ok hstop]
        simp only [hbody, hstop]
        rfl
      | error raised' _ =>
        rw [wp_iff_of_error hstop]
        simp only [hbody, hstop]
        rfl

end

/-! ### The courses of a campaign -/

/-- The calls before and at the creation of the campaign. -/
def CampaignCall.opens : CampaignCall → Bool
  | loopEvent _ => false
  | describe _ => false
  | campaignConclude _ _ _ => false
  | _ => true

/-- `campaign_create` returned. -/
def Created (events : List CampaignEvent) : Prop :=
  ∃ campaignId name mode question hypothesis,
    (⟨.campaignCreate name mode question hypothesis, .ok campaignId⟩ : CampaignEvent) ∈ events

section

variable {F : Type}

def ownRaised (c : CampaignCall) (e : Exc) : CampaignRaised := ⟨e, some (.inl c)⟩

def loopRaised (raised : Raised Call Exc) : CampaignRaised :=
  ⟨raised.exc, raised.source.map .inr⟩

/-- What comes of a call that is the last one: `result`, unless it raises. -/
def afterHook (c : CampaignCall) (answer : Except Exc Unit)
    (result : Except CampaignRaised (CampaignLoopResult F)) :
    Except CampaignRaised (CampaignLoopResult F) :=
  match answer with
  | .ok _ => result
  | .error e => .error (ownRaised c e)

/-- The calls a campaign makes once it is created, and what comes of it, for what leaves the
loop. -/
inductive Course (cfg : CampaignConfig F) (campaignId : String)
    (loop : Except (Raised Call Exc) (MultiIterationLoopResult F)) :
    List CampaignEvent → Except CampaignRaised (CampaignLoopResult F) → Prop
  | createdHookRaised (e : Exc) :
      Course cfg campaignId loop [⟨cfg.event campaignId .campaignCreated none, .error e⟩]
        (.error (ownRaised (cfg.event campaignId .campaignCreated none) e))
  | describeRaised (raised : Raised Call Exc) (e : Exc) :
      loop = .error raised → Course cfg campaignId loop
        [⟨cfg.event campaignId .campaignCreated none, .ok ()⟩, ⟨.describe raised.exc, .error e⟩]
        (.error (ownRaised (.describe raised.exc) e))
  | failed (raised : Raised Call Exc) (text : String) (answer : Except Exc CampaignConclusion)
      (kind : LoopEventKind) (hook : Except Exc Unit) :
      loop = .error raised → Course cfg campaignId loop
        [⟨cfg.event campaignId .campaignCreated none, .ok ()⟩, ⟨.describe raised.exc, .ok text⟩,
          ⟨.campaignConclude campaignId (failureOutcome raised.exc).1
            ((failureOutcome raised.exc).2 ++ text), answer⟩,
          ⟨cfg.event campaignId kind (some (failureOutcome raised.exc).1), hook⟩]
        (afterHook (cfg.event campaignId kind (some (failureOutcome raised.exc).1)) hook
          (.error (loopRaised raised)))
  | concludeRaised (r : MultiIterationLoopResult F) (e : Exc) :
      loop = .ok r → Course cfg campaignId loop
        [⟨cfg.event campaignId .campaignCreated none, .ok ()⟩,
          ⟨.campaignConclude campaignId (r.outcome cfg.loop.maxConsecutiveFailures).1
            (r.outcome cfg.loop.maxConsecutiveFailures).2, .error e⟩]
        (.error (ownRaised (.campaignConclude campaignId
          (r.outcome cfg.loop.maxConsecutiveFailures).1
          (r.outcome cfg.loop.maxConsecutiveFailures).2) e))
  | concluded (r : MultiIterationLoopResult F) (conclusion : CampaignConclusion)
      (hook : Except Exc Unit) :
      loop = .ok r → Course cfg campaignId loop
        [⟨cfg.event campaignId .campaignCreated none, .ok ()⟩,
          ⟨.campaignConclude campaignId (r.outcome cfg.loop.maxConsecutiveFailures).1
            (r.outcome cfg.loop.maxConsecutiveFailures).2, .ok conclusion⟩,
          ⟨cfg.event campaignId .campaignConcluded
            (some (r.outcome cfg.loop.maxConsecutiveFailures).1), hook⟩]
        (afterHook (cfg.event campaignId .campaignConcluded
            (some (r.outcome cfg.loop.maxConsecutiveFailures).1)) hook
          (.ok ⟨cfg.taskId, campaignId, r, conclusion⟩))

variable {env : CampaignEnv} {lenv : LoopEnv F} {cfg : CampaignConfig F} {campaignId : String}
variable {w : CampaignWorld F}

theorem events_two (es : List CampaignEvent) (a b : CampaignEvent) :
    es ++ [a] ++ [b] = es ++ [a, b] :=
  append_assoc es [a] [b]

theorem events_three (es : List CampaignEvent) (a b c : CampaignEvent) :
    es ++ [a] ++ [b] ++ [c] = es ++ [a, b, c] := by
  rw [events_two, append_assoc]
  rfl

theorem events_four (es : List CampaignEvent) (a b c d : CampaignEvent) :
    es ++ [a] ++ [b] ++ [c] ++ [d] = es ++ [a, b, c, d] := by
  rw [events_three, append_assoc]
  rfl

theorem wp_call {c : CampaignCall} {Q : CampaignAnswer c → CampaignWorld F → Prop}
    {E : CampaignRaised → CampaignWorld F → Prop}
    (hok : ∀ a, Q a { w with events := w.events ++ [⟨c, .ok a⟩] })
    (herror : ∀ e, E (ownRaised c e) { w with events := w.events ++ [⟨c, .error e⟩] }) :
    wp (call env c) Q E w := by
  unfold call
  rw [wp_onPart]
  exact wp_ask_of hok herror

/-- **All that may come of a campaign** once it is created. -/
theorem wp_runCreated (w : CampaignWorld F) :
    wp (runCreated env lenv cfg campaignId)
      (fun r w' => ∃ tail, w'.events = w.events ++ tail ∧
        Course cfg campaignId (loopEnd lenv cfg.loop w.vars).result tail (.ok r))
      (fun raised w' => ∃ tail, w'.events = w.events ++ tail ∧
        Course cfg campaignId (loopEnd lenv cfg.loop w.vars).result tail (.error raised)) w := by
  unfold runCreated
  rw [wp_bind]
  refine wp_call (fun _ => ?_) fun e => ⟨_, rfl, .createdHookRaised e⟩
  rw [wp_bind, wp_attempt]
  unfold runLoop
  rw [wp_onPart]
  refine (wp_runMultiIterationLoop w.vars).mono (fun r s hr => ?_) fun raised s hraised => ?_
  · -- the loop returned
    dsimp only
    unfold concludeReturned
    dsimp only
    rw [wp_bind]
    refine wp_call (fun conclusion => ?_) fun e => ⟨_, events_two .., .concludeRaised r e hr⟩
    rw [wp_bind]
    refine wp_call (fun _ => ?_) fun e =>
      ⟨_, events_three .., .concluded r conclusion (.error e) hr⟩
    exact ⟨_, events_three .., .concluded r conclusion (.ok ()) hr⟩
  · -- the loop raised
    dsimp only
    unfold concludeRaised
    rw [wp_bind]
    refine wp_call (fun text => ?_) fun e => ⟨_, events_two .., .describeRaised raised e hraised⟩
    unfold concludeBestEffort
    rw [wp_bind, wp_bind, wp_attempt]
    refine wp_call (fun conclusion => ?_) fun e => ?_
    · refine wp_call (fun _ => ?_) fun e => ?_
      · exact ⟨_, events_four .., .failed raised text (.ok conclusion) _ (.ok ()) hraised⟩
      · exact ⟨_, events_four .., .failed raised text (.ok conclusion) _ (.error e) hraised⟩
    · refine wp_call (fun _ => ?_) fun e' => ?_
      · exact ⟨_, events_four .., .failed raised text (.error e) _ (.ok ()) hraised⟩
      · exact ⟨_, events_four .., .failed raised text (.error e) _ (.error e') hraised⟩

/-- Before the creation, in a campaign whose loop begins in `inner`. -/
def Opening (inner : LoopWorld F) (w : CampaignWorld F) : Prop :=
  w.vars = inner ∧ ∀ ev ∈ w.events, ev.call.opens = true ∧
    ∀ name mode question hypothesis, ev.call ≠ .campaignCreate name mode question hypothesis

theorem Opening.not_created {inner : LoopWorld F} (h : Opening inner w) : ¬ Created w.events := by
  rintro ⟨campaignId, name, mode, question, hypothesis, hmem⟩
  exact (h.2 _ hmem).2 _ _ _ _ rfl

theorem Opening.call {inner : LoopWorld F} {c : CampaignCall} (hopens : c.opens = true)
    (hnot : ∀ name mode question hypothesis, c ≠ .campaignCreate name mode question hypothesis) :
    Keeps (Opening inner) (call env c : Campaign F _) := by
  have hevent : ∀ (w : CampaignWorld F) (answer : Except Exc (CampaignAnswer c)),
      Opening inner w → Opening inner { w with events := w.events ++ [⟨c, answer⟩] } := by
    intro w answer hw
    refine ⟨hw.1, fun ev hev => ?_⟩
    rcases mem_append.mp hev with hev | hev
    · exact hw.2 ev hev
    · obtain rfl := mem_singleton.mp hev
      exact ⟨hopens, hnot⟩
  exact fun w hw => wp_call (fun a => hevent w _ hw) fun e => hevent w _ hw

theorem wp_openCampaign {inner : LoopWorld F} (hw : Opening inner w) :
    wp (openCampaign env cfg) (fun _ w => w.vars = inner ∧ ∀ ev ∈ w.events, ev.call.opens = true)
      (fun _ w => (∀ ev ∈ w.events, ev.call.opens = true) ∧ ¬ Created w.events) w := by
  have hE : ∀ (raised : CampaignRaised) t, Opening inner t →
      (∀ ev ∈ t.events, ev.call.opens = true) ∧ ¬ Created t.events :=
    fun _ _ ht => ⟨fun ev hev => (ht.2 ev hev).1, ht.not_created⟩
  unfold openCampaign
  rw [wp_ite]
  split
  · exact ⟨fun ev hev => (hw.2 ev hev).1, hw.not_created⟩
  refine (Opening.call rfl (by nofun)).wp_bind hw (fun _ t ht => ?_) hE
  refine (Opening.call rfl (by nofun)).wp_bind ht (fun probe t ht => ?_) hE
  have hlive : Keeps (Opening inner)
      (assertCapabilityLive probe cfg.loop.campaignMode : Campaign F Unit) := .ite .throw .pure
  refine hlive.wp_bind ht (fun _ t ht => ?_) hE
  refine (Opening.call rfl (by nofun)).wp_bind ht (fun _ t ht => ?_) hE
  refine (Opening.call rfl (by nofun)).wp_bind ht (fun _ t ht => ?_) hE
  have hopens : ∀ answer : Except Exc String, ∀ ev ∈ t.events ++
      [⟨.campaignCreate cfg.campaignName cfg.loop.campaignMode cfg.campaignQuestion
        cfg.campaignHypothesis, answer⟩], ev.call.opens = true := by
    intro answer ev hev
    rcases mem_append.mp hev with hev | hev
    · exact (ht.2 ev hev).1
    · obtain rfl := mem_singleton.mp hev
      rfl
  refine wp_call (fun campaignId => ⟨ht.1, hopens _⟩) fun e => ⟨hopens _, ?_⟩
  rintro ⟨campaignId, name, mode, question, hypothesis, hmem⟩
  rcases mem_append.mp hmem with hmem | hmem
  · exact (ht.2 _ hmem).2 _ _ _ _ rfl
  · have hanswer := (Event.mk.inj (mem_singleton.mp hmem)).2
    have hcall := (Event.mk.inj (mem_singleton.mp hmem)).1
    cases hcall
    exact nomatch eq_of_heq hanswer

/-- A campaign, from nothing. -/
def campaign (env : CampaignEnv) (lenv : LoopEnv F) (cfg : CampaignConfig F)
    (inner : LoopWorld F) : Except CampaignRaised (CampaignLoopResult F) × CampaignWorld F :=
  outcome (runCampaignLoop env lenv cfg) ⟨[], inner⟩

theorem campaign_cases (env : CampaignEnv) (lenv : LoopEnv F) (cfg : CampaignConfig F)
    (inner : LoopWorld F) :
    ((∀ ev ∈ (campaign env lenv cfg inner).2.events, ev.call.opens = true) ∧
      ¬ Created (campaign env lenv cfg inner).2.events) ∨
    ∃ campaignId opening tail, (campaign env lenv cfg inner).2.events = opening ++ tail ∧
      (∀ ev ∈ opening, ev.call.opens = true) ∧
      Course cfg campaignId (loopEnd lenv cfg.loop inner).result tail
        (campaign env lenv cfg inner).1 := by
  let P (result : Except CampaignRaised (CampaignLoopResult F)) (w : CampaignWorld F) : Prop :=
    ((∀ ev ∈ w.events, ev.call.opens = true) ∧ ¬ Created w.events) ∨
    ∃ campaignId opening tail, w.events = opening ++ tail ∧ (∀ ev ∈ opening, ev.call.opens = true) ∧
      Course cfg campaignId (loopEnd lenv cfg.loop inner).result tail result
  have hwp : wp (runCampaignLoop env lenv cfg) (fun r => P (.ok r)) (fun e => P (.error e))
      ⟨[], inner⟩ := by
    have hopening : Opening inner (⟨[], inner⟩ : CampaignWorld F) :=
      ⟨rfl, fun _ h => absurd h not_mem_nil⟩
    unfold runCampaignLoop
    rw [wp_bind]
    refine (wp_openCampaign hopening).mono ?_ fun e t ht => .inl ht
    rintro campaignId t ⟨hvars, hopens⟩
    refine (wp_runCreated t).mono ?_ ?_
    · rintro r u ⟨tail, hevents, hcourse⟩
      exact .inr ⟨campaignId, t.events, tail, hevents, hopens, by rwa [← hvars]⟩
    · rintro raised u ⟨tail, hevents, hcourse⟩
      exact .inr ⟨campaignId, t.events, tail, hevents, hopens, by rwa [← hvars]⟩
  exact hwp.outcome

theorem course_of_created {inner : LoopWorld F}
    (hcreated : Created (campaign env lenv cfg inner).2.events) :
    ∃ campaignId opening tail, (campaign env lenv cfg inner).2.events = opening ++ tail ∧
      (∀ ev ∈ opening, ev.call.opens = true) ∧
      Course cfg campaignId (loopEnd lenv cfg.loop inner).result tail
        (campaign env lenv cfg inner).1 :=
  (campaign_cases env lenv cfg inner).resolve_left fun h => h.2 hcreated

end

end Xtrax.Controller
