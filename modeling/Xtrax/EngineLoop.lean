import Xtrax.Engine

/-!
# What holds while a fit runs

The loop of a `fit` is in one of two places: among the batches of an epoch, or outside them.
`LoopRule` says what one call and one change of the variables do to what holds in each place, and
`LoopRule.fitBody` that the whole loop then upholds it.
-/

namespace Xtrax.Engine

open Raising Ledger

variable {K : Kinds} {host : Host K} {cfg : FitConfig K} {α : Type}
  {E : Raised (Call K) Exc → SessionWorld K → Prop} {I : SessionWorld K → Prop}

/-! ### Calls -/

/-- The session after an event. -/
def after (w : SessionWorld K) (ev : EngineEvent K) : SessionWorld K :=
  { w with events := w.events ++ [ev] }

/-- The session after something was raised. -/
def noting (w : SessionWorld K) (r : Raised (Call K) Exc) : SessionWorld K :=
  { w with vars := { w.vars with raised := w.vars.raised ++ [r] } }

theorem wp_call {c : Call K} {Q : c.Answer → SessionWorld K → Prop} {w : SessionWorld K}
    (hok : ∀ a, host.env w.events c = .ok a → Q a (after w ⟨c, .ok a⟩))
    (herror : ∀ e, host.env w.events c = .error e → E ⟨e, some c⟩ (noting (after w ⟨c, .error e⟩) ⟨e, some c⟩)) :
    wp (call host c) Q E w := by
  rw [call, wp_bind, wp_attempt, wp_ask]
  cases hc : host.env w.events c with
  | ok a => exact hok a hc
  | error e => exact herror e hc

theorem upholds_call {c : Call K} (hok : ∀ w a, I w → I (after w ⟨c, .ok a⟩))
    (herror : ∀ w e, I w → E ⟨e, some c⟩ (noting (after w ⟨c, .error e⟩) ⟨e, some c⟩)) :
    Upholds I E (call host c) :=
  fun w hw => wp_call (fun a _ => hok w a hw) fun e _ => herror w e hw

theorem upholds_fire {h : Hook K} (hcall : ∀ i, Upholds I E (call host (.hook i h)))
    (callbacks : List Nat) : Upholds I E (fire host h callbacks) := by
  induction callbacks with
  | nil => exact .pure
  | cons i rest ih => exact (hcall i).bind fun _ => ih

theorem wp_vars {k : Session K → Run K (Session K) α} {Q : α → SessionWorld K → Prop}
    {w : SessionWorld K} :
    wp (getVars >>= k) Q E w ↔ wp (k w.vars) Q E w := Iff.rfl

theorem Upholds.vars {k : Session K → Run K (Session K) α} (hk : ∀ v, Upholds I E (k v)) :
    Upholds I E (getVars >>= k) := fun w hw => hk w.vars w hw

/-! ### The rule -/

/-- What is done after a step is done among the batches. -/
def Phase.inBatches : Phase → Bool
  | step => true
  | epoch => false

/-- The calls among the batches of an epoch. -/
def Call.inBatches : Call K → Bool
  | nextBatch | exhausted | captureIr _ _ | step _ _ | stepIndex _ => true
  | hook _ (.stepStart _) => true
  | save phase _ | validate phase _ | metric phase _ _ => phase.inBatches
  | _ => false

/-- The calls of the guarded part of a `fit`. -/
def Call.inFit : Call K → Bool
  | nextBatch | exhausted | captureIr _ _ | step _ _ | stepIndex _ | trainIter => true
  | hook _ (.trainEnd _) => false
  | hook _ _ | save _ _ | validate _ _ | metric _ _ _ => true
  | _ => false

/-- The collaborator raised, or handed over metrics without the one that is watched. -/
def fails : EngineEvent K → Bool
  | ⟨.metric _ _ _, .ok (.missing _)⟩ => true
  | ⟨_, .error _⟩ => true
  | _ => false

theorem fails_error (c : Call K) (e : Exc) : fails ⟨c, .error e⟩ = true := by cases c <;> rfl

/-- The step answered `next`. -/
def stepped (host : Host K) (w : SessionWorld K) (state : K.State) (batch : K.Batch)
    (next : K.State × K.Metrics) : SessionWorld K :=
  { events := w.events ++ [⟨.step state batch, .ok next⟩]
    vars := { w.vars with
      state := next.1
      pending := w.vars.pending ++ host.reports next.1 next.2 } }

/-- The variables differ at most in what says how the loop goes on, and in the ledger, whose entry
is still of a run that did not fail. -/
structure Beside (v v' : Session K) : Prop where
  trace : v'.toTrace = v.toTrace
  pending : v'.pending = v.pending
  ledger : v'.ledger = v.ledger ∨ ∃ refs, v'.ledger = (v.record refs).ledger

theorem beside_record (v : Session K) (refs : List IRRef) : Beside v (v.record refs) := by
  refine ⟨?_, ?_, .inr ⟨refs, rfl⟩⟩
  · unfold Session.record
    split
    · rfl
    · split <;> rfl
  · unfold Session.record
    split
    · rfl
    · split <;> rfl

theorem beside_update (v : Session K) (config : EarlyStopping K) (value : K.Number) :
    Beside v { (v.update config value).1 with
      stopped := (v.update config value).1.stopped || (v.update config value).2 } := by
  unfold Session.update
  split
  · exact ⟨rfl, rfl, .inl rfl⟩
  · split <;> exact ⟨rfl, rfl, .inl rfl⟩

theorem upholds_captureIrFor {state : K.State} {batch : K.Batch}
    (hvars : ∀ w v, Beside w.vars v → I w → I { w with vars := v })
    (hcall : Upholds I E (call host (.captureIr state batch))) :
    Upholds I E (captureIrFor host state batch) := by
  refine Upholds.vars fun v => .ite .pure (.ite ?_ (hcall.bind fun refs => ?_))
  · exact fun w hw => hvars w _ ⟨rfl, rfl, .inl rfl⟩ hw
  · exact fun w hw => hvars w _ (beside_record w.vars refs) hw

/-- What holds among the batches (`I true`) and outside them (`I false`), and what an exception
leaves. -/
structure LoopRule (host : Host K) (I : Bool → SessionWorld K → Prop)
    (E : Raised (Call K) Exc → SessionWorld K → Prop) : Prop where
  vars : ∀ b w v, Beside w.vars v → I b w → I b { w with vars := v }
  answered : ∀ w (c : Call K) a, c.inFit = true → (∀ s b, c ≠ .step s b) → c ≠ .trainIter →
    fails ⟨c, .ok a⟩ = false → I c.inBatches w → I c.inBatches (after w ⟨c, .ok a⟩)
  failed : ∀ w (c : Call K) answer r, c.inFit = true → fails ⟨c, answer⟩ = true →
    I c.inBatches w → E r (noting (after w ⟨c, answer⟩) r)
  start : ∀ w n, I false w → I true (after w ⟨.trainIter, .ok n⟩)
  step : ∀ w state batch next, I true w → I true (stepped host w state batch next)
  drain : ∀ w, I true w → wp (waitAll host) (fun _ => I false) E w

namespace LoopRule

variable {I : Bool → SessionWorld K → Prop} {E : Raised (Call K) Exc → SessionWorld K → Prop}

theorem call (R : LoopRule host I E) {c : Call K} (hfit : c.inFit = true)
    (hstep : ∀ s b, c ≠ .step s b) (hiter : c ≠ .trainIter)
    (hok : ∀ a, fails ⟨c, .ok a⟩ = false) :
    Upholds (I c.inBatches) E (Engine.call host c) :=
  upholds_call (fun w a hw => R.answered w c a hfit hstep hiter (hok a) hw)
    fun w e hw => R.failed w c (.error e) _ hfit (fails_error c e) hw

theorem stepAndSubmit (R : LoopRule host I E) (state : K.State) (batch : K.Batch) :
    Upholds (I true) E (stepAndSubmit host state batch) := by
  intro w hw
  rw [Engine.stepAndSubmit, wp_bind]
  exact wp_call (fun next _ => R.step w state batch next hw)
    fun e _ => R.failed w _ (.error e) _ rfl (fails_error _ e) hw

theorem captureIrFor (R : LoopRule host I E) (state : K.State) (batch : K.Batch) :
    Upholds (I true) E (captureIrFor host state batch) :=
  upholds_captureIrFor (R.vars true)
    (R.call (c := .captureIr state batch) rfl nofun nofun fun _ => rfl)

theorem observe (R : LoopRule host I E) (phase : Phase) (metrics : K.Metrics) :
    Upholds (I phase.inBatches) E (observe host cfg phase metrics) := by
  unfold Engine.observe
  cases cfg.earlyStop with
  | none => exact .pure
  | some config =>
    intro w hw
    rw [wp_bind]
    refine wp_call (fun (looked : Metric K) _ => ?_)
      fun e _ => R.failed w (.metric phase config.metric metrics) (.error e) _ rfl rfl hw
    cases looked with
    | missing names =>
      exact R.failed w (.metric phase config.metric metrics) (.ok (Metric.missing names)) _ rfl rfl hw
    | value value =>
      have hanswered := R.answered w (.metric phase config.metric metrics)
        (Metric.value value) rfl nofun nofun rfl hw
      refine R.vars _ _ _ ?_ hanswered
      exact beside_update _ config value

theorem saveStep (R : LoopRule host I E) (state : K.State) (index : Int) :
    Upholds (I true) E (saveStep host cfg state index) :=
  .ite (R.call (c := .save .step state) rfl nofun nofun fun _ => rfl) .pure

theorem validateStep (R : LoopRule host I E) (state : K.State) (index : Int) :
    Upholds (I true) E (validateStep host cfg state index) := by
  refine .ite ?_ .pure
  exact (R.call (c := .validate .step state) rfl nofun nofun fun _ => rfl).bind
    fun metrics => R.observe .step metrics

theorem runBatch (R : LoopRule host I E) (batch : K.Batch) :
    Upholds (I true) E (runBatch host cfg batch) := by
  refine Upholds.vars fun v => (R.captureIrFor v.state batch).bind fun _ => ?_
  refine (upholds_fire (fun i => ?_) _).bind fun _ => ?_
  · exact R.call (c := .hook i (.stepStart v.state)) rfl nofun nofun fun _ => rfl
  · refine (R.stepAndSubmit v.state batch).bind fun next => ?_
    refine (R.call (c := .stepIndex next.1) rfl nofun nofun fun _ => rfl).bind fun index => ?_
    exact (R.saveStep next.1 index).bind fun _ => (R.validateStep next.1 index).bind fun _ => .pure

theorem runBatches (R : LoopRule host I E) (n : Nat) (last : Option K.Metrics) :
    Upholds (I true) E (runBatches host cfg n last) := by
  induction n generalizing last with
  | zero => exact (R.call (c := .exhausted) rfl nofun nofun fun _ => rfl).bind fun _ => .pure
  | succ n ih =>
    refine (R.call (c := .nextBatch) rfl nofun nofun fun _ => rfl).bind fun batch =>
      (R.runBatch batch).bind fun metrics => Upholds.vars fun v => ?_
    exact .ite .pure (ih _)

theorem validateEpoch (R : LoopRule host I E) (epoch : Nat) (epochMetrics : Option K.Metrics) :
    Upholds (I false) E (validateEpoch host cfg epoch epochMetrics) := by
  refine Upholds.vars fun v => .ite .pure (.ite (.ite ?_ .pure) ?_)
  · exact (R.call (c := .validate .epoch v.state) rfl nofun nofun fun _ => rfl).bind
      fun metrics => R.observe .epoch metrics
  · cases epochMetrics with
    | none => exact .pure
    | some metrics => exact R.observe .epoch metrics

theorem endEpoch (R : LoopRule host I E) (epoch : Nat) (epochMetrics : Option K.Metrics) :
    Upholds (I false) E (endEpoch host cfg epoch epochMetrics) := by
  refine Upholds.vars fun v => (upholds_fire (fun i => ?_) _).bind fun _ => ?_
  · exact R.call (c := .hook i (.epochEnd v.state epoch)) rfl nofun nofun fun _ => rfl
  · refine (R.validateEpoch epoch epochMetrics).bind fun _ => .ite (Upholds.vars fun v => ?_) .pure
    exact R.call (c := .save .epoch v.state) rfl nofun nofun fun _ => rfl

theorem runEpoch (R : LoopRule host I E) (epoch : Nat) :
    Upholds (I false) E (runEpoch host cfg epoch) := by
  refine Upholds.vars fun v => (upholds_fire (fun i => ?_) _).bind fun _ => fun w hw => ?_
  · exact R.call (c := .hook i (.epochStart v.state epoch)) rfl nofun nofun fun _ => rfl
  · rw [wp_bind]
    refine wp_call (fun n _ => ?_) fun e _ => R.failed w .trainIter (.error e) _ rfl rfl hw
    refine (R.runBatches n none).wp_bind (R.start w n hw) (fun last t ht => ?_) fun _ _ he => he
    rw [wp_bind]
    exact (R.drain t ht).mono (fun _ u hu => R.endEpoch epoch last u hu) fun _ _ he => he

theorem runEpochs (R : LoopRule host I E) (epochs : List Nat) :
    Upholds (I false) E (runEpochs host cfg epochs) := by
  induction epochs with
  | nil => exact .pure
  | cons epoch rest ih => exact (R.runEpoch epoch).bind fun _ => Upholds.vars fun v => .ite .pure ih

theorem fitBody (R : LoopRule host I E) (args : FitArguments K) :
    Upholds (I false) E (fitBody host cfg args) := by
  refine (upholds_fire (fun i => ?_) _).bind fun _ =>
    Upholds.bind (.ite (upholds_fire (fun i => ?_) _) .pure) fun _ => R.runEpochs _
  · exact R.call (c := .hook i (.trainStart args.state)) rfl nofun nofun fun _ => rfl
  · exact R.call (c := .hook i (.resume args.state)) rfl nofun nofun fun _ => rfl

end LoopRule

end Xtrax.Engine
