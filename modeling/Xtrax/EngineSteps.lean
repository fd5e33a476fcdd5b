import Xtrax.EngineRow

/-!
# Each step is reported once

The reports of an epoch's steps are queued and made when its batches are through.  What was
reported and what is still queued is what the steps that returned called for (`Balanced`), so
`fit` reports every step exactly if nothing is left in the queue at its end.  Nothing is unless an
exception leaves the batches of an epoch after one of its steps returned, or a report stops the
event loop (`steps_reported_iff`).
-/

namespace Xtrax.Engine

open List Raising Ledger

variable {K : Kinds} {host : Host K} {cfg : FitConfig K} {α : Type} {events : List (EngineEvent K)}
  {rows : List RunLedgerRecord}

/-! ### What should be reported -/

/-- What the steps that returned came to, in order. -/
def returnedSteps (events : List (EngineEvent K)) : List (K.State × K.Metrics) :=
  events.filterMap fun ev => match ev with
    | ⟨.step _ _, .ok next⟩ => some next
    | _ => none

/-- Each callback was told of each step that returned, once and in order. -/
def EachStepReported (host : Host K) (events : List (EngineEvent K)) (t : Trace K) : Prop :=
  ∀ cb ∈ host.fitCallbacks,
    (t.reported.filter (·.callback = cb)).map (fun r => (r.state, r.metrics)) = returnedSteps events

/-- Whether reports of the epoch's steps are `waiting`, and whether any were `dropped`. -/
structure Backlog where
  waiting : Bool := false
  dropped : Bool := false

/-- The reports wait from the first step of an epoch that returns, and are dropped by what fails
among the batches and by a report that stops the event loop. -/
def Backlog.next (b : Backlog) : EngineEvent K → Backlog
  | ⟨.trainIter, _⟩ => { b with waiting := false }
  | ⟨.step _ _, .ok _⟩ => { b with waiting := true }
  | ⟨.stepEnd _ _ _, .error e⟩ => { b with dropped := b.dropped || e.kind = .stopsLoop }
  | ev => { b with dropped := b.dropped || (ev.call.inBatches && fails ev && b.waiting) }

def backlog (events : List (EngineEvent K)) : Backlog := events.foldl Backlog.next {}

theorem backlog_append (events : List (EngineEvent K)) (ev : EngineEvent K) :
    backlog (events ++ [ev]) = (backlog events).next ev := by
  rw [backlog, foldl_append]
  rfl

/-! ### The queue -/

/-- What was reported and what is queued is what the steps called for, and the last report in the
queue is that to the telemetry callback. -/
structure Accounted (host : Host K) (w : SessionWorld K) : Prop where
  reports : w.vars.reported ++ w.vars.pending =
    (returnedSteps w.events).flatMap fun next => host.reports next.1 next.2
  last : ∀ r ∈ w.vars.pending.getLast?, r.callback = .telemetry

/-- Among the batches: reports are queued if a step of the epoch returned. -/
structure Collecting (host : Host K) (w : SessionWorld K) : Prop extends Accounted host w where
  waiting : w.vars.pending ≠ [] ↔ (backlog w.events).waiting = true
  kept : (backlog w.events).dropped = false

/-- Outside them the queue is empty. -/
structure Drained (host : Host K) (w : SessionWorld K) : Prop extends Accounted host w where
  empty : w.vars.pending = []
  kept : (backlog w.events).dropped = false

/-- What is left in the queue was dropped. -/
structure Balanced (host : Host K) (w : SessionWorld K) : Prop extends Accounted host w where
  dropped : w.vars.pending ≠ [] ↔ (backlog w.events).dropped = true

theorem Drained.balanced {w : SessionWorld K} (h : Drained host w) : Balanced host w :=
  ⟨h.toAccounted, iff_of_false (not_not_intro h.empty) (by rw [h.kept]; exact Bool.false_ne_true)⟩

/-- Neither a step nor the start of an epoch, nor a report. -/
def Call.beside : Call K → Bool
  | trainIter | step _ _ | stepEnd _ _ _ => false
  | _ => true

theorem backlog_beside {ev : EngineEvent K} (h : ev.call.beside = true) : backlog (events ++ [ev]) =
      { backlog events with dropped := (backlog events).dropped ||
          (ev.call.inBatches && fails ev && (backlog events).waiting) } := by
  rw [backlog_append]
  obtain ⟨c, answer⟩ := ev
  cases c with
  | trainIter => exact nomatch h
  | step => exact nomatch h
  | stepEnd => exact nomatch h
  | _ => rfl

theorem returnedSteps_beside {ev : EngineEvent K} (h : ev.call.beside = true) :
    returnedSteps (events ++ [ev]) = returnedSteps events := by
  rw [returnedSteps, filterMap_append]
  obtain ⟨c, answer⟩ := ev
  cases c with
  | trainIter => exact nomatch h
  | step => exact nomatch h
  | stepEnd => exact nomatch h
  | _ => exact append_nil _

theorem returnedSteps_step {state : K.State} {batch : K.Batch} {next : K.State × K.Metrics} :
    returnedSteps (events ++ [⟨.step state batch, .ok next⟩]) = returnedSteps events ++ [next] :=
  filterMap_append

section

variable {w : SessionWorld K} {c : Call K}

theorem Accounted.after {ev : EngineEvent K} (h : Accounted host w)
    (hsteps : returnedSteps (w.events ++ [ev]) = returnedSteps w.events) :
    Accounted host (after w ev) :=
  ⟨h.reports.trans (by rw [← hsteps]; rfl), h.last⟩

theorem reports_getLast (host : Host K) (state : K.State) (metrics : K.Metrics) :
    (host.reports state metrics).getLast? = some ⟨.telemetry, state, metrics⟩ := by
  simp [Host.reports, Host.fitCallbacks]

theorem reports_ne_nil (state : K.State) (metrics : K.Metrics) :
    host.reports state metrics ≠ [] := by
  intro h
  have hlast := reports_getLast host state metrics
  rw [h] at hlast
  exact nomatch hlast

theorem Collecting.step {state : K.State} {batch : K.Batch} {next : K.State × K.Metrics}
    (h : Collecting host w) : Collecting host (stepped host w state batch next) := by
  have hbacklog : backlog (w.events ++ [⟨.step state batch, .ok next⟩]) =
      { backlog w.events with waiting := true } := backlog_append _ _
  refine ⟨⟨?_, ?_⟩, iff_of_true ?_ ?_, ?_⟩
  · show w.vars.reported ++ (w.vars.pending ++ host.reports next.1 next.2) =
      (returnedSteps (w.events ++ [⟨.step state batch, .ok next⟩])).flatMap _
    rw [← append_assoc, h.reports, returnedSteps_step, flatMap_append]
    exact congrArg _ (append_nil _).symm
  · intro r hr
    change r ∈ (w.vars.pending ++ host.reports next.1 next.2).getLast? at hr
    rw [getLast?_append, reports_getLast] at hr
    cases hr
    rfl
  · exact fun hnil => reports_ne_nil next.1 next.2 (append_eq_nil_iff.mp hnil).2
  · exact congrArg Backlog.waiting hbacklog
  · exact (congrArg Backlog.dropped hbacklog).trans h.kept

theorem Drained.start (h : Drained host w) (n : Nat) :
    Collecting host (after w ⟨.trainIter, .ok n⟩) := by
  have hbacklog : backlog (w.events ++ [⟨.trainIter, .ok n⟩]) =
      { backlog w.events with waiting := false } := backlog_append _ _
  refine ⟨h.toAccounted.after ?_, iff_of_false (not_not_intro h.empty) ?_, ?_⟩
  · exact filterMap_append.trans (append_nil _)
  · show ¬ (backlog (w.events ++ [⟨.trainIter, .ok n⟩])).waiting = true
    rw [hbacklog]
    exact Bool.false_ne_true
  · exact (congrArg Backlog.dropped hbacklog).trans h.kept

theorem backlog_stepEnd (events : List (EngineEvent K)) (i : Nat) (state : K.State)
    (metrics : K.Metrics) (answer : Except Exc Unit) :
    backlog (events ++ [⟨.stepEnd i state metrics, answer⟩]) = match answer with
      | .ok _ => backlog events
      | .error e => { backlog events with
          dropped := (backlog events).dropped || e.kind = .stopsLoop } := by
  rw [backlog_append]
  cases answer with
  | ok a =>
    show ({ backlog events with dropped := _ } : Backlog) = _
    simp [Call.inBatches]
  | error e => rfl

theorem returnedSteps_stepEnd (events : List (EngineEvent K)) (i : Nat) (state : K.State)
    (metrics : K.Metrics) (answer : Except Exc Unit) :
    returnedSteps (events ++ [⟨.stepEnd i state metrics, answer⟩]) = returnedSteps events :=
  filterMap_append.trans (append_nil _)

/-- The reports are made in turn, unless one stops the event loop; it is never the last. -/
theorem wp_drain (pending : List (StepReport K)) {w : SessionWorld K} (h : Accounted host w)
    (hpending : w.vars.pending = pending) (hkept : (backlog w.events).dropped = false) :
    wp (drain host pending) (fun _ => Drained host) (fun _ => Balanced host) w := by
  induction pending generalizing w with
  | nil => exact ⟨h, hpending, hkept⟩
  | cons report rest ih =>
    have hreported : Accounted host { w with vars := { w.vars with
        pending := rest, reported := w.vars.reported ++ [report] } } := by
      refine ⟨?_, fun r hr => h.last r ?_⟩
      · rw [← h.reports, hpending, append_assoc]
        rfl
      · rw [hpending, getLast?_cons]
        exact congrArg (fun last => some (last.getD report)) hr
    refine wp_bind.mpr (wp_bind.mpr (wp_bind.mpr ?_))
    cases hcb : report.callback with
    | telemetry => exact ih hreported rfl hkept
    | user i =>
      refine wp_bind.mpr (wp_attempt.mpr (wp_ask_of (fun a => ?_) fun e => ?_))
      · refine ih (hreported.after (returnedSteps_stepEnd _ _ _ _ (.ok a))) rfl ?_
        exact (congrArg Backlog.dropped (backlog_stepEnd _ _ _ _ (.ok a))).trans hkept
      · have hafter := hreported.after
          (returnedSteps_stepEnd _ i report.state report.metrics (.error e))
        have hdropped := congrArg Backlog.dropped
          (backlog_stepEnd w.events i report.state report.metrics (.error e))
        by_cases hstops : e.kind = .stopsLoop
        · simp only [if_pos hstops]
          refine ⟨⟨hafter.reports, hafter.last⟩, iff_of_true (fun hrest => ?_) ?_⟩
          · obtain rfl : rest = [] := hrest
            have hlast := h.last report (by rw [hpending]; rfl)
            rw [hcb] at hlast
            exact nomatch hlast
          · refine hdropped.trans ?_
            simp [hstops]
        · simp only [if_neg hstops]
          refine ih hafter rfl (hdropped.trans ?_)
          simp [hkept, hstops]

/-- What holds of the queue among the batches and outside them. -/
def Queued (host : Host K) : Bool → SessionWorld K → Prop
  | true => Collecting host
  | false => Drained host

theorem Queued.accounted {b : Bool} (h : Queued host b w) : Accounted host w := by
  cases b with
  | true => exact Collecting.toAccounted h
  | false => exact Drained.toAccounted h

theorem Queued.keep {b : Bool} {w' : SessionWorld K} (h : Queued host b w)
    (haccounted : Accounted host w') (hpending : w'.vars.pending = w.vars.pending)
    (hbacklog : backlog w'.events = backlog w.events) : Queued host b w' := by
  cases b with
  | true =>
    have hwaiting := Collecting.waiting h
    have hkept := Collecting.kept h
    rw [← hpending, ← hbacklog] at hwaiting
    rw [← hbacklog] at hkept
    exact (⟨haccounted, hwaiting, hkept⟩ : Collecting host w')
  | false =>
    have hkept := Drained.kept h
    rw [← hbacklog] at hkept
    exact (⟨haccounted, hpending.trans (Drained.empty h), hkept⟩ : Drained host w')

theorem Queued.failed {answer : Except Exc c.Answer} {r : Raised (Call K) Exc}
    (h : Queued host c.inBatches w)
    (hsteps : returnedSteps (w.events ++ [⟨c, answer⟩]) = returnedSteps w.events)
    (hdropped : (backlog (w.events ++ [⟨c, answer⟩])).dropped = ((backlog w.events).dropped || (c.inBatches && (backlog w.events).waiting))) :
    Balanced host (noting (after w ⟨c, answer⟩) r) := by
  have haccounted := h.accounted.after hsteps
  refine ⟨⟨haccounted.reports, haccounted.last⟩, ?_⟩
  show w.vars.pending ≠ [] ↔ (backlog (w.events ++ [⟨c, answer⟩])).dropped = true
  rw [hdropped]
  cases hc : c.inBatches with
  | true =>
    rw [hc] at h
    rw [Collecting.kept h, Bool.false_or, Bool.true_and]
    exact Collecting.waiting h
  | false =>
    rw [hc] at h
    exact iff_of_false (not_not_intro (Drained.empty h)) (by rw [Drained.kept h]; exact nofun)

theorem backlog_failed {answer : Except Exc c.Answer} (hfit : c.inFit = true)
    (hfails : fails ⟨c, answer⟩ = true) (events : List (EngineEvent K)) :
    (backlog (events ++ [⟨c, answer⟩])).dropped =
      ((backlog events).dropped || (c.inBatches && (backlog events).waiting)) := by
  cases hbeside : c.beside with
  | true =>
    rw [backlog_beside hbeside, hfails, Bool.and_true]
  | false =>
    rw [backlog_append]
    cases c with
    | trainIter => exact (Bool.or_false _).symm
    | step state batch =>
      cases answer with
      | ok next => exact nomatch hfails
      | error e => rfl
    | stepEnd => exact nomatch hfit
    | _ => exact nomatch hbeside

theorem returnedSteps_failed {answer : Except Exc c.Answer} (hfit : c.inFit = true)
    (hfails : fails ⟨c, answer⟩ = true) (events : List (EngineEvent K)) :
    returnedSteps (events ++ [⟨c, answer⟩]) = returnedSteps events := by
  cases hbeside : c.beside with
  | true => exact returnedSteps_beside hbeside
  | false =>
    refine filterMap_append.trans ?_
    cases c with
    | trainIter => exact append_nil _
    | step state batch =>
      cases answer with
      | ok next => exact nomatch hfails
      | error e => exact append_nil _
    | stepEnd => exact nomatch hfit
    | _ => exact nomatch hbeside

theorem loopRule_queued : LoopRule host (Queued host) fun _ => Balanced host where
  vars b w v hv h := by
    have hreported : v.reported = w.vars.reported := congrArg Trace.reported hv.trace
    refine h.keep ⟨?_, ?_⟩ hv.pending rfl
    · rw [hreported, hv.pending]
      exact h.accounted.reports
    · rw [hv.pending]
      exact h.accounted.last
  answered w c a hfit hstep hiter hfails h := by
    have hbeside : c.beside = true := by
      cases c with
      | trainIter => exact absurd rfl hiter
      | step state batch => exact absurd rfl (hstep state batch)
      | stepEnd => exact nomatch hfit
      | _ => rfl
    refine h.keep (h.accounted.after (returnedSteps_beside hbeside)) rfl ?_
    refine (backlog_beside hbeside).trans ?_
    rw [hfails]
    simp
  failed w c answer r hfit hfails h :=
    h.failed (returnedSteps_failed hfit hfails _) (backlog_failed hfit hfails _)
  start w n h := Drained.start h n
  step w state batch next h := Collecting.step h
  drain w h := wp_drain w.vars.pending (Collecting.toAccounted h) rfl (Collecting.kept h)

/-! ### After the loop -/

theorem Balanced.after (h : Balanced host w) (hbeside : c.beside = true)
    (hbatches : c.inBatches = false) (answer : Except Exc c.Answer) :
    Balanced host (after w ⟨c, answer⟩) := by
  refine ⟨h.toAccounted.after (returnedSteps_beside hbeside), ?_⟩
  show w.vars.pending ≠ [] ↔ (backlog (w.events ++ [⟨c, answer⟩])).dropped = true
  rw [backlog_beside hbeside, hbatches, Bool.false_and, Bool.false_and, Bool.or_false]
  exact h.dropped

theorem Balanced.noting (h : Balanced host w) (r : Raised (Call K) Exc) :
    Balanced host (noting w r) :=
  ⟨⟨h.reports, h.last⟩, h.dropped⟩

theorem keeps_balanced_vars {f : Session K → Session K}
    (hf : ∀ v, (f v).reported = v.reported ∧ (f v).pending = v.pending) :
    Keeps (Balanced host) (setVars f) := by
  intro w h
  have hvars := hf w.vars
  refine ⟨⟨?_, ?_⟩, ?_⟩
  · show (f w.vars).reported ++ (f w.vars).pending = _
    rw [hvars.1, hvars.2]
    exact h.reports
  · show ∀ r ∈ (f w.vars).pending.getLast?, _
    rw [hvars.2]
    exact h.last
  · show (f w.vars).pending ≠ [] ↔ _
    rw [hvars.2]
    exact h.dropped

theorem keeps_balanced_call (hbeside : c.beside = true) (hbatches : c.inBatches = false) :
    Keeps (Balanced host) (call host c) :=
  upholds_call (fun _ a h => h.after hbeside hbatches (.ok a)) fun _ e h =>
    (h.after hbeside hbatches (.error e)).noting _

theorem keeps_balanced_raising (e : Exc) :
    Keeps (Balanced host) (raising e : Run K (Session K) α) :=
  fun _ h => h.noting ⟨e, none⟩

theorem keeps_balanced_close : Keeps (Balanced host) (close host) := by
  refine Upholds.vars fun v => .ite (keeps_balanced_raising _) ?_
  cases v.ledger.buildRecord host.repr host.sorted with
  | error e => exact keeps_balanced_raising e
  | ok row =>
    exact (keeps_balanced_call (c := .appendRow row) rfl rfl).bind fun _ =>
      keeps_balanced_vars fun _ => ⟨rfl, rfl⟩

theorem keeps_balanced_closeIfOpen (inFlight : Option (Raised (Call K) Exc)) :
    Keeps (Balanced host) (closeIfOpen host inFlight) := by
  refine Upholds.vars fun v => .ite .pure (keeps_balanced_close.attempt.bind fun ended => ?_)
  cases ended with
  | ok a => exact .pure
  | error r =>
    refine .ite ?_ .throw
    cases inFlight with
    | none => exact keeps_balanced_raising _
    | some _ => exact .pure

theorem keeps_balanced_finish (owns : Bool) (inFlight : Option (Raised (Call K) Exc)) :
    Keeps (Balanced host) (finish host owns (fitTrainEnd host) inFlight) := by
  refine Keeps.bind (Upholds.vars fun v => ?_) fun _ => .ite (keeps_balanced_closeIfOpen _) .pure
  exact upholds_fire (fun i => keeps_balanced_call (c := .hook i (.trainEnd v.state)) rfl rfl) _

theorem keeps_balanced_markFailed (owns : Bool) (verb : String) (r : Raised (Call K) Exc) :
    Keeps (Balanced host) (markFailed host owns verb r) :=
  .ite ((keeps_balanced_call (c := .format r.exc) rfl rfl).bind fun _ =>
    keeps_balanced_vars fun _ => ⟨rfl, rfl⟩) .pure

theorem wp_fitOpened_balanced (args : FitArguments K) (owns : Bool) (h : Drained host w) :
    wp (fitOpened host cfg args owns) (fun _ => Balanced host) (fun _ => Balanced host) w := by
  refine wp_bind.mpr (wp_bind.mpr (wp_attempt.mpr ?_))
  refine (loopRule_queued.fitBody args w h).mono (fun a t ht => ?_) fun r t ht => ?_
  · exact wp_bind.mpr (keeps_balanced_finish owns none t (Drained.balanced ht))
  · refine Keeps.withCleanup ?_ (keeps_balanced_finish owns (some r)) t ht
    exact (keeps_balanced_markFailed owns "run" r).bind fun _ => .throw

/-! ### What the callbacks are told -/

theorem fitCallbacks_nodup : host.fitCallbacks.Nodup := by
  refine List.Nodup.append ?_ (nodup_singleton _) fun cb hcb htelemetry => ?_
  · exact nodup_range.map fun i j h => Callback.user.inj h
  · obtain ⟨i, -, rfl⟩ := mem_map.mp hcb
    exact nomatch mem_singleton.mp htelemetry

theorem reports_of_callback {cb : Callback} (hcb : cb ∈ host.fitCallbacks) (state : K.State)
    (metrics : K.Metrics) :
    (host.reports state metrics).filter (·.callback = cb) = [⟨cb, state, metrics⟩] := by
  rw [Host.reports, filter_map]
  have hfilter : host.fitCallbacks.filter (fun cb' => decide (cb' = cb)) = [cb] := by
    rw [filter_eq, count_eq_one_of_mem fitCallbacks_nodup hcb]
    rfl
  exact congrArg _ hfilter

theorem reports_of_steps {cb : Callback} (hcb : cb ∈ host.fitCallbacks)
    (steps : List (K.State × K.Metrics)) :
    ((steps.flatMap fun next => host.reports next.1 next.2).filter (·.callback = cb)).map
      (fun r => (r.state, r.metrics)) = steps := by
  induction steps with
  | nil => rfl
  | cons next rest ih =>
    rw [flatMap_cons, filter_append, map_append, reports_of_callback hcb, ih]
    rfl

theorem Balanced.reported_iff (h : Balanced host w) :
    EachStepReported host w.events w.vars.toTrace ↔ (backlog w.events).dropped = false := by
  rw [← Bool.not_eq_true, ← h.dropped, not_not]
  constructor
  · -- the telemetry callback's reports are short by those still queued, and it has the last one
    intro hreported
    by_contra hpending
    obtain ⟨rest, report, hsplit⟩ : ∃ rest report, w.vars.pending = rest ++ [report] :=
      ⟨_, _, (dropLast_append_getLast hpending).symm⟩
    have htelemetry : report.callback = .telemetry :=
      h.last report (by rw [hsplit, getLast?_concat]; rfl)
    have hmem : Callback.telemetry ∈ host.fitCallbacks :=
      mem_append_right _ (mem_singleton_self _)
    have hall := reports_of_steps hmem (returnedSteps w.events)
    rw [← h.reports, filter_append, map_append, hreported _ hmem, hsplit,
      filter_append, append_right_eq_self, map_eq_nil_iff] at hall
    have hnone := filter_eq_nil_iff.mp (append_eq_nil_iff.mp hall).2 report (mem_singleton_self _)
    exact hnone (decide_eq_true htelemetry)
  · intro hnil cb hcb
    have hreports := h.reports
    rw [hnil, append_nil] at hreports
    rw [hreports]
    exact reports_of_steps hcb _

end

/-- The end of a `fit` over a ledger with these rows. -/
def finished (host : Host K) (args : FitArguments K) (rows : List RunLedgerRecord) :
    Except (Raised (Call K) Exc) K.State × World (Call K) Call.Answer Exc (Trace K) :=
  outcome (fit host args) ⟨[], { rows := rows }⟩

/-- What is settled of a `fit`. -/
def ReportsSettled (host : Host K) (w : World (Call K) Call.Answer Exc (Trace K)) : Prop :=
  EachStepReported host w.events w.vars ↔ (backlog w.events).dropped = false

theorem wp_inSession_settled {args : FitArguments K} {owns : Bool} {ledger : RunLedger}
    (hsteps : returnedSteps events = []) (hkept : (backlog events).dropped = false) :
    wp (inSession ledger args.state (fitOpened host cfg args owns))
      (fun _ => ReportsSettled host) (fun _ => ReportsSettled host) ⟨events, { rows := rows }⟩ := by
  have hstart : Drained host ⟨events, { rows := rows, ledger := ledger, state := args.state }⟩ := by
    refine ⟨⟨?_, fun r hr => nomatch hr⟩, rfl, hkept⟩
    exact (congrArg (flatMap _) hsteps).symm
  exact wp_onPart.mpr ((wp_fitOpened_balanced args owns hstart).mono
    (fun _ _ h => Balanced.reported_iff h) fun _ _ h => Balanced.reported_iff h)

theorem reportsSettled_start (hsteps : returnedSteps events = [])
    (hkept : (backlog events).dropped = false) : ReportsSettled host ⟨events, { rows := rows }⟩ :=
  iff_of_true (fun _ _ => hsteps.symm) hkept

theorem wp_resolveLedger_settled {args : FitArguments K} {kind : String}
    (hsteps : returnedSteps events = []) (hkept : (backlog events).dropped = false) :
    wp (resolveLedger host args.ledger args.runId kind args.context >>= fun opened =>
        inSession opened.1 args.state (fitOpened host cfg args opened.2))
      (fun _ => ReportsSettled host) (fun _ => ReportsSettled host) ⟨events, { rows := rows }⟩ := by
  unfold resolveLedger
  cases args.ledger with
  | some l => exact wp_inSession_settled hsteps hkept
  | none =>
    have hevent : ∀ answer : Except Exc Bool, ∀ i k c,
        returnedSteps (events ++ [⟨.openLedger i k c, answer⟩]) = [] ∧
          (backlog (events ++ [⟨.openLedger i k c, answer⟩])).dropped = false := fun _ _ _ _ => by
      refine ⟨(returnedSteps_beside rfl).trans hsteps, ?_⟩
      rw [backlog_beside rfl]
      exact (Bool.or_false _).trans hkept
    refine wp_bind.mpr (wp_bind.mpr (wp_ask_of (fun optedOut => ?_) fun e => ?_))
    · exact wp_inSession_settled (hevent _ _ _ _).1 (hevent _ _ _ _).2
    · exact reportsSettled_start (hevent _ _ _ _).1 (hevent _ _ _ _).2

/-- **When every step is reported once.** -/
theorem steps_reported_iff (host : Host K) (args : FitArguments K) (rows : List RunLedgerRecord) :
    EachStepReported host (finished host args rows).2.events (finished host args rows).2.vars ↔
      (backlog (finished host args rows).2.events).dropped = false := by
  refine wp.outcome (P := fun _ => ReportsSettled host) ?_
  unfold fit
  cases checkFitArguments args with
  | error e => exact reportsSettled_start rfl rfl
  | ok everyEpochs =>
    refine wp_bind.mpr ?_
    cases hdir : args.hasCheckpointDir with
    | true =>
      refine wp_ask_of (fun saves => ?_) fun e => reportsSettled_start rfl rfl
      exact wp_resolveLedger_settled rfl rfl
    | false => exact wp_resolveLedger_settled rfl rfl

/-! ### An iterator that raises -/

/-- The second batch cannot be read. -/
def brokenIterator : Host counting where
  __ := trainer 2 fun _ => .ok ()
  env events c := match c with
    | .nextBatch =>
      if returnedSteps events = [] then .ok (1 : Nat)
      else .error ⟨"OSError", "truncated shard", .osError⟩
    | c => (trainer 2 fun _ => .ok ()).env events c

/-- The first step is reported to no callback. -/
theorem first_step_unreported :
    ¬ EachStepReported brokenIterator
      (finished brokenIterator { state := (0 : Nat), numEpochs := 1 } []).2.events
      (finished brokenIterator { state := (0 : Nat), numEpochs := 1 } []).2.vars := by
  intro h
  have htelemetry := h .telemetry (List.mem_append_right _ (List.mem_singleton_self _))
  have hlength := congrArg List.length htelemetry
  exact absurd hlength (by decide +kernel)

end Xtrax.Engine
