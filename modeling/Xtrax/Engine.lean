import Xtrax.Ledger
import Xtrax.Raising

/-!
# The training engine

`fit` and `eval` run a trainer over batches, tell their callbacks, and write one row of the run
ledger at the end.  What they call returns or raises as the environment says (`Host`).

The reports of a step to the callbacks are queued as tasks, which run when the epoch's batches
are through.  Each task runs to its end once it starts, so the semaphore of
`BoundedCallbackHandler` never makes one wait, and they run in the order they were queued.

A call that raises a `StopIteration` stands for the `RuntimeError` Python makes of it where it
leaves a coroutine.
-/

namespace Xtrax.Engine

open Raising Ledger

/-- What the engine hands on without looking inside, with the dict without metrics, and Python's
floats. -/
structure Kinds where
  State : Type
  Batch : Type
  Metrics : Type
  noMetrics : Metrics
  Prediction : Type
  Loss : Type
  Number : Type
  zero : Number
  plus : Number → Number → Number
  minus : Number → Number → Number
  less : Number → Number → Bool

/-- `stopsLoop` stands for `KeyboardInterrupt` and `SystemExit`, which asyncio does not keep in
the task that raised them. -/
inductive ExcKind
  | osError | stopsLoop | other
  deriving DecidableEq

structure Exc where
  typeName : String
  message : String
  kind : ExcKind := .other
  deriving DecidableEq

/-! ### Early stopping -/

inductive Mode
  | min | max
  deriving DecidableEq

/-- `EarlyStopping`, with the checks of its `__post_init__`. -/
structure EarlyStopping (K : Kinds) where
  metric : String
  mode : Mode
  patience : Nat
  minDelta : K.Number
  patience_pos : 1 ≤ patience
  minDelta_nonneg : K.less minDelta K.zero = false

def improved {K : Kinds} (config : EarlyStopping K) (best value : K.Number) : Bool :=
  match config.mode with
  | .min => K.less value (K.minus best config.minDelta)
  | .max => K.less (K.plus best config.minDelta) value

/-! ### The ledger of one run -/

/-- `str.isspace` of one character. -/
def isSpace (c : Char) : Bool :=
  let n := c.toNat
  (9 ≤ n && n ≤ 13) || (28 ≤ n && n ≤ 32) || n == 0x85 || n == 0xa0 || n == 0x1680 ||
    (0x2000 ≤ n && n ≤ 0x200a) || n == 0x2028 || n == 0x2029 || n == 0x202f || n == 0x205f ||
    n == 0x3000

/-- `not s.strip()`. -/
def isBlank (s : String) : Bool := s.toList.all isSpace

theorem isBlank_append (s t : String) : isBlank (s ++ t) = (isBlank s && isBlank t) := by
  rw [isBlank, String.toList_append, List.all_append]
  rfl

def statusValue : TelemetryStatus → String
  | .complete => "complete"
  | .degraded => "degraded"
  | .failed => "failed"
  | .optedOut => "opted_out"

def modeValue : IRMode → String
  | .full => "full"
  | .hashOnly => "hash_only"
  | .skipped => "skipped"

def degradedReason (refs : List IRRef) : Option String :=
  match refs.filter fun ref => ref.mode ≠ .full with
  | [] => none
  | ref :: rest => some ("; ".intercalate ((ref :: rest).map fun ref =>
      ref.kind ++ ": " ++ match ref.reason with
        | none | some "" => modeValue ref.mode
        | some reason => reason))

/-- `KIND_TRAIN` and `KIND_EVAL`. -/
def kindTrain : String := "train"
def kindEval : String := "eval"

/-- A key or a value of `context`: a string, or another object with its `repr`. -/
inductive ContextItem
  | str (s : String)
  | other (repr : String)
  deriving DecidableEq

def ContextItem.repr (strRepr : String → String) : ContextItem → String
  | str s => strRepr s
  | other text => text

/-- The strings of an entry of `context`, if both are. -/
def contextPair? : ContextItem × ContextItem → Option (String × String)
  | (.str key, .str value) => some (key, value)
  | _ => none

/-- `RunLedger`: the entry of one run. -/
structure RunLedger where
  runId : String
  kind : String
  context : List (ContextItem × ContextItem)
  status : TelemetryStatus
  statusReason : Option String
  ir : List IRRef := []
  closed : Bool := false

namespace RunLedger

variable (l : RunLedger)

/-- The entry `RunLedger.open` makes. -/
def opened (runId kind : String) (context : List (ContextItem × ContextItem)) (optedOut : Bool) :
    RunLedger where
  runId := runId
  kind := kind
  context := context
  status := if optedOut then .optedOut else .complete
  statusReason := if optedOut then some "XTRAX_TELEMETRY_OPTOUT was set for this run" else none

def isOptedOut : Bool := l.status = .optedOut

def recordIr (refs : List IRRef) : RunLedger := { l with ir := l.ir ++ refs }

/-- `set_status`: only a failure takes the place of an opt-out. -/
def setStatus (status : TelemetryStatus) (reason : Option String) : RunLedger :=
  if l.status = .optedOut ∧ status ≠ .failed then l
  else { l with status := status, statusReason := reason }

def recordError (message : String) : Exc := ⟨"LedgerRecordError", message, .other⟩

/-- The keys of `context` whose entry is not of strings. -/
def badContext : List ContextItem :=
  (l.context.filter fun entry => (contextPair? entry).isNone).map Prod.fst

/-- `build_record`, with the checks of `RunLedgerRecord.__post_init__` that concern an entry
without a parent.  `sorted` may have the text of a `TypeError`. -/
def buildRecord (repr : String → String)
    (sorted : List ContextItem → Except String (List ContextItem)) : Except Exc RunLedgerRecord :=
  if isBlank l.runId then .error (recordError "run_id must be a non-empty string")
  else if l.kind ∉ ["eval", "export", "train"] then
    .error (recordError ("kind must be one of ['eval', 'export', 'train'], got " ++ repr l.kind))
  else if l.status ≠ .complete ∧ isBlank (l.statusReason.getD "") then
    .error (recordError ("telemetry_status=" ++ repr (statusValue l.status) ++
      " requires a status_reason; a non-complete row that does not say why is not auditable"))
  else if l.badContext ≠ [] then
    match sorted l.badContext with
    | .error text => .error ⟨"TypeError", text, .other⟩
    | .ok bad => .error (recordError ("context entries [" ++
        ", ".intercalate (bad.map (·.repr repr)) ++ "] are not str->str -- context carries " ++
        "identity, not measurements; a number stored here could later be mistaken for a citable " ++
        "metric"))
  else .ok {
    runId := l.runId
    kind := l.kind
    telemetryStatus := l.status
    statusReason := l.statusReason
    context := l.context.filterMap contextPair?
    ir := l.ir }

end RunLedger

/-! ### Calls of collaborators -/

/-- The hooks of a callback that run where they are called. -/
inductive Hook (K : Kinds) where
  | trainStart (state : K.State)
  | resume (state : K.State)
  | epochStart (state : K.State) (epoch : Nat)
  | stepStart (state : K.State)
  | epochEnd (state : K.State) (epoch : Nat)
  | trainEnd (state : K.State)

/-- Where in an epoch a check or a checkpoint belongs to. -/
inductive Phase
  | step | epoch
  deriving DecidableEq

/-- Calls of collaborators.  `trainIter` makes the iterator and answers how many batches it has,
`exhausted` is the call of `next` that ends it.  `metric` looks a metric up and takes its float,
`format` is the text of an exception, `appendRow` the write of a row under the ledger's root. -/
inductive Call (K : Kinds) where
  | getCheckpointManager
  | openLedger (runId kind : String) (context : List (ContextItem × ContextItem))
  | hook (callback : Nat) (h : Hook K)
  | trainIter
  | evalIter
  | nextBatch
  | exhausted
  | captureIr (state : K.State) (batch : K.Batch)
  | step (state : K.State) (batch : K.Batch)
  | stepEnd (callback : Nat) (state : K.State) (metrics : K.Metrics)
  | stepIndex (state : K.State)
  | save (phase : Phase) (state : K.State)
  | validate (phase : Phase) (state : K.State)
  | metric (phase : Phase) (name : String) (metrics : K.Metrics)
  | format (e : Exc)
  | appendRow (row : RunLedgerRecord)
  | inferenceMode (state : K.State)
  | predict (state : K.State) (batch : K.Batch)
  | loss (predictions : K.Prediction) (batch : K.Batch)
  | withLoss (metrics : K.Metrics) (loss : K.Loss)
  | aggregate (all : List K.Metrics)

/-- What a dict of metrics holds under a name: else there are its names, sorted. -/
inductive Metric (K : Kinds) where
  | value (v : K.Number)
  | missing (names : List String)

def Call.Answer {K : Kinds} : Call K → Type
  | getCheckpointManager => Bool
  | openLedger _ _ _ => Bool
  | hook _ _ => Unit
  | trainIter => Nat
  | evalIter => Nat
  | nextBatch => K.Batch
  | exhausted => Unit
  | captureIr _ _ => List IRRef
  | step _ _ => K.State × K.Metrics
  | stepEnd _ _ _ => Unit
  | stepIndex _ => Int
  | save _ _ => Unit
  | validate _ _ => K.Metrics
  | metric _ _ _ => Metric K
  | format _ => String
  | appendRow _ => Unit
  | inferenceMode _ => K.State
  | predict _ _ => K.Prediction
  | loss _ _ => K.Loss
  | withLoss _ _ => K.Metrics
  | aggregate _ => K.Metrics

/-- What the engine finds when it runs: the collaborators, how many callbacks it was built with,
`repr` of strings and lists, `sorted` of the keys of a context, and what `new_run_id` makes up. -/
structure Host (K : Kinds) where
  env : Environment (Call K) Call.Answer Exc
  callbacks : Nat
  validationCallbacks : Nat
  repr : String → String
  reprList : List String → String
  sorted : List ContextItem → Except String (List ContextItem)
  newRunId : String

/-! ### The variables of a call -/

/-- Callbacks: those the engine was built with, and the telemetry callback after them. -/
inductive Callback
  | user (i : Nat)
  | telemetry
  deriving DecidableEq

/-- A call of `on_step_end`. -/
structure StepReport (K : Kinds) where
  callback : Callback
  state : K.State
  metrics : K.Metrics

/-- The rows under the ledger's root and, for the statements only, the calls of `on_step_end` so
far and what was raised since the ledger was opened, other than by these calls. -/
structure Trace (K : Kinds) where
  rows : List RunLedgerRecord
  reported : List (StepReport K) := []
  raised : List (Raised (Call K) Exc) := []

/-- The variables of `fit` and `eval`, `_FitLoop`, `_EarlyStopTracker`, the handler and the
telemetry callback among them. -/
structure Session (K : Kinds) extends Trace K where
  ledger : RunLedger
  state : K.State
  stopped : Bool := false
  best : Option K.Number := none
  wait : Nat := 0
  pending : List (StepReport K) := []
  captured : Bool := false

/-- Computations of the engine over variables `σ`. -/
abbrev Run (K : Kinds) (σ α : Type) :=
  Raising (Raised (Call K) Exc) (World (Call K) Call.Answer Exc σ) α

abbrev EngineEvent (K : Kinds) := Event (Call K) Call.Answer Exc

abbrev SessionWorld (K : Kinds) := World (Call K) Call.Answer Exc (Session K)

section

variable {K : Kinds} (host : Host K)

def getVars : Run K (Session K) (Session K) := do return (← get).vars

def setVars (f : Session K → Session K) : Run K (Session K) Unit :=
  modify fun w => { w with vars := f w.vars }

def note (r : Raised (Call K) Exc) : Run K (Session K) Unit :=
  setVars fun v => { v with raised := v.raised ++ [r] }

/-- A call of a collaborator. -/
def call (c : Call K) : Run K (Session K) c.Answer := do
  match ← attempt (ask host.env c) with
  | .ok a => pure a
  | .error r => do
    note r
    throw r

/-- `raise` of the engine itself. -/
def raising {α : Type} (e : Exc) : Run K (Session K) α := do
  note ⟨e, none⟩
  throw ⟨e, none⟩

/-- A hook of the callbacks, one after the other.  The engine and the ledger read nothing of what
the telemetry callback does. -/
def fire (h : Hook K) : List Nat → Run K (Session K) Unit
  | [] => pure ()
  | i :: rest => do
    call host (.hook i h)
    fire h rest

/-! ### The end of a call -/

def close : Run K (Session K) Unit := do
  let l := (← getVars).ledger
  if l.closed then
    raising (RunLedger.recordError
      ("ledger for run_id=" ++ host.repr l.runId ++ " is already closed"))
  else match l.buildRecord host.repr host.sorted with
    | .error e => raising e
    | .ok row => do
      call host (.appendRow row)
      setVars fun v => { v with rows := v.rows ++ [row], ledger := { l with closed := true } }

def closeIfOpen (inFlight : Option (Raised (Call K) Exc)) : Run K (Session K) Unit := do
  let l := (← getVars).ledger
  if l.closed then pure ()
  else match ← attempt (close host) with
    | .ok _ => pure ()
    | .error r =>
      if r.exc.kind = .osError then
        match inFlight with
        | none => raising ⟨"LedgerUnavailableError", "could not write the ledger row for run_id=" ++
            host.repr l.runId ++ ": " ++ r.exc.message, .other⟩
        | some _ => pure ()
      else throw r

/-- The `finally` block: the `on_train_end` hooks, then the row. -/
def finish (owns : Bool) (trainEnd : Run K (Session K) Unit)
    (inFlight : Option (Raised (Call K) Exc)) : Run K (Session K) Unit := do
  trainEnd
  if owns then closeIfOpen host inFlight else pure ()

/-- The `except` block: what was raised is in the row. -/
def markFailed (owns : Bool) (verb : String) (r : Raised (Call K) Exc) : Run K (Session K) Unit :=
  if owns then do
    let text : String ← call host (.format r.exc)
    let reason := verb ++ " raised " ++ r.exc.typeName ++ ": " ++ text
    setVars fun v => { v with ledger := v.ledger.setStatus .failed (some reason) }
  else pure ()

/-- The `try` of `fit` and of `eval`. -/
def guarded {α : Type} (owns : Bool) (verb : String) (trainEnd : Run K (Session K) Unit)
    (body : Run K (Session K) α) : Run K (Session K) α := do
  match ← attempt body with
  | .ok a => do
    finish host owns trainEnd none
    pure a
  | .error r =>
    withCleanup (do markFailed host owns verb r; throw r) (finish host owns trainEnd (some r))

/-! ### The telemetry callback -/

def Session.record (v : Session K) (refs : List IRRef) : Session K :=
  if v.ledger.isOptedOut then { v with captured := true }
  else match degradedReason refs with
    | none => { v with captured := true, ledger := v.ledger.recordIr refs }
    | some reason =>
      let text := "IR capture incomplete -- " ++ reason
      { v with captured := true
               ledger := (v.ledger.recordIr refs).setStatus .degraded (some text) }

def captureIrFor (state : K.State) (batch : K.Batch) : Run K (Session K) Unit := do
  let v ← getVars
  if v.captured then pure ()
  else if v.ledger.isOptedOut then setVars fun v => { v with captured := true }
  else do
    let refs ← call host (.captureIr state batch)
    setVars fun v => v.record refs

/-! ### Reports of a step -/

/-- The callbacks of a `fit`, in order. -/
def Host.fitCallbacks : List Callback := (List.range host.callbacks).map .user ++ [.telemetry]

/-- The reports of a step, in the order in which they are queued. -/
def Host.reports (state : K.State) (metrics : K.Metrics) : List (StepReport K) :=
  host.fitCallbacks.map fun cb => ⟨cb, state, metrics⟩

/-- The task of a report: what the hook raises is logged, unless asyncio lets it through. -/
def fireStepEnd (r : StepReport K) : Run K (Session K) (Option Exc) := do
  setVars fun v => { v with reported := v.reported ++ [r] }
  match r.callback with
  | .telemetry => pure none
  | .user i =>
    match ← attempt (ask host.env (.stepEnd i r.state r.metrics)) with
    | .ok _ => pure none
    | .error raised => pure (if raised.exc.kind = .stopsLoop then some raised.exc else none)

/-- The tasks in the order they were queued.  An exception that stops the loop makes `asyncio.run`
cancel what is left. -/
def drain : List (StepReport K) → Run K (Session K) Unit
  | [] => pure ()
  | r :: rest => do
    setVars fun v => { v with pending := rest }
    match ← fireStepEnd host r with
    | none => drain rest
    | some _ => raising ⟨"CancelledError", "", .other⟩

def waitAll : Run K (Session K) Unit := do drain host (← getVars).pending

/-! ### `_FitLoop` -/

/-- What a `fit` is set up with. -/
structure FitConfig (K : Kinds) where
  saves : Bool
  checkpointEverySteps : Option Int
  hasValidateFn : Bool
  validateEverySteps : Option Int
  validateEveryEpochs : Option Int
  earlyStop : Option (EarlyStopping K)

/-- The cadence is set and is due. -/
def due (index : Int) : Option Int → Bool
  | none => false
  | some n => index % n == 0

variable (cfg : FitConfig K)

/-- `_EarlyStopTracker.update`, once the value is known. -/
def Session.update (v : Session K) (config : EarlyStopping K) (value : K.Number) :
    Session K × Bool :=
  match v.best with
  | none => ({ v with best := some value, wait := 0 }, false)
  | some best =>
    if improved config best value then ({ v with best := some value, wait := 0 }, false)
    else ({ v with wait := v.wait + 1 }, config.patience ≤ v.wait + 1)

def observe (phase : Phase) (metrics : K.Metrics) : Run K (Session K) Unit :=
  match cfg.earlyStop with
  | none => pure ()
  | some config => do
    match ← call host (.metric phase config.metric metrics) with
    | .missing names => raising ⟨"KeyError", "early stopping metric " ++ host.repr config.metric ++
        " is not in metrics " ++ host.reprList names, .other⟩
    | .value value => setVars fun v =>
        let (v', exhausted) := v.update config value
        { v' with stopped := v'.stopped || exhausted }

/-- The step, and the reports that are queued for it. -/
def stepAndSubmit (state : K.State) (batch : K.Batch) : Run K (Session K) (K.State × K.Metrics) := do
  let (state', metrics) ← call host (.step state batch)
  setVars fun v => { v with
    state := state'
    pending := v.pending ++ host.reports state' metrics }
  pure (state', metrics)

/-- The checkpoint after a step. -/
def saveStep (state : K.State) (index : Int) : Run K (Session K) Unit :=
  if cfg.saves && due index cfg.checkpointEverySteps then call host (.save .step state)
  else pure ()

def validateStep (state : K.State) (index : Int) : Run K (Session K) Unit :=
  if cfg.hasValidateFn && due index cfg.validateEverySteps then do
    let metrics ← call host (.validate .step state)
    observe host cfg .step metrics
  else pure ()

def runBatch (batch : K.Batch) : Run K (Session K) K.Metrics := do
  let state := (← getVars).state
  captureIrFor host state batch
  fire host (.stepStart state) (List.range host.callbacks)
  let (state', metrics) ← stepAndSubmit host state batch
  let index ← call host (.stepIndex state')
  saveStep host cfg state' index
  validateStep host cfg state' index
  pure metrics

/-- The batches of an epoch, `n` of which are left; with the metrics of the last one. -/
def runBatches : Nat → Option K.Metrics → Run K (Session K) (Option K.Metrics)
  | 0, last => do
    call host .exhausted
    pure last
  | n + 1, _ => do
    let batch ← call host .nextBatch
    let metrics ← runBatch host cfg batch
    if (← getVars).stopped then pure (some metrics) else runBatches n (some metrics)

def validateEpoch (epoch : Nat) (epochMetrics : Option K.Metrics) : Run K (Session K) Unit := do
  let v ← getVars
  if v.stopped then pure ()
  else if cfg.hasValidateFn then
    if due (epoch + 1) cfg.validateEveryEpochs then do
      let metrics ← call host (.validate .epoch v.state)
      observe host cfg .epoch metrics
    else pure ()
  else match epochMetrics with
    | none => pure ()
    | some metrics => observe host cfg .epoch metrics

/-- `_run_epoch` after its batches. -/
def endEpoch (epoch : Nat) (epochMetrics : Option K.Metrics) : Run K (Session K) Unit := do
  fire host (.epochEnd (← getVars).state epoch) (List.range host.callbacks)
  validateEpoch host cfg epoch epochMetrics
  if cfg.saves then call host (.save .epoch (← getVars).state) else pure ()

def runEpoch (epoch : Nat) : Run K (Session K) Unit := do
  fire host (.epochStart (← getVars).state epoch) (List.range host.callbacks)
  let n ← call host .trainIter
  let epochMetrics ← runBatches host cfg n none
  waitAll host
  endEpoch host cfg epoch epochMetrics

/-- `_FitLoop.run`. -/
def runEpochs : List Nat → Run K (Session K) Unit
  | [] => pure ()
  | epoch :: rest => do
    runEpoch host cfg epoch
    if (← getVars).stopped then pure () else runEpochs rest

/-! ### `Engine.fit` -/

/-- The arguments of `fit`; of `checkpoint_dir` and of `validate_fn`, whether they are given. -/
structure FitArguments (K : Kinds) where
  state : K.State
  numEpochs : Int
  hasCheckpointDir : Bool := false
  resume : Bool := false
  ledger : Option RunLedger := none
  runId : Option String := none
  context : List (ContextItem × ContextItem) := []
  hasValidateFn : Bool := false
  validateEverySteps : Option Int := none
  validateEveryEpochs : Option Int := none
  earlyStop : Option (EarlyStopping K) := none
  checkpointEverySteps : Option Int := none

def valueError (message : String) : Exc := ⟨"ValueError", message, .other⟩

def requirePositive (name : String) : Option Int → Except Exc Unit
  | none => .ok ()
  | some value =>
    if value < 1 then
      .error (valueError (name ++ " must be a positive integer, got " ++ toString value))
    else .ok ()

/-- `_check_fit_arguments`: the cadence of the validation in epochs. -/
def checkFitArguments (args : FitArguments K) : Except Exc (Option Int) := do
  requirePositive "validate_every_steps" args.validateEverySteps
  requirePositive "validate_every_epochs" args.validateEveryEpochs
  requirePositive "checkpoint_every_steps" args.checkpointEverySteps
  if args.checkpointEverySteps.isSome && !args.hasCheckpointDir then
    .error (valueError "checkpoint_every_steps requires checkpoint_dir")
  else if !args.hasValidateFn &&
      (args.validateEverySteps.isSome || args.validateEveryEpochs.isSome) then
    .error (valueError "validate_every_steps/validate_every_epochs requires validate_fn")
  else if args.hasValidateFn && args.validateEverySteps.isNone &&
      args.validateEveryEpochs.isNone then
    .ok (some 1)
  else .ok args.validateEveryEpochs

/-- `run_id or new_run_id()`. -/
def Host.resolveRunId : Option String → String
  | none | some "" => host.newRunId
  | some runId => runId

/-- `_resolve_ledger`: the ledger, and whether it was opened here. -/
def resolveLedger (ledger : Option RunLedger) (runId : Option String) (kind : String)
    (context : List (ContextItem × ContextItem)) : Run K (Trace K) (RunLedger × Bool) :=
  match ledger with
  | some l => pure (l, false)
  | none => do
    let id := host.resolveRunId runId
    let optedOut ← ask host.env (.openLedger id kind context)
    pure (.opened id kind context optedOut, true)

/-- The rest of a call, over its own variables. -/
def inSession {α : Type} (ledger : RunLedger) (state : K.State) :
    Run K (Session K) α → Run K (Trace K) α :=
  onPart (fun w => ⟨w.events, { toTrace := w.vars, ledger := ledger, state := state }⟩)
    (fun t _ => ⟨t.events, t.vars.toTrace⟩) id

/-- The `on_resume` hooks, of a run that resumes. -/
def fireResume (args : FitArguments K) : Run K (Session K) Unit :=
  if args.resume then fire host (.resume args.state) (List.range host.callbacks) else pure ()

/-- The guarded part of `fit`. -/
def fitBody (args : FitArguments K) : Run K (Session K) Unit := do
  fire host (.trainStart args.state) (List.range host.callbacks)
  fireResume host args
  runEpochs host cfg (List.range args.numEpochs.toNat)

/-- The `on_train_end` hooks of `fit`, with the latest state. -/
def fitTrainEnd : Run K (Session K) Unit := do
  fire host (.trainEnd (← getVars).state) (List.range host.callbacks)

/-- `fit` once it has its ledger. -/
def fitOpened (args : FitArguments K) (owns : Bool) : Run K (Session K) K.State := do
  guarded host owns "run" (fitTrainEnd host) (fitBody host cfg args)
  return (← getVars).state

def checkpointSaver (hasCheckpointDir : Bool) : Run K (Trace K) Bool :=
  if hasCheckpointDir then ask host.env .getCheckpointManager else pure false

def fit (args : FitArguments K) : Run K (Trace K) K.State :=
  match checkFitArguments args with
  | .error e => raise e
  | .ok validateEveryEpochs => do
    let saves ← checkpointSaver host args.hasCheckpointDir
    let (ledger, owns) ← resolveLedger host args.ledger args.runId kindTrain args.context
    inSession ledger args.state (fitOpened host {
      saves := saves
      checkpointEverySteps := args.checkpointEverySteps
      hasValidateFn := args.hasValidateFn
      validateEverySteps := args.validateEverySteps
      validateEveryEpochs := validateEveryEpochs
      earlyStop := args.earlyStop } args owns)

/-! ### `Engine.eval` -/

structure EvalArguments (K : Kinds) where
  state : K.State
  hasLossFn : Bool := false
  ledger : Option RunLedger := none
  runId : Option String := none
  context : List (ContextItem × ContextItem) := []

/-- The metrics of a batch, the loss among them where there is a loss function. -/
def evalBatch (hasLossFn : Bool) (evalState : K.State) (batch : K.Batch) :
    Run K (Session K) K.Metrics := do
  captureIrFor host evalState batch
  let (_, metrics) ← call host (.step evalState batch)
  if hasLossFn then do
    let predictions ← call host (.predict evalState batch)
    let loss ← call host (.loss predictions batch)
    call host (.withLoss metrics loss)
  else pure metrics

/-- The batches of an `eval`, `n` of which are left. -/
def evalBatches (hasLossFn : Bool) (evalState : K.State) :
    Nat → List K.Metrics → Run K (Session K) (List K.Metrics)
  | 0, all => do
    call host .exhausted
    pure all
  | n + 1, all => do
    let batch ← call host .nextBatch
    let metrics ← evalBatch host hasLossFn evalState batch
    evalBatches hasLossFn evalState n (all ++ [metrics])

/-- The guarded part of `eval`. -/
def evalBody (args : EvalArguments K) : Run K (Session K) K.Metrics := do
  let evalState ← call host (.inferenceMode args.state)
  let n ← call host .evalIter
  let all ← evalBatches host args.hasLossFn evalState n []
  if all.isEmpty then pure K.noMetrics else call host (.aggregate all)

/-- `eval` once it has its ledger. -/
def evalOpened (args : EvalArguments K) (owns : Bool) : Run K (Session K) K.Metrics := do
  fire host (.trainStart args.state) (List.range host.validationCallbacks)
  guarded host owns "eval" (fire host (.trainEnd args.state) (List.range host.validationCallbacks))
    (evalBody host args)

def eval (args : EvalArguments K) : Run K (Trace K) K.Metrics := do
  let (ledger, owns) ← resolveLedger host args.ledger args.runId kindEval args.context
  inSession ledger args.state (evalOpened host args owns)

end

end Xtrax.Engine
