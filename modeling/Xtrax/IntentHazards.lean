import Xtrax.IntentResolve

/-!
# Resolving sites

`resolve` makes one decision per record: the primal-chain sites are given their decisions, and
then each is looked at with the decisions below it (`withHazards`).  On some backends a chunked
map around a static while is moved back to `Vmap`, one site after the other, each judged against
the plan as the earlier ones left it.  Sites on the diff path copy their primal twin
(`diffVisit`).
-/

namespace Xtrax.Intent

open BatchPlanner (AxisSpec AxisDecision MemoryBudget)

/-! ### The joint estimate -/

/-- The axis of a planned map with the strategy it has been given. -/
def jointAxis (ctx : Context) (decisions : Decisions) (record : SiteRecord) :
    Except ResolveError (AxisDecision Unit) :=
  let spec := axisSpec ctx record
  match decisions record.key with
  | none => .error (.other ("KeyError: " ++ record.key.str))
  | some d =>
    match d.primal with
    | .vmap =>
      .ok
        { spec := spec
          batchSize := BatchPlanner.vmapDecisionBatchSize spec
          reasoning := d.primalReason
          strategy := .vmap }
    | .chunkedMap batchSize =>
      .ok
        { spec := spec
          batchSize := batchSize
          reasoning := d.primalReason
          strategy := .chunkedMap batchSize }
    | strategy =>
      .error (.intent ("map primal strategy must be Vmap or ChunkedMap, got " ++
        strategy.typeName) record.key.str .primal (.repr strategy))

def jointAxes (records : List SiteRecord) (decisions : Decisions) (ctx : Context) :
    Except ResolveError (List (AxisDecision Unit)) :=
  (records.filter plannedMap).mapM (jointAxis ctx decisions)

/-- `budget.estimate` over the joint axes. -/
def jointEstimate (records : List SiteRecord) (decisions : Decisions) (ctx : Context)
    (budget : MemoryBudget Unit) : Except ResolveError Int := do
  let axes ← jointAxes records decisions ctx
  match budget.estimate axes with
  | none => throw (.other "estimate")
  | some estimate => return estimate

/-- A primal-chain map with an override. -/
def overriddenMap (overrides : Overrides) (record : SiteRecord) : Bool :=
  isPrimalChain record.key && record.kind = .map && (overrides.get? record.key.label).isSome

def checkMapOverrideBudget (records : List SiteRecord) (decisions : Decisions) (ctx : Context)
    (budget : Option (MemoryBudget Unit)) (overrides : Overrides) : Except ResolveError Unit :=
  match budget, records.find? (overriddenMap overrides) with
  | some budget, some first => do
    let estimate ← jointEstimate records decisions ctx budget
    if budget.bytes < estimate then
      let constraint := "override exceeds memory budget: estimate " ++ toString estimate ++
        " > " ++ toString budget.bytes
      throw (.unsatisfiable constraint first.key.str .primal constraint)
    else return ()
  | _, _ => .ok ()

def checkContext (record : SiteRecord) (primal : Strategy) (ctx : Context) :
    Except ResolveError Unit :=
  if record.kind = .loop ∧ record.length = none ∧ ctx.target = .exporting then
    .error (.unsatisfiable "export forbids unbounded while_loop" record.key.str .primal
      "export forbids unbounded while_loop")
  else if forbidsStaticWhile ctx && primal.isStaticWhile then
    .error (.unsatisfiable "export forbids StaticWhile when export_format is not stablehlo"
      record.key.str .primal "export forbids StaticWhile when export_format is not stablehlo")
  else .ok ()

/-- `_check_context` of every primal-chain record. -/
def checkChosen (records : List SiteRecord) (chosen : Decisions) (ctx : Context) :
    Except ResolveError Unit :=
  (records.filter (isPrimalChain ·.key)).forM fun record =>
    match chosen record.key with
    | none => .error (.other ("KeyError: " ++ record.key.str))
    | some d => checkContext record d.primal ctx

/-! ### Hazards -/

/-- What a hazard rule sees: decisions below the site, and the site's record. -/
inductive HazardView
  | decision (decision : SiteDecision)
  | record (record : SiteRecord)

def isScanAroundWhileBackend (name : String) : Bool := name = "cuda" || name = "gpu"

def longScanThreshold : Nat := 256

def scanAroundWhile (backend : String) (d : SiteDecision) (views : List HazardView) : Bool :=
  isScanAroundWhileBackend backend && (d.primal.isChunkedMap || d.primal.isScan) &&
    views.any fun
      | .decision item => item.primal.isStaticWhile
      | .record _ => false

def longStaticScan (d : SiteDecision) (views : List HazardView) : Bool :=
  d.kind = .loop && d.primal.isScan &&
    match views.findSome? fun
      | .decision _ => none
      | .record record => if record.key = d.key then record.length else none with
    | some length => longScanThreshold < length
    | none => false

inductive Hazard
  | scanAroundWhile | longStaticScan
  deriving DecidableEq

def Hazard.name : Hazard → String
  | scanAroundWhile => "scan_around_while"
  | longStaticScan => "long_static_scan"

def Hazard.applies (hazard : Hazard) (backend : String) (d : SiteDecision)
    (views : List HazardView) : Bool :=
  match hazard with
  | scanAroundWhile => Intent.scanAroundWhile backend d views
  | longStaticScan => Intent.longStaticScan d views

def hazards : List Hazard := [.scanAroundWhile, .longStaticScan]

def preview (record : SiteRecord) (chosen : Decisions) (ctx : Context) (mode : DiffMode) :
    Except ResolveError SiteDecision :=
  match chosen record.key with
  | some d => .ok d
  | none =>
    match chosen (canonical record.key) with
    | some twin => .ok twin
    | none => noTwinDecision record ctx mode

/-- The records below a site. -/
def subtree (record : SiteRecord) (records : List SiteRecord) : List SiteRecord :=
  records.filter fun other =>
    other.key ≠ record.key && canonical record.key ∈ ancestorKeys other.key

def hazardViews (record : SiteRecord) (records : List SiteRecord) (chosen : Decisions)
    (ctx : Context) (mode : DiffMode) : Except ResolveError (List HazardView) := do
  let below ← (subtree record records).mapM fun other => preview other chosen ctx mode
  return below.map HazardView.decision ++ [HazardView.record record]

/-- `replace(decision, primal=Vmap(), diff=Vmap())`. -/
def SiteDecision.onVmap (d : SiteDecision) : SiteDecision :=
  { d with primal := .vmap, diff := some .vmap }

def vmapFits (record : SiteRecord) (records : List SiteRecord) (working : Decisions)
    (ctx : Context) : Option (MemoryBudget Unit) → Except ResolveError Bool
  | none => .ok true
  | some budget => do
    let trial ←
      if plannedMap record then
        match working record.key with
        | none => throw (.other ("KeyError: " ++ record.key.str))
        | some d => pure (Function.update working record.key (some d.onVmap))
      else pure working
    let estimate ← jointEstimate records trial ctx budget
    return decide (estimate ≤ budget.bytes)

/-- One hazard rule: the decision and the warnings so far. -/
def applyHazard (backend : String) (record : SiteRecord) (overridden : Bool)
    (views : List HazardView) (fits : Except ResolveError Bool)
    (st : SiteDecision × List String) (hazard : Hazard) :
    Except ResolveError (SiteDecision × List String) :=
  let (d, warnings) := st
  let refusal : ResolveError :=
    .unsatisfiable hazard.name record.key.str .primal hazard.name
  if !hazard.applies backend d views then .ok st
  else if overridden then
    .ok (d, warnings ++ ["override:" ++ record.key.label ++ " bypassed " ++ hazard.name])
  else
    match hazard with
    | .scanAroundWhile =>
      match fits with
      | .error e => .error e
      | .ok false => .error refusal
      | .ok true =>
        if d.primal.isChunkedMap then
          .ok
            ({ d.onVmap with
                primalReason := "scan_around_while prefers Vmap"
                diffReason := sameStrategy }, warnings)
        else .ok st
    | .longStaticScan => .ok (d, warnings ++ [hazard.name])

def withHazards (jax : Jax) (record : SiteRecord) (chosen : Decisions) (ctx : Context)
    (budget : Option (MemoryBudget Unit)) (working : Decisions) (overrides : Overrides)
    (records : List SiteRecord) (mode : DiffMode) : Except ResolveError SiteDecision :=
  match chosen record.key with
  | none => .error (.other ("KeyError: " ++ record.key.str))
  | some d => do
    let views ← hazardViews record records chosen ctx mode
    let (d', warnings) ← hazards.foldlM
      (applyHazard (ctx.resolvedBackend jax.defaultBackend) record
        (overrides.get? record.key.label).isSome views (vmapFits record records working ctx budget))
      (d, d.warnings)
    return { d' with warnings := warnings }

/-- The loop over the primal-chain records: what is final so far, and the working copy. -/
def hazardLoop (jax : Jax) (chosen : Decisions) (ctx : Context)
    (budget : Option (MemoryBudget Unit)) (overrides : Overrides) (records : List SiteRecord)
    (mode : DiffMode) : Except ResolveError (Decisions × Decisions) :=
  (records.filter (isPrimalChain ·.key)).foldlM
    (fun (final, working) record => do
      let d ← withHazards jax record chosen ctx budget working overrides records mode
      return (Function.update final record.key (some d),
        Function.update working record.key (some d)))
    (fun _ => none, chosen)

def diffVisit (record : SiteRecord) (final : Decisions) (ctx : Context) (mode : DiffMode) :
    Except ResolveError SiteDecision :=
  match final (canonical record.key) with
  | none => do
    let d ← noTwinDecision record ctx mode
    checkContext record d.primal ctx
    return d
  | some twin =>
    .ok
      { twin with
        key := record.key
        primalReason := "diff visit of " ++ (canonical record.key).str ++ ": " ++
          twin.primalReason }

/-- The decision of a record in the plan. -/
def finalDecision (final : Decisions) (ctx : Context) (mode : DiffMode) (record : SiteRecord) :
    Except ResolveError SiteDecision :=
  if isPrimalChain record.key then
    match final record.key with
    | none => .error (.other ("KeyError: " ++ record.key.str))
    | some d => .ok d
  else diffVisit record final ctx mode

def planSchemaVersion : Nat := 1

def resolve (jax : Jax) (records : List SiteRecord) (ctx : Context) (overrides : Overrides)
    (mode : DiffMode) : Except ResolveError Plan := do
  validateOverrides records overrides
  let budget ← budgetFor jax ctx records
  let axisDecisions ← planMaps records ctx budget
  let chosen ← chooseAll ctx budget axisDecisions overrides mode records
  checkChosen records chosen ctx
  checkMapOverrideBudget records chosen ctx budget overrides
  let (final, _) ← hazardLoop jax chosen ctx budget overrides records mode
  checkMapOverrideBudget records final ctx budget overrides
  let decisions ← records.mapM (finalDecision final ctx mode)
  return { schemaVersion := planSchemaVersion, context := ctx, decisions := decisions }

end Xtrax.Intent
