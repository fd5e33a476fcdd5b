import Xtrax.IntentPlan
import Xtrax.Results

/-!
# Decisions of single sites

What a site is given before anything is known of the sites below it.  Maps go through the batch
planner (`planMaps`), loops follow the context (`loopChoice`), ops keep what was selected while
tracing; an override for the label replaces that (`applyOverride`).

What JAX says is a parameter: its default backend, and the memory a site takes under a strategy.
-/

namespace Xtrax.Intent

open BatchPlanner (AxisSpec AxisDecision MemoryBudget)

/-- What an error carries about a strategy, or a text. -/
inductive Constraint
  | text (text : String)
  | repr (strategy : Strategy)
  deriving DecidableEq

inductive ResolveError
  /-- `ValueError`, `KeyError` and the like. -/
  | other (message : String)
  | intent (message site : String) (path : Path) (constraint : Constraint)
  | unsatisfiable (message site : String) (path : Path) (constraint : String)
  deriving DecidableEq

/-- What JAX says. -/
structure Jax where
  defaultBackend : String
  /-- `_lowered_site`; `none` stands for an exception. -/
  lowered : SiteRecord → Strategy → Option Int

/-- An override: the strategy of the primal path, and that of the diff path or none. -/
abbrev Override : Type := Strategy × Option Strategy

/-- Overrides by label. -/
abbrev Overrides : Type := List (String × Override)

def Overrides.get? (overrides : Overrides) (label : String) : Option Override :=
  overrides.lookup label

/-- Decisions by key. -/
abbrev Decisions : Type := SiteKey → Option SiteDecision

/-! ### Budgets -/

def mapStrategy : BatchPlanner.AxisStrategy Unit → Option Strategy
  | .vmap => some .vmap
  | .chunkedMap batchSize => some (.chunkedMap batchSize)
  | _ => none

/-- One decision, priced by the record of its axis' name. -/
def priceDecision (jax : Jax) (records : List SiteRecord) (decision : AxisDecision Unit) :
    Option Int :=
  match records.find? (fun record => record.key.str = decision.spec.name) with
  | none => none
  | some record =>
    match mapStrategy decision.strategy with
    | none => none
    | some strategy => jax.lowered record strategy

def defaultEstimator (jax : Jax) (records : List SiteRecord) (decisions : List (AxisDecision Unit)) :
    Option Int :=
  (decisions.mapM (priceDecision jax records)).map List.sum

def budgetFor (jax : Jax) (ctx : Context) (records : List SiteRecord) :
    Except ResolveError (Option (MemoryBudget Unit)) :=
  match ctx.memoryBudget with
  | none => .ok none
  | some (.budget budget) => .ok (some budget)
  | some (.bytes bytes) =>
    if h : 0 < bytes then .ok (some ⟨bytes, defaultEstimator jax records, h⟩)
    else .error (.other ("MemoryBudget.bytes must be positive, got " ++ toString bytes))

/-! ### Maps -/

def cardinality (record : SiteRecord) : Nat := (record.avals.headD []).headD 0

def plannedMap (record : SiteRecord) : Bool :=
  isPrimalChain record.key && record.kind = .map && 1 < cardinality record

/-- The axis of a map. -/
def axisSpec (ctx : Context) (record : SiteRecord) : AxisSpec where
  name := record.key.str
  cardinality := cardinality record
  defaultBatchSize := ctx.chunkSize

/-- The largest of some maps, the first of those. -/
def largestMap : List SiteRecord → Option SiteRecord
  | [] => none
  | record :: records =>
    match largestMap records with
    | none => some record
    | some largest => if cardinality record < cardinality largest then some largest else some record

/-- The planner's exceptions. -/
def planFailure (records : List SiteRecord) : BatchPlanner.PlanError → ResolveError
  | .budgetInfeasible estimate bytes candidates dropped strategies =>
    let message := "plan cannot fit MemoryBudget: estimate " ++ toString estimate ++
      " B > budget " ++ toString bytes ++ " B after demoting all " ++ toString candidates ++
      " candidate axes" ++ (if dropped then " (DedupGather already dropped)" else "") ++
      "; final strategies: " ++
      String.intercalate ", " (strategies.map fun (name, type) => name ++ "=" ++ type)
    match largestMap records with
    | some largest => .unsatisfiable message largest.key.str .primal message
    | none => .other message
  | _ => .other "planning failed"

def planMaps (records : List SiteRecord) (ctx : Context) :
    Option (MemoryBudget Unit) → Except ResolveError (List (AxisDecision Unit))
  | none => .ok []
  | some budget =>
    let planned := records.filter plannedMap
    if planned = [] then .ok []
    else
      match BatchPlanner.plan 0 { budget := some budget } (planned.map (axisSpec ctx)) with
      | .ok decisions => .ok decisions
      | .error e => .error (planFailure planned e)

/-! ### Automatic decisions -/

def sameStrategy : String := "same strategy as primal in the MVP"

def noTwin : String := "no primal twin"

def decision (record : SiteRecord) (primal : Strategy) (diff : Option Strategy)
    (primalReason diffReason : String) : SiteDecision where
  key := record.key
  kind := record.kind
  primal := primal
  diff := diff
  primalReason := primalReason
  diffReason := diffReason

/-- What a resolution says of derivatives: whether there are any, and why not. -/
structure DiffMode where
  available : Bool := true
  reason : String := ""

def condDiffReason : String := "conditional loop: jax.lax.while_loop (forward-mode only)"

/-- `ctx.target == "export" and ctx.export_format != "stablehlo"`. -/
def forbidsStaticWhile (ctx : Context) : Bool :=
  ctx.target = .exporting && ctx.exportFormat ≠ some "stablehlo"

/-- `_loop_choice`: strategies and reasons for a loop. -/
def loopChoice (record : SiteRecord) (ctx : Context) (mode : DiffMode) :
    Strategy × Option Strategy × String × String :=
  match record.length with
  | none => (.whileCarry, none, "conditional loop is a plain while_loop", condDiffReason)
  | some length =>
    let (primal, primalReason) : Strategy × String :=
      if forbidsStaticWhile ctx then
        (.scan true, "export format is not stablehlo; primal resolves to Scan")
      else (.staticWhile length, "fixed length resolves to StaticWhile")
    if mode.available then (primal, some (.scan true), primalReason, "diff path resolves to Scan")
    else (primal, none, primalReason, mode.reason)

def opDiffReason (primal : OpPrimal) : String :=
  match primal.form with
  | .customVjp => "reverse mode runs the backward kernel; forward mode raises IntentError"
  | .customJvp => "kernel derivative is the reference's JVP"
  | .reference => "derivative by reference autodiff"

def opDecision (record : SiteRecord) : Except ResolveError SiteDecision :=
  match record.op with
  | none => .error (.intent "op site has no recorded selection" record.key.str .primal
      (.text "record.op is None"))
  | some choice =>
    .ok
      { key := record.key
        kind := .op
        primal := .op choice.primal
        diff := none
        primalReason := choice.reason
        diffReason := opDiffReason choice.primal
        warnings := choice.warnings }

/-- The strategy of a map of more than one element under a budget, by the name of its axis. -/
def plannedStrategy (record : SiteRecord) (axisDecisions : List (AxisDecision Unit)) :
    Except ResolveError (Strategy × String) :=
  match axisDecisions.find? (fun item => item.spec.name = record.key.str) with
  | none => .error (.other "StopIteration")
  | some item =>
    match mapStrategy item.strategy with
    | none => .error (.other "map primal strategy must be Vmap or ChunkedMap")
    | some strategy => .ok (strategy, item.reasoning)

def automaticDecision (record : SiteRecord) (ctx : Context) (budget : Option (MemoryBudget Unit))
    (axisDecisions : List (AxisDecision Unit)) (mode : DiffMode) :
    Except ResolveError SiteDecision :=
  match record.kind with
  | .op => opDecision record
  | .loop =>
    let (primal, diff, primalReason, diffReason) := loopChoice record ctx mode
    .ok (decision record primal diff primalReason diffReason)
  | .map =>
    if cardinality record ≤ 1 then
      .ok (decision record .vmap (some .vmap) "cardinality <= 1 resolves to Vmap" sameStrategy)
    else
      match budget with
      | none =>
        .ok (decision record .vmap (some .vmap) "no memory budget; cardinality selects Vmap"
          sameStrategy)
      | some _ => do
        let (strategy, reason) ← plannedStrategy record axisDecisions
        return decision record strategy (some strategy) reason sameStrategy

def noTwinDecision (record : SiteRecord) (ctx : Context) (mode : DiffMode) :
    Except ResolveError SiteDecision :=
  match record.kind with
  | .op => opDecision record
  | .map => .ok (decision record .vmap (some .vmap) noTwin noTwin)
  | .loop =>
    let (primal, diff, _, _) := loopChoice record ctx mode
    .ok (decision record primal diff noTwin noTwin)

/-! ### Overrides -/

/-- A strategy that a site may not have. -/
def illegal (message : String) (record : SiteRecord) (path : Path) (strategy : Strategy) :
    ResolveError :=
  .intent (message ++ ", got " ++ strategy.typeName) record.key.label path (.repr strategy)

def checkOverrideType (record : SiteRecord) (override : Override) : Except ResolveError Unit :=
  let (primal, diff) := override
  match record.kind with
  | .op =>
    .error (.intent "op sites take no strategy override: the selection follows the Context"
      record.key.label .primal (.repr primal))
  | .map =>
    if !primal.isMap then
      .error (illegal "map override must be Vmap or ChunkedMap" record .primal primal)
    else
      match diff with
      | none => .ok ()
      | some diff =>
        if diff.isMap then .ok ()
        else .error (illegal "map override diff must be Vmap or ChunkedMap" record .diff diff)
  | .loop =>
    match record.length with
    | none =>
      if !primal.isWhileCarry then
        .error (illegal "cond loop override must be WhileCarry" record .primal primal)
      else
        match diff with
        | none => .ok ()
        | some diff => .error (illegal "cond loop override diff must be None" record .diff diff)
    | some _ =>
      if !(primal.isStaticWhile || primal.isScan) then
        .error (illegal "loop override must be StaticWhile or Scan" record .primal primal)
      else
        match diff with
        | none => .ok ()
        | some diff =>
          if diff.isScan then .ok ()
          else .error (illegal "loop override diff must be Scan or None" record .diff diff)

def validateOverrides (records : List SiteRecord) (overrides : Overrides) :
    Except ResolveError Unit :=
  match overrides.find? (fun entry => records.all fun record => record.key.label ≠ entry.1) with
  | some entry => .error (.other ("override label " ++ entry.1 ++ " matches no record"))
  | none =>
    records.forM fun record =>
      match overrides.get? record.key.label with
      | none => .ok ()
      | some override => checkOverrideType record override

def overrideReason (record : SiteRecord) : String := "override:" ++ record.key.label

def applyOverride (record : SiteRecord) (override : Override) (mode : DiffMode) :
    Except ResolveError SiteDecision :=
  let (primal, diff) := override
  let reason := overrideReason record
  if record.kind = .map then
    let usedDiff := diff.getD primal
    if !(primal.isMap && usedDiff.isMap) then
      .error (illegal "map override must be Vmap or ChunkedMap" record .primal primal)
    else
      let diffReason := if diff = none ∨ diff = some primal then sameStrategy else reason
      .ok (decision record primal (some usedDiff) reason diffReason)
  else
    match record.length with
    | none =>
      if !primal.isWhileCarry then
        .error (illegal "cond loop override must be WhileCarry" record .primal primal)
      else
        match diff with
        | some diff => .error (illegal "cond loop override diff must be None" record .diff diff)
        | none => .ok (decision record primal none reason condDiffReason)
    | some length =>
      if !(primal.isStaticWhile || primal.isScan) then
        .error (illegal "loop override must be StaticWhile or Scan" record .primal primal)
      else if primal.isStaticWhile && primal ≠ .staticWhile length then
        .error (.intent "StaticWhile override length does not match site length" record.key.label
          .primal (.repr primal))
      else
        match diff with
        | none =>
          if mode.available then .ok (decision record primal (some (.scan true)) reason reason)
          else .ok (decision record primal none reason mode.reason)
        | some diff =>
          if diff.isScan then
            .ok (decision record primal (some diff) reason "diff path resolves to Scan")
          else .error (illegal "loop override diff must be Scan or None" record .diff diff)

def chosenDecision (record : SiteRecord) (ctx : Context) (budget : Option (MemoryBudget Unit))
    (axisDecisions : List (AxisDecision Unit)) (overrides : Overrides) (mode : DiffMode) :
    Except ResolveError SiteDecision := do
  let automatic ← automaticDecision record ctx budget axisDecisions mode
  match overrides.get? record.key.label with
  | none => return automatic
  | some override => applyOverride record override mode

/-- `chosen`. -/
def chooseAll (ctx : Context) (budget : Option (MemoryBudget Unit))
    (axisDecisions : List (AxisDecision Unit)) (overrides : Overrides) (mode : DiffMode)
    (records : List SiteRecord) : Except ResolveError Decisions :=
  records.foldlM
    (fun chosen record =>
      if isPrimalChain record.key then do
        let d ← chosenDecision record ctx budget axisDecisions overrides mode
        return Function.update chosen record.key (some d)
      else .ok chosen)
    fun _ => none

end Xtrax.Intent
