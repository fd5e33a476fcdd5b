import Mathlib

/-! # Planning axes

`BatchPlanner.plan` chooses a strategy for each axis: axes with a `CarrySpec` or a `DedupSpec`
first, then the others by rules, or, with a `MemoryBudget`, together: every axis that may be
mapped starts mapped, and axes are chunked one after the other until an estimate over the whole
plan fits (`greedyDemote`).  When that is not enough, axes are planned without their dedup, one
after the other, each time from scratch (`releaseLoop`).
-/
namespace Xtrax.BatchPlanner

inductive AxisRole
  | known | unknown
  deriving DecidableEq, Repr

theorem boundaries_none : ∀ bs, (none : Option (List Int)) = some bs →
    bs ≠ [] ∧ (∀ b ∈ bs, 0 < b) ∧ bs.Pairwise (· < ·) := by simp

/-- `AxisSpec`, with the checks of `__post_init__`. -/
structure AxisSpec where
  name : String
  cardinality : Int
  defaultBatchSize : Int
  tileGranularity : Int := 1
  heterogeneous : Bool := false
  dedupEligible : Bool := false
  bucketBoundaries : Option (List Int) := none
  role : AxisRole := .known
  elementInputBytes : Option Nat := none
  varyingInputs : List String := []
  boundaries_ok : ∀ bs, bucketBoundaries = some bs →
    bs ≠ [] ∧ (∀ b ∈ bs, 0 < b) ∧ bs.Pairwise (· < ·) := by first | exact boundaries_none | simp

inductive AxisStrategy (α : Type)
  | vmap
  | chunkedMap (batchSize : Int)
  | scan (transition init : α) (orderedSinks : Bool)
  | whileCarry (body init : α) (cond : Option α)
  | dedupGather (uniqueIndices : List Int) (indexMap : List Nat) (k kBucket : Nat)
      (dedupFn gatherFn : Option α)
  | bucket (boundaries : List Int)
  deriving DecidableEq

def AxisStrategy.typeName {α : Type} : AxisStrategy α → String
  | .vmap => "Vmap"
  | .chunkedMap _ => "ChunkedMap"
  | .scan .. => "Scan"
  | .whileCarry .. => "WhileCarry"
  | .dedupGather .. => "DedupGather"
  | .bucket _ => "Bucket"

structure AxisDecision (α : Type) where
  spec : AxisSpec
  batchSize : Int
  reasoning : String
  strategy : AxisStrategy α

structure CarrySpec (α : Type) where
  axisName : String
  init : α
  transition : α
  orderedSinks : Bool := true
  collectOutputs : Bool := true
  cond : Option α := none

/-- `DedupSpec`, with the checks of `__post_init__`; `k` is the number of unique indices. -/
structure DedupSpec (α : Type) where
  axisName : String
  uniqueIndices : List Int
  indexMap : List Nat
  dedupFn : Option α := none
  gatherFn : Option α := none
  slots : indexMap.dedup.length = uniqueIndices.length
  in_range : ∀ i ∈ indexMap, i < uniqueIndices.length

def DedupSpec.k {α : Type} (ds : DedupSpec α) : Nat := ds.uniqueIndices.length

/-- `MemoryBudget`; `none` stands for an exception of the estimate. -/
structure MemoryBudget (α : Type) where
  bytes : Int
  estimate : List (AxisDecision α) → Option Int
  bytes_pos : 0 < bytes

inductive PlanError
  /-- `ValueError`: a carry strategy for a heterogeneous axis. -/
  | heterogeneousCarry (axis : String)
  | ambiguousAxis (axis : String)
  | dedupSpecCollision (axis : String)
  | noUniqueIndices (axis : String)
  /-- `RuntimeError`: the memory estimator has raised. -/
  | memoryEstimator (axis : String)
  | belowInputBytes (axis : String) (estimate : Int) (bound : Nat)
  | zeroBatchSize (axis : String)
  | budgetInfeasible (estimate bytes : Int) (candidates : Nat) (dropped : Bool)
      (strategies : List (String × String))
  | estimate
  deriving DecidableEq

structure Planner (α : Type) where
  /-- `none` as a result stands for an exception. -/
  memoryEstimator : Option (AxisSpec → Option Int) := none
  carrySpecs : List (CarrySpec α) := []
  dedupSpecs : List (DedupSpec α) := []
  heterogeneousAxes : List String := []
  budget : Option (MemoryBudget α) := none
  exclusive : budget = none ∨ memoryEstimator = none := by simp

/-! ## One axis -/

section
variable {α : Type}

/-- `get_k_bucket`. -/
def kBucket? (k : Nat) : Option Nat := if k = 0 then none else some (2 ^ (k - 1).size)

/-- `to_dedup_gather`: the last index fills the bucket. -/
def DedupSpec.toDedupGather (ds : DedupSpec α) : Except PlanError (AxisStrategy α) :=
  match kBucket? ds.k with
  | none => .error (.noUniqueIndices ds.axisName)
  | some kBucket =>
    .ok (.dedupGather
      (ds.uniqueIndices ++ List.replicate (kBucket - ds.k) (ds.uniqueIndices.getLastD 0))
      ds.indexMap ds.k kBucket ds.dedupFn ds.gatherFn)

/-- `merge_dedup_specs` of one-entry mappings. -/
def mergeDedupSpecs : List (DedupSpec α) → Except PlanError (List (DedupSpec α)) :=
  let rec go (seen : List String) : List (DedupSpec α) → Except PlanError (List (DedupSpec α))
    | [] => .ok []
    | ds :: rest =>
      if ds.axisName ∈ seen then .error (.dedupSpecCollision ds.axisName)
      else (go (ds.axisName :: seen) rest).map (ds :: ·)
  go []

/-- `repr` of a tuple of ints. -/
def tupleText : List Int → String
  | [b] => "(" ++ toString b ++ ",)"
  | bs => "(" ++ ", ".intercalate (bs.map toString) ++ ")"

/-- Rules 3 and 4 of `_decide_strategy`, once the estimate has been looked at. -/
def byCardinality (p : Planner α) (spec : AxisSpec) (preferChunked : Bool) :
    Except PlanError (AxisDecision α) :=
  let decision reasoning strategy : AxisDecision α :=
    { spec := spec, batchSize := spec.defaultBatchSize, reasoning := reasoning, strategy := strategy }
  if spec.cardinality ≤ spec.defaultBatchSize then
    if preferChunked then
      .ok (decision "cardinality <= batch_size but memory_estimator override → ChunkedMap"
        (.chunkedMap spec.defaultBatchSize))
    else .ok (decision "cardinality <= batch_size → Vmap" .vmap)
  else if spec.defaultBatchSize = 0 then .error (.zeroBatchSize spec.name)
  else
    let remainder := Int.fmod spec.cardinality spec.defaultBatchSize
    let shape := if remainder = 0 then "divisible" else "ragged final chunk of " ++ toString remainder
    if preferChunked then
      .ok (decision
        ("cardinality > batch_size (" ++ shape ++ ") but memory_estimator override → ChunkedMap")
        (.chunkedMap spec.defaultBatchSize))
    else if p.memoryEstimator.isSome then
      .ok (decision ("cardinality > batch_size (" ++ shape ++ ") but memory safe → Vmap") .vmap)
    else
      .ok (decision ("cardinality > batch_size (" ++ shape ++ ") → ChunkedMap")
        (.chunkedMap spec.defaultBatchSize))

/-- `_decide_strategy`.  `deviceLimit` is what `_memory_estimator_device_limit` returns. -/
def decideStrategy (deviceLimit : Int) (p : Planner α) (spec : AxisSpec) :
    Except PlanError (AxisDecision α) :=
  match spec.bucketBoundaries with
  | some boundaries =>
    .ok
      { spec := spec
        batchSize := spec.defaultBatchSize
        reasoning := "bucket_boundaries=" ++ tupleText boundaries ++ " → Bucket (host-side padding)"
        strategy := .bucket boundaries }
  | none =>
    match p.memoryEstimator with
    | none => byCardinality p spec false
    | some memoryEstimator =>
      match memoryEstimator spec with
      | none => .error (.memoryEstimator spec.name)
      | some estimate =>
        match spec.elementInputBytes with
        | some bound =>
          if estimate < bound then .error (.belowInputBytes spec.name estimate bound)
          else byCardinality p spec (deviceLimit < estimate)
        | none => byCardinality p spec (deviceLimit < estimate)

def vmapDecisionBatchSize (spec : AxisSpec) : Int := spec.defaultBatchSize

def chunkedText (spec : AxisSpec) : String :=
  "ChunkedMap(batch_size=" ++ toString spec.defaultBatchSize ++ ")"

def budgetInitialDecision (spec : AxisSpec) : AxisDecision α :=
  if spec.heterogeneous then
    { spec := spec
      batchSize := spec.defaultBatchSize
      reasoning := "joint-budget: heterogeneous axis fixed to " ++ chunkedText spec ++
        " (pending final estimate)"
      strategy := .chunkedMap spec.defaultBatchSize }
  else
    { spec := spec
      batchSize := vmapDecisionBatchSize spec
      reasoning := "joint-budget: Vmap (pending final estimate)"
      strategy := .vmap }

/-! ## The first pass over the axes -/

/-- What the loop of `plan` makes of an axis. -/
inductive Phase (α : Type)
  | decided (d : AxisDecision α)
  /-- Its index goes to `dedup_indices`. -/
  | dedup (d : AxisDecision α)
  /-- Its index goes to `pending`, and its decision is `None`. -/
  | pending

def Phase.decision : Phase α → Option (AxisDecision α)
  | .decided d | .dedup d => some d
  | .pending => none

def Phase.isPending : Phase α → Bool
  | .pending => true
  | _ => false

def Phase.isDedup : Phase α → Bool
  | .dedup _ => true
  | _ => false

/-- Phase 0: the decision for an axis with a `CarrySpec`. -/
def carryDecision (spec : AxisSpec) (cs : CarrySpec α) : AxisDecision α :=
  if cs.collectOutputs then
    { spec := spec
      batchSize := 1
      reasoning := "carry-bearing scan (CarrySpec declared for '" ++ spec.name ++ "')"
      strategy := .scan cs.transition cs.init cs.orderedSinks }
  else
    { spec := spec
      batchSize := 1
      reasoning := "carry-only while-loop (CarrySpec declared for '" ++ spec.name ++
        "', collect_outputs=False)"
      strategy := .whileCarry cs.transition cs.init cs.cond }

/-- Phase 0b: the decision for an axis with a `DedupSpec`. -/
def dedupDecision (spec : AxisSpec) (ds : DedupSpec α) (strategy : AxisStrategy α) :
    AxisDecision α where
  spec := spec
  batchSize := ds.k
  reasoning := "dedup-gather (DedupSpec for '" ++ spec.name ++ "', k=" ++ toString ds.k ++
    ", k_bucket=" ++ toString ((kBucket? ds.k).getD 0) ++ ")"
  strategy := strategy

/-- The body of the loop of `plan`.  Of two `CarrySpec`s for an axis the last one counts. -/
def phaseOf (deviceLimit : Int) (p : Planner α) (dedup : List (DedupSpec α)) (spec : AxisSpec) :
    Except PlanError (Phase α) :=
  match p.carrySpecs.reverse.find? fun cs => cs.axisName = spec.name with
  | some cs =>
    if spec.name ∈ p.heterogeneousAxes then .error (.heterogeneousCarry spec.name)
    else .ok (.decided (carryDecision spec cs))
  | none =>
    match dedup.find? fun ds => ds.axisName = spec.name with
    | some ds => ds.toDedupGather.map fun strategy => .dedup (dedupDecision spec ds strategy)
    | none =>
      if spec.role = .unknown then .error (.ambiguousAxis spec.name)
      else if p.budget.isSome ∧ spec.bucketBoundaries = none then .ok .pending
      else (decideStrategy deviceLimit p spec).map .decided

def phasesOf (deviceLimit : Int) (p : Planner α) (dedup : List (DedupSpec α)) :
    List AxisSpec → Except PlanError (List (Phase α))
  | [] => .ok []
  | spec :: rest =>
    match phaseOf deviceLimit p dedup spec with
    | .error e => .error e
    | .ok phase => (phasesOf deviceLimit p dedup rest).map (phase :: ·)

/-! ## The joint budget -/

variable {specs : List AxisSpec}

/-- `decisions`, by the index of the axis. -/
abbrev Decisions (α : Type) (specs : List AxisSpec) := Fin specs.length → Option (AxisDecision α)

def snapshot (decisions : Decisions α specs) : List (AxisDecision α) :=
  (List.finRange specs.length).filterMap decisions

/-- `decisions[idx] = d`. -/
def Decisions.put (decisions : Decisions α specs) (idx : Fin specs.length) (d : AxisDecision α) :
    Decisions α specs :=
  Function.update decisions idx (some d)

def demotedDecision (spec : AxisSpec) (reasoning : String) : AxisDecision α where
  spec := spec
  batchSize := spec.defaultBatchSize
  reasoning := reasoning
  strategy := .chunkedMap spec.defaultBatchSize

def demotedText (spec : AxisSpec) (step : Nat) (before estimate bytes : Int) : String :=
  "joint-budget: demoted to " ++ chunkedText spec ++ " at step " ++ toString step ++
    " (estimate " ++ toString before ++ " -> " ++ toString estimate ++ " B, budget " ++
    toString bytes ++ " B)"

/-- The loop of `_greedy_demote` over the candidates. -/
def demoteLoop (budget : MemoryBudget α) :
    List (Fin specs.length) → Decisions α specs → Int → Nat →
      Except PlanError (Decisions α specs × Int)
  | [], decisions, estimate, _ => .ok (decisions, estimate)
  | idx :: rest, decisions, estimate, step =>
    if estimate ≤ budget.bytes then .ok (decisions, estimate)
    else
      let spec := specs.get idx
      let trial := decisions.put idx
        (demotedDecision spec "joint-budget: demoted (pending final estimate)")
      match budget.estimate (snapshot trial) with
      | none => .error .estimate
      | some after =>
        demoteLoop budget rest
          (trial.put idx
            (demotedDecision spec (demotedText spec (step + 1) estimate after budget.bytes)))
          after (step + 1)

/-- `_budget_initial_decision` at every pending axis. -/
def initialDecisions (pending : List (Fin specs.length)) (decisions : Decisions α specs) :
    Decisions α specs :=
  pending.foldl (fun decisions idx => decisions.put idx (budgetInitialDecision (specs.get idx)))
    decisions

/-- What may be demoted. -/
def isDemotable (spec : AxisSpec) : Bool :=
  !spec.heterogeneous && spec.defaultBatchSize < spec.cardinality

def candidatesOf (pending : List (Fin specs.length)) : List (Fin specs.length) :=
  pending.filter fun idx => isDemotable (specs.get idx)

def greedyDemote (budget : MemoryBudget α) (decisions : Decisions α specs)
    (pending : List (Fin specs.length)) : Except PlanError (Decisions α specs × Int × Nat) :=
  let decisions := initialDecisions pending decisions
  match budget.estimate (snapshot decisions) with
  | none => .error .estimate
  | some estimate =>
    (demoteLoop budget (candidatesOf pending) decisions estimate 0).map fun (decisions, estimate) =>
      (decisions, estimate, (candidatesOf pending).length)

/-- Where the loop of `_plan_joint_budget` over `dedup_indices` is. -/
structure JointState (α : Type) (specs : List AxisSpec) where
  decisions : Decisions α specs
  pending : List (Fin specs.length)
  estimate : Int
  candidates : Nat
  dropped : List (Fin specs.length)

instance lawfulBEqIndex : LawfulBEq (Fin specs.length) := inferInstance

/-- `sorted({*pending, idx})`. -/
def insertPending (pending : List (Fin specs.length)) (idx : Fin specs.length) :
    List (Fin specs.length) :=
  (List.finRange specs.length).filter fun i => i ∈ pending ∨ i = idx

/-- A dedup axis is planned without dedup, and the plan is made again. -/
def release (deviceLimit : Int) (p : Planner α) (budget : MemoryBudget α)
    (st : JointState α specs) (idx : Fin specs.length) :
    Except PlanError (JointState α specs) :=
  let spec := specs.get idx
  if spec.role = .unknown then .error (.ambiguousAxis spec.name)
  else
    let redecided : Except PlanError (Decisions α specs × List (Fin specs.length)) :=
      if spec.bucketBoundaries = none then
        .ok (Function.update st.decisions idx none, insertPending st.pending idx)
      else (decideStrategy deviceLimit p spec).map fun d => (st.decisions.put idx d, st.pending)
    match redecided with
    | .error e => .error e
    | .ok (decisions, pending) =>
      (greedyDemote budget decisions pending).map fun (decisions, estimate, candidates) =>
        { decisions := decisions
          pending := pending
          estimate := estimate
          candidates := candidates
          dropped := st.dropped ++ [idx] }

/-- The loop over `dedup_indices`. -/
def releaseLoop (deviceLimit : Int) (p : Planner α) (budget : MemoryBudget α) :
    List (Fin specs.length) → JointState α specs → Except PlanError (JointState α specs)
  | [], st => .ok st
  | idx :: rest, st =>
    if st.estimate ≤ budget.bytes then .ok st
    else
      match release deviceLimit p budget st idx with
      | .error e => .error e
      | .ok st => releaseLoop deviceLimit p budget rest st

/-- The reasoning of an axis that has kept its initial strategy. -/
def finalDecision (budget : MemoryBudget α) (estimate : Int) (spec : AxisSpec)
    (d : AxisDecision α) : AxisDecision α :=
  let final reasoning : AxisDecision α :=
    { spec := spec
      batchSize := spec.defaultBatchSize
      reasoning := reasoning
      strategy := d.strategy }
  match d.strategy with
  | .chunkedMap _ =>
    if spec.heterogeneous then
      final ("joint-budget: heterogeneous axis fixed to " ++ chunkedText spec ++
        "; Vmap is invalid when element shapes vary (final estimate " ++ toString estimate ++
        " B, budget " ++ toString budget.bytes ++ " B)")
    else d
  | .vmap =>
    if spec.cardinality ≤ spec.defaultBatchSize then
      final ("joint-budget: Vmap (cardinality " ++ toString spec.cardinality ++
        " <= batch_size " ++ toString spec.defaultBatchSize ++
        "; demotion would be a no-op; final estimate " ++ toString estimate ++ " B <= budget " ++
        toString budget.bytes ++ " B)")
    else
      final ("joint-budget: Vmap retained (final estimate " ++ toString estimate ++
        " B <= budget " ++ toString budget.bytes ++ " B)")
  | _ => d

/-- The decisions at these indices are made anew from what they are. -/
def Decisions.remake (f : Fin specs.length → AxisDecision α → AxisDecision α)
    (l : List (Fin specs.length)) (decisions : Decisions α specs) : Decisions α specs :=
  l.foldl
    (fun decisions idx =>
      match decisions idx with
      | none => decisions
      | some d => decisions.put idx (f idx d))
    decisions

/-- `_finalize_budget_reasoning`. -/
def finalizeReasoning (budget : MemoryBudget α) (estimate : Int)
    (pending : List (Fin specs.length)) (decisions : Decisions α specs) : Decisions α specs :=
  decisions.remake (fun idx d => finalDecision budget estimate (specs.get idx) d) pending

/-- What the reasoning of a released axis says in the end. -/
def droppedDecision (budget : MemoryBudget α) (d : AxisDecision α) : AxisDecision α :=
  { d with
    reasoning := d.reasoning ++ "; DedupSpec dropped: MemoryBudget " ++ toString budget.bytes ++
      " B infeasible with DedupGather (#5175)" }

def noteDropped (budget : MemoryBudget α) (dropped : List (Fin specs.length))
    (decisions : Decisions α specs) : Decisions α specs :=
  decisions.remake (fun _ d => droppedDecision budget d) dropped

def planJointBudget (deviceLimit : Int) (p : Planner α) (budget : MemoryBudget α)
    (decisions : Decisions α specs) (pending dedupIndices : List (Fin specs.length)) :
    Except PlanError (Decisions α specs) :=
  match greedyDemote budget decisions pending with
  | .error e => .error e
  | .ok (decisions, estimate, candidates) =>
    match releaseLoop deviceLimit p budget dedupIndices
      { decisions := decisions
        pending := pending
        estimate := estimate
        candidates := candidates
        dropped := [] } with
    | .error e => .error e
    | .ok st =>
      if budget.bytes < st.estimate then
        .error (.budgetInfeasible st.estimate budget.bytes st.candidates (st.dropped ≠ [])
          ((snapshot st.decisions).map fun d => (d.spec.name, d.strategy.typeName)))
      else
        .ok (noteDropped budget st.dropped
          (finalizeReasoning budget st.estimate st.pending st.decisions))

/-- What `plan` makes of the axes before any budget. -/
def firstPass (deviceLimit : Int) (p : Planner α) (specs : List AxisSpec) :
    Except PlanError (List (Phase α)) :=
  match mergeDedupSpecs p.dedupSpecs with
  | .error e => .error e
  | .ok dedup => phasesOf deviceLimit p dedup specs

/-- What the loop has made of an axis. -/
def phaseAt (phases : List (Phase α)) (idx : Fin specs.length) : Phase α := phases.getD idx .pending

def pendingIndices (phases : List (Phase α)) : List (Fin specs.length) :=
  (List.finRange specs.length).filter fun idx => (phaseAt phases idx).isPending

def dedupIndices (phases : List (Phase α)) : List (Fin specs.length) :=
  (List.finRange specs.length).filter fun idx => (phaseAt phases idx).isDedup

def plan (deviceLimit : Int) (p : Planner α) (specs : List AxisSpec) :
    Except PlanError (List (AxisDecision α)) :=
  match firstPass deviceLimit p specs with
  | .error e => .error e
  | .ok phases =>
    let decisions : Decisions α specs := fun idx => (phaseAt phases idx).decision
    match p.budget with
    | none => .ok (snapshot decisions)
    | some budget =>
      (planJointBudget deviceLimit p budget decisions (pendingIndices phases)
        (dedupIndices phases)).map snapshot

end

end Xtrax.BatchPlanner
