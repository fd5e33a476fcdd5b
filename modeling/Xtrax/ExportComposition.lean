import Mathlib.Data.Fintype.Basic
import Mathlib.Data.Fintype.Sigma
import Mathlib.Data.Nat.Size
import Mathlib.Data.List.Dedup
import Mathlib.Tactic.Common

/-!
# From a one-axis plan to a traceable callable

A plan is checked for export (`validatePlanTopology`), its materializing sinks are replaced by
calls that do nothing (`boundariesForExport`), and the axis is folded into one callable
(`buildTraceableCallable`), which runs the axis by the executor of its strategy.

An input of `n` elements is a list.  An output is a tree of arrays: each leaf `i` has its own
type of values, and the stack of `n` outputs holds a list of `n` values at each leaf.  Tracing a
function raises what calling it raises.
-/

namespace Xtrax.ExportComposition

/-! ### Arrays -/

/-- The leaves of one output of a function, as `jax.eval_shape` tells them. -/
structure OutStruct (ι : Type) where
  Leaf : ι → Type
  /-- `math.prod(s.shape) == 0`. -/
  zeroSize : ι → Bool
  /-- The dtype is an extended one, such as that of typed PRNG keys. -/
  extended : ι → Bool
  /-- `jnp.zeros` of the leaf's shape. -/
  zeros : ∀ i, zeroSize i = true → Leaf i
  /-- An array without entries has one value. -/
  zeros_unique : ∀ i (h : zeroSize i = true) (a : Leaf i), a = zeros i h

namespace OutStruct

variable {ι : Type} (S : OutStruct ι)

/-- One output. -/
abbrev Value : Type := ∀ i, S.Leaf i

/-- The outputs of several elements, stacked along a new leading axis. -/
abbrev Stacked : Type := ∀ i, List (S.Leaf i)

/-- The leaves `kept` leaves over. -/
def restrict (p : ι → Prop) : OutStruct { i // p i } where
  Leaf := fun i => S.Leaf i.1
  zeroSize := fun i => S.zeroSize i.1
  extended := fun i => S.extended i.1
  zeros := fun i h => S.zeros i.1 h
  zeros_unique := fun i h a => S.zeros_unique i.1 h a

end OutStruct

inductive PyError
  | typeError
  | zeroDivision
  | zeroLength
  | orderedVmap
  | unsupportedStrategy
  | noInit
  | noDecisions
  | multiAxis
  | badDedup
  deriving DecidableEq, Repr

section Arrays

variable {ι : Type} {S : OutStruct ι} {X : Type}

/-- The stack of several outputs. -/
def stack (ys : List S.Value) : S.Stacked := fun i => ys.map fun y => y i

/-- `jax.vmap(fn)(xs)`. -/
def vmap (fn : X → Except PyError S.Value) (xs : List X) : Except PyError S.Stacked :=
  stack <$> xs.mapM fn

/-- `jax.lax.map(fn, xs)`. -/
def laxMap (fn : X → Except PyError S.Value) (xs : List X) : Except PyError S.Stacked :=
  stack <$> xs.mapM fn

/-- `jax.lax.map(fn, xs, batch_size=b)`: the elements cannot be divided into batches of no
element. -/
def laxMapBatched (fn : X → Except PyError S.Value) (xs : List X) (b : Int) :
    Except PyError S.Stacked :=
  if b < 1 then .error .zeroDivision else stack <$> xs.mapM fn

/-- `_apply_size1`: `fn` at the one element, and a new axis of length 1. -/
def applySize1 (fn : X → Except PyError S.Value) (x : X) : Except PyError S.Stacked :=
  (fun y => stack [y]) <$> fn x

/-- `jax.eval_shape(fn, element)`: `fn` is traced, for what it raises. -/
def evalShape (fn : X → Except PyError S.Value) : List X → Except PyError Unit
  | [] => .ok ()
  | x :: _ => (fun _ => ()) <$> fn x

/-- `chunked_map` from the test for `batch_size=1` on. -/
def chunkedMapBatches (fn : X → Except PyError S.Value) (xs : List X) (b : Int) :
    Except PyError S.Stacked :=
  if b = 1 then laxMap fn xs
  else if 1 < b ∧ (xs.length : Int) % b = 1 then
    match xs.getLast? with
    | none => laxMapBatched fn xs b
    | some last => do
      let prefixYs ← laxMapBatched fn xs.dropLast b
      let lastY ← applySize1 fn last
      return fun i => prefixYs i ++ lastY i
  else laxMapBatched fn xs b

variable [Fintype ι]

/-- `_split_zero_size_outputs` finds leaves to leave out. -/
def splits (S : OutStruct ι) : Bool :=
  decide (∃ i, S.zeroSize i = true) && !decide (∃ i, S.zeroSize i = true ∧ S.extended i = true)

/-- `keep_nonempty`: `fn` restricted to its non-empty output leaves. -/
def keepNonempty (fn : X → Except PyError S.Value) (x : X) :
    Except PyError (S.restrict fun i => S.zeroSize i = false).Value :=
  (fun y i => y i.1) <$> fn x

def keptLeaf (kept : (S.restrict fun i => S.zeroSize i = false).Stacked) (i : ι)
    (h : S.zeroSize i = false) : List (S.Leaf i) := kept ⟨i, h⟩

/-- The leaves of `fn`'s output in their places, the empty ones rebuilt. -/
def reassemble (n : Nat) (kept : (S.restrict fun i => S.zeroSize i = false).Stacked) : S.Stacked :=
  fun i =>
    if h : S.zeroSize i = true then List.replicate n (S.zeros i h)
    else keptLeaf kept i (eq_false_of_ne_true h)

/-- `_chunked_map_without_zero_size`.  No leaf that is kept is empty, so the inner `chunked_map`
finds nothing to split. -/
def chunkedMapWithoutZeroSize (fn : X → Except PyError S.Value) (xs : List X) (b : Int) :
    Except PyError S.Stacked :=
  reassemble xs.length <$>
    if ∃ i, S.zeroSize i = false then chunkedMapBatches (keepNonempty fn) xs b
    else .ok fun _ => []

/-- `chunked_map` of more than `batch_size` elements. -/
def chunkedMapSplit (fn : X → Except PyError S.Value) (xs : List X) (b : Int) :
    Except PyError S.Stacked :=
  if splits S then chunkedMapWithoutZeroSize fn xs b else chunkedMapBatches fn xs b

/-- `chunked_map` of other than one element. -/
def chunkedMapMany (fn : X → Except PyError S.Value) (xs : List X) :
    Option Int → Except PyError S.Stacked
  | none => vmap fn xs
  | some b =>
    if (xs.length : Int) ≤ b then vmap fn xs
    else evalShape fn xs >>= fun _ => chunkedMapSplit fn xs b

/-- `chunked_map(fn, xs, batch_size)`. -/
def chunkedMap (fn : X → Except PyError S.Value) (xs : List X) (batchSize : Option Int) :
    Except PyError S.Stacked :=
  match xs with
  | [x] => applySize1 fn x
  | xs => chunkedMapMany fn xs batchSize

/-- `jax.lax.scan`. -/
def laxScan {C : Type} (fn : C → X → Except PyError (C × S.Value)) (carry : C) :
    List X → Except PyError (C × List S.Value)
  | [] => .ok (carry, [])
  | x :: xs => do
    let (carry', y) ← fn carry x
    let (final, ys) ← laxScan fn carry' xs
    return (final, y :: ys)

def safeScan {C : Type} (fn : C → X → Except PyError (C × S.Value)) (init : C) (xs : List X) :
    Except PyError (C × S.Stacked) :=
  if xs = [] then .error .zeroLength
  else (fun r => (r.1, stack r.2)) <$> laxScan fn init xs

end Arrays

/-- `a[indices]`: an index past the end is clamped to the last entry. -/
def take {α : Type} (a : List α) (indices : List Nat) : List α :=
  indices.filterMap fun i => a[min i (a.length - 1)]?

/-! ### Plans and boundaries -/

section Plan

variable {ι : Type} (S : OutStruct ι) (X C V : Type)

/-- What a sink is called with. -/
inductive SinkArgs
  | one (y : S.Value)
  | two (y : S.Value) (index : Nat)

structure Sink where
  ordered : Bool
  /-- What the call raises, if anything; what it returns is discarded. -/
  call : SinkArgs S → Except PyError Unit

structure Tap where
  ordered : Bool
  call : S.Value → S.Value

/-- The values a fuse returns are those of `V`. -/
structure AxisBoundary where
  fuse : Option (S.Stacked → V) := none
  tap : Option (Tap S) := none
  sink : Option (Sink S) := none
  materialize : Bool := false
  sinkReceivesIndex : Bool := false

/-- `DedupGather`, the arrays it carries and its two functions. -/
structure DedupGather where
  uniqueIndices : List Nat
  indexMap : List Nat
  k : Nat
  kBucket : Nat
  dedupFn : List X → List Nat → List X
  gatherFn : S.Stacked → List Nat → S.Stacked

inductive Strategy
  | vmap
  | chunkedMap (batchSize : Int)
  | scan (init : Option C)
  | dedupGather (dedup : DedupGather S X)
  | bucket (boundaries : List Nat)
  | whileCarry

/-- The callable that a plan is composed with: a per-element function, or a transition. -/
inductive StepFn
  | element (fn : X → S.Value)
  | transition (fn : C → X → C × S.Value)

structure AxisSpec where
  name : String
  heterogeneous : Bool := false

structure AxisDecision where
  spec : AxisSpec
  strategy : Strategy S X C

abbrev Boundaries := List (String × AxisBoundary S V)

end Plan

section

variable {ι : Type} {S : OutStruct ι} {X C V : Type}

/-! ### `DedupSpec` -/

def defaultGatherFn (ys : S.Stacked) (indices : List Nat) : S.Stacked := fun i => take (ys i) indices

/-- `DedupSpec`, with the checks of `__post_init__`. -/
structure DedupSpec (S : OutStruct ι) (X : Type) where
  axisName : String
  uniqueIndices : List Nat
  indexMap : List Nat
  k : Nat
  dedupFn : Option (List X → List Nat → List X) := none
  gatherFn : Option (S.Stacked → List Nat → S.Stacked) := none
  length_unique : uniqueIndices.length = k
  distinct_slots : indexMap.dedup.length = k
  slot_lt : ∀ j ∈ indexMap, j < k

/-- `get_k_bucket`: the next power of 2. -/
def getKBucket (k : Nat) : Except PyError Nat :=
  if k = 0 then .error .badDedup else .ok (2 ^ (k - 1).size)

/-- `np.pad(a, (0, n), mode="edge")`. -/
def padEdge (a : List Nat) (n : Nat) : List Nat :=
  a ++ List.replicate n (a.getLast?.getD 0)

def DedupSpec.toDedupGather (spec : DedupSpec S X) : Except PyError (DedupGather S X) := do
  let kBucket ← getKBucket spec.k
  return {
    uniqueIndices := padEdge spec.uniqueIndices (kBucket - spec.k)
    indexMap := spec.indexMap
    k := spec.k
    kBucket := kBucket
    dedupFn := spec.dedupFn.getD take
    gatherFn := spec.gatherFn.getD defaultGatherFn }

/-! ### `validate_plan_topology` -/

inductive TopologyError
  | scanOnHeterogeneous (axis : String)
  | orderedTapOnVmap (axis : String)
  | orderedSinkOnVmap (axis : String)
  | tapAtExport (axis : String)
  | materializeWithoutSink (axis : String)
  | sinkAtExport (axis : String)
  | materializeFuseConflict (axis : String)
  | notExportable (axis : String)
  | multipleMaterialize (axes : List String)
  deriving DecidableEq, Repr

/-- `strategy_name in _EXPORTABLE_STRATEGIES`. -/
def Strategy.exportable : Strategy S X C → Bool
  | .vmap | .chunkedMap _ | .scan _ | .dedupGather _ => true
  | .bucket _ | .whileCarry => false

def checkExportBoundary (axis : String) :
    Option (AxisBoundary S V) → Except TopologyError Bool
  | none => .ok false
  | some boundary =>
    if boundary.tap.isSome then .error (.tapAtExport axis)
    else if boundary.materialize ∧ boundary.sink.isNone then
      .error (.materializeWithoutSink axis)
    else if boundary.sink.isSome ∧ ¬ boundary.materialize then .error (.sinkAtExport axis)
    else if boundary.sink.isSome ∧ boundary.materialize ∧ boundary.fuse.isSome then
      .error (.materializeFuseConflict axis)
    else .ok boundary.materialize

/-- Rule 1. -/
def checkScan (d : AxisDecision S X C) : Except TopologyError Unit :=
  match d.strategy with
  | .scan _ =>
    if d.spec.heterogeneous then .error (.scanOnHeterogeneous d.spec.name) else .ok ()
  | _ => .ok ()

/-- Rule 2. -/
def checkVmapOrder (d : AxisDecision S X C) (boundary : Option (AxisBoundary S V)) :
    Except TopologyError Unit :=
  match d.strategy, boundary with
  | .vmap, some boundary =>
    if (boundary.tap.map Tap.ordered).getD false then .error (.orderedTapOnVmap d.spec.name)
    else if (boundary.sink.map Sink.ordered).getD false then
      .error (.orderedSinkOnVmap d.spec.name)
    else .ok ()
  | _, _ => .ok ()

/-- The rules at one decision: whether the axis materializes. -/
def checkDecision (boundaries : Boundaries S V) (exportSafe : Bool) (d : AxisDecision S X C) :
    Except TopologyError Bool := do
  checkScan d
  checkVmapOrder d (boundaries.lookup d.spec.name)
  if exportSafe then
    let materializes ← checkExportBoundary d.spec.name (boundaries.lookup d.spec.name)
    if d.strategy.exportable then return materializes else .error (.notExportable d.spec.name)
  else return false

def validatePlanTopology (decisions : List (AxisDecision S X C)) (boundaries : Boundaries S V)
    (exportSafe : Bool) : Except TopologyError Unit := do
  let flags ← decisions.mapM (checkDecision boundaries exportSafe)
  let axes := ((decisions.zip flags).filter fun e => e.2).map fun e => e.1.spec.name
  if 1 < axes.length then .error (.multipleMaterialize axes) else return ()

/-! ### `_boundaries_for_export` -/

/-- `_StrippedSink`: it is called with one argument. -/
def strippedSink (ordered : Bool) : Sink S where
  ordered := ordered
  call := fun args =>
    match args with
    | .one _ => .ok ()
    | .two _ _ => .error .typeError

/-- One boundary with its sink stripped, if it materializes. -/
def AxisBoundary.stripped (boundary : AxisBoundary S V) : AxisBoundary S V :=
  { boundary with
    sink := boundary.sink.map fun sink =>
      if boundary.materialize then strippedSink sink.ordered else sink }

def boundariesForExport (boundaries : Boundaries S V) : Boundaries S V :=
  boundaries.map fun e => (e.1, e.2.stripped)

/-! ### The executors -/

def hasOrderedOp : Option (AxisBoundary S V) → Bool
  | none => false
  | some boundary =>
    (boundary.tap.map Tap.ordered).getD false || (boundary.sink.map Sink.ordered).getD false

/-- `_sink_receives_index`. -/
def receivesIndex : Option (AxisBoundary S V) → Bool
  | none => false
  | some boundary => boundary.sink.isSome && boundary.sinkReceivesIndex

/-- `_attach_index`, or the elements as they are. -/
def mappedXs (withIndex : Bool) (xs : List X) : List (X × Option Nat) :=
  if withIndex then xs.zipIdx.map fun e => (e.1, some e.2) else xs.map fun x => (x, none)

def AxisBoundary.applyTap (boundary : AxisBoundary S V) (y : S.Value) : S.Value :=
  match boundary.tap with
  | some tap => tap.call y
  | none => y

/-- The call of the sink: with the position, if there is one. -/
def AxisBoundary.emit (boundary : AxisBoundary S V) (y : S.Value) (index : Option Nat) :
    Except PyError Unit :=
  match boundary.sink, index with
  | none, _ => .ok ()
  | some sink, none => sink.call (.one y)
  | some sink, some i => sink.call (.two y i)

/-- `_apply_step_boundary`: the tap, then the sink. -/
def applyStepBoundary (y : S.Value) (boundary : Option (AxisBoundary S V)) (index : Option Nat) :
    Except PyError S.Value :=
  match boundary with
  | none => .ok y
  | some boundary => (fun _ => boundary.applyTap y) <$> boundary.emit (boundary.applyTap y) index

/-- `_wrap_step`, over elements with the position that `_attach_index` gave them. -/
def wrapStep (fn : X → Except PyError S.Value) (boundary : Option (AxisBoundary S V))
    (x : X × Option Nat) : Except PyError S.Value := do
  let y ← fn x.1
  applyStepBoundary y boundary x.2

/-- The executor's and the composer's `_apply_fuse`. -/
def applyFuse (array : S.Stacked → V) (ys : S.Stacked) : Option (AxisBoundary S V) → V
  | some { fuse := some fuse, .. } => fuse ys
  | _ => array ys

/-- The unordered `Vmap` axis: an axis of length 1 is a direct call. -/
def vmapAxis {Y : Type} (fn : Y → Except PyError S.Value) (xs : List Y) :
    Except PyError S.Stacked :=
  match xs with
  | [x] => applySize1 fn x
  | xs => vmap fn xs

variable [Fintype ι]

/-- The two strategies of `execute_map_axis`. -/
inductive MapStrategy
  | vmap
  | chunkedMap (batchSize : Int)

/-- How `execute_map_axis` iterates the wrapped step. -/
def mapAxis {Y : Type} (strategy : MapStrategy) (wrapped : Y → Except PyError S.Value)
    (mapped : List Y) (ordered : Bool) : Except PyError S.Stacked :=
  match strategy with
  | .vmap => if ordered then .error .orderedVmap else vmapAxis wrapped mapped
  | .chunkedMap batchSize =>
    if ordered then laxMap wrapped mapped else chunkedMap wrapped mapped (some batchSize)

def executeMapAxis (array : S.Stacked → V) (fn : X → Except PyError S.Value) (xs : List X)
    (strategy : MapStrategy) (boundary : Option (AxisBoundary S V)) : Except PyError V :=
  (fun ys => applyFuse array ys boundary) <$>
    mapAxis strategy (wrapStep fn boundary) (mappedXs (receivesIndex boundary) xs)
      (hasOrderedOp boundary)

def wrappedTransition (fn : C → X → Except PyError (C × S.Value))
    (boundary : Option (AxisBoundary S V)) (carry : C) (x : X × Option Nat) :
    Except PyError (C × S.Value) := do
  let (carry, y) ← fn carry x.1
  let y ← applyStepBoundary y boundary x.2
  return (carry, y)

def executeScanAxis (array : S.Stacked → V) (fn : C → X → Except PyError (C × S.Value)) (init : C)
    (xs : List X) (boundary : Option (AxisBoundary S V)) : Except PyError (C × V) :=
  (fun r => (r.1, applyFuse array r.2 boundary)) <$>
    safeScan (wrappedTransition fn boundary) init (mappedXs (receivesIndex boundary) xs)

/-- `axis_dispatch` of a `DedupGather` strategy. -/
def dispatchDedup (dedup : DedupGather S X) (fn : X → Except PyError S.Value) (xs : List X) :
    Except PyError S.Stacked := do
  let ys ← chunkedMap fn (dedup.dedupFn xs dedup.uniqueIndices) none
  return dedup.gatherFn ys dedup.indexMap

/-! ### The composer -/

/-- The callable taken as a per-element function, called with one argument. -/
def StepFn.callElement : StepFn S X C → X → Except PyError S.Value
  | .element fn, x => .ok (fn x)
  | .transition _, _ => .error .typeError

/-- The callable taken as a transition, called with two. -/
def StepFn.callTransition : StepFn S X C → C → X → Except PyError (C × S.Value)
  | .element _, _, _ => .error .typeError
  | .transition fn, carry, x => .ok (fn carry x)

def composeSingleAxis (array : S.Stacked → V) (stepFn : StepFn S X C)
    (decision : AxisDecision S X C) (boundary : Option (AxisBoundary S V))
    (scanInit : Option C) : Except PyError (List X → Except PyError V) :=
  match decision.strategy with
  | .vmap => .ok fun xs => executeMapAxis array stepFn.callElement xs .vmap boundary
  | .chunkedMap b =>
    .ok fun xs => executeMapAxis array stepFn.callElement xs (.chunkedMap b) boundary
  | .scan init =>
    match scanInit <|> init with
    | none => .error .noInit
    | some carry =>
      .ok fun xs => Prod.snd <$> executeScanAxis array stepFn.callTransition carry xs boundary
  | .dedupGather dedup => .ok fun xs => array <$> dispatchDedup dedup stepFn.callElement xs
  | .bucket _ => .error .unsupportedStrategy
  | .whileCarry => .error .unsupportedStrategy

/-- `build_traceable_callable`.  A plan of two axes is another composer's. -/
def buildTraceableCallable (array : S.Stacked → V)
    (composeVmapOfScan : AxisDecision S X C → AxisDecision S X C →
      Except PyError (List X → Except PyError V))
    (fn : StepFn S X C) (decisions : List (AxisDecision S X C)) (boundaries : Boundaries S V)
    (scanInit : Option C) : Except PyError (List X → Except PyError V) :=
  match decisions with
  | [] => .error .noDecisions
  | [d] => composeSingleAxis array fn d (boundaries.lookup d.spec.name) scanInit
  | [outer, inner] => composeVmapOfScan outer inner
  | _ => .error .multiAxis

/-- What is exported of a plan, run on an input. -/
def exported (array : S.Stacked → V)
    (composeVmapOfScan : AxisDecision S X C → AxisDecision S X C →
      Except PyError (List X → Except PyError V))
    (fn : StepFn S X C) (decisions : List (AxisDecision S X C)) (boundaries : Boundaries S V)
    (scanInit : Option C) (xs : List X) : Except PyError V := do
  let run ← buildTraceableCallable array composeVmapOfScan fn decisions
    (boundariesForExport boundaries) scanInit
  run xs

/-! ### What the plan means -/

/-- The outputs of a transition over the elements. -/
def scanYs (fn : C → X → C × S.Value) : C → List X → List S.Value
  | _, [] => []
  | carry, x :: xs => (fn carry x).2 :: scanYs fn (fn carry x).1 xs

/-- The function's values at the elements, or the outputs of the scan from its initial carry; none
where the callable is not of the strategy's kind or the carry is missing. -/
def outputs (strategy : Strategy S X C) (fn : StepFn S X C) (scanInit : Option C) (xs : List X) :
    Option (List S.Value) :=
  match strategy, fn with
  | .scan init, .transition fn => (scanInit <|> init).map fun carry => scanYs fn carry xs
  | .vmap, .element fn => some (xs.map fn)
  | .chunkedMap _, .element fn => some (xs.map fn)
  | .dedupGather _, .element fn => some (xs.map fn)
  | _, _ => none

/-- The fuse at the stack of the outputs, or the stack itself. -/
def meant (array : S.Stacked → V) (boundary : Option (AxisBoundary S V)) (ys : List S.Value) : V :=
  match boundary.bind AxisBoundary.fuse with
  | some fuse => fuse (stack ys)
  | none => array (stack ys)

/-- A `DedupSpec` for the rows `xs`: its unique rows, spread by its index map, are the rows again;
functions of its own select by index. -/
structure DedupSpec.Fits (spec : DedupSpec S X) (xs : List X) : Prop where
  unique_lt : ∀ i ∈ spec.uniqueIndices, i < xs.length
  rows : take (take xs spec.uniqueIndices) spec.indexMap = xs
  dedup : ∀ f, spec.dedupFn = some f → ∀ a indices, f a indices = take a indices
  gather : ∀ f, spec.gatherFn = some f → ∀ a indices, f a indices = defaultGatherFn a indices

/-- The executor can divide `n` elements into batches of `b`, or does not have to. -/
def Batchable (S : OutStruct ι) (n : Nat) (b : Int) : Prop :=
  1 ≤ b ∨ n = 1 ∨ (splits S = true ∧ ∀ i, S.zeroSize i = true)

/-- The exported callable means what the plan means: the sink that is stripped is called with one
argument, and no fuse is left out that would change the stack. -/
def Survives (array : S.Stacked → V) (strategy : Strategy S X C)
    (boundary : Option (AxisBoundary S V)) (xs : List X) (ys : List S.Value) : Prop :=
  match strategy with
  | .dedupGather _ =>
    ∀ fuse, boundary.bind AxisBoundary.fuse = some fuse → fuse (stack ys) = array (stack ys)
  | .chunkedMap b =>
    receivesIndex boundary = false ∧ (hasOrderedOp boundary = true ∨ Batchable S xs.length b)
  | _ => receivesIndex boundary = false

end

end Xtrax.ExportComposition
