import Xtrax.Worklist

/-!
# Backward slices

A StableHLO module is a list of functions, a function a block of operations whose last one
returns, and an operation may carry regions of blocks of further operations.  Operations are known
by their identity (`OpId`), and a result of one by the operation and its index.

`_backward_slice_ops` reaches an operation by one of its results, as part of the region of an
operation it reached, or through the return of a function that is called.  What it returns is
compared between probes.
-/

namespace Xtrax.Slices

open Worklist

abbrev OpId := Nat

/-- A value: an argument of a block, or a result of an operation. -/
inductive Value
  | blockArgument (index : Nat)
  | result (owner : OpId) (index : Nat)
  deriving DecidableEq

/-- An operation; `callee` is the symbol that a `func.call` calls. -/
inductive Op where
  | mk (id : OpId) (callee : Option String) (operands : List Value) (numResults : Nat)
    (regions : List (List (List Op)))

namespace Op

def id : Op → OpId
  | mk id _ _ _ _ => id

/-- `_call_callee_sym_name`. -/
def callee : Op → Option String
  | mk _ callee _ _ _ => callee

def operands : Op → List Value
  | mk _ _ operands _ _ => operands

def numResults : Op → Nat
  | mk _ _ _ numResults _ => numResults

def results (op : Op) : List Value := (List.range op.numResults).map (.result op.id)

end Op

mutual

/-- `_all_ops_in_region_tree`.  The source recurses too: regions nest as deep as the interpreter
allows. -/
def allOpsInRegionTree : Op → List Op
  | .mk _ _ _ _ regions => opsOfRegions regions

def opsOfRegions : List (List (List Op)) → List Op
  | [] => []
  | region :: rest => opsOfRegion region ++ opsOfRegions rest

def opsOfRegion : List (List Op) → List Op
  | [] => []
  | block :: rest => opsOfBlock block ++ opsOfRegion rest

def opsOfBlock : List Op → List Op
  | [] => []
  | nested :: rest => nested :: (allOpsInRegionTree nested ++ opsOfBlock rest)

end

/-- A `func.func`: its symbol, the `jax.result_info` of its results, and its entry block. -/
structure Func where
  symName : String
  resultInfos : List String := []
  body : List Op

/-- `_entry_block_ops(func)[-1].operands`. -/
def Func.returns (f : Func) : List Value :=
  match f.body.getLast? with
  | none => []
  | some op => op.operands

def Func.allOps (f : Func) : List Op := f.body ++ f.body.flatMap allOpsInRegionTree

def allModuleOps (funcs : List Func) : List Op := funcs.flatMap Func.allOps

/-- `_resolve_func_by_sym_name`. -/
def resolveFunc (funcs : List Func) (symName : String) : Option Func :=
  funcs.find? fun f => f.symName = symName

/-- The value is an argument, or a result of an operation of the module. -/
def ValidIn (funcs : List Func) : Value → Prop
  | .blockArgument _ => True
  | .result owner index => ∃ op ∈ allModuleOps funcs, op.id = owner ∧ index < op.numResults

/-- A module that verifies: operations are told apart, operands are visible where they are used,
functions have a body, and calls name a function with as many results. -/
structure Module where
  funcs : List Func
  ids_nodup : ((allModuleOps funcs).map Op.id).Nodup
  operands_valid : ∀ op ∈ allModuleOps funcs, ∀ v ∈ op.operands, ValidIn funcs v
  /-- A result is only used in the region that defines it. -/
  operands_visible : ∀ outer ∈ allModuleOps funcs, ∀ owner ∈ allOpsInRegionTree outer,
    ∀ op ∈ allModuleOps funcs, ∀ index, .result owner.id index ∈ op.operands →
      op ∈ allOpsInRegionTree outer
  body_ne_nil : ∀ f ∈ funcs, f.body ≠ []
  calls_resolve : ∀ op ∈ allModuleOps funcs, ∀ symName, op.callee = some symName →
    ∃ f, resolveFunc funcs symName = some f ∧ f.returns.length = op.numResults

namespace Module

variable (m : Module)

def allOps : List Op := allModuleOps m.funcs

/-- The operation with this identity. -/
def op? (id : OpId) : Option Op := m.allOps.find? fun op => op.id = id

/-- `_module_entry_func`. -/
def entryFunc : Option Func :=
  match m.funcs with
  | [] => none
  | [f] => some f
  | f :: rest => ((f :: rest).find? fun g => g.symName = "main").or (some f)

end Module

/-! ### The walk -/

/-- What the walk raises: its value has no owner, a call no function, or a result no return. -/
inductive SliceError
  | noOwner (owner : OpId)
  | noFunc (symName : String)
  | noReturn (symName : String) (index returned : Nat)

/-- `visited`, `followed_call_results`, and the stack with its top first. -/
structure Walk where
  visited : List OpId := []
  followed : List (OpId × Nat) := []
  stack : List Value

/-- `stack.extend(values)`. -/
def Walk.extend (w : Walk) (values : List Value) : Walk :=
  { w with stack := values.reverse ++ w.stack }

/-- A nested operation is visited, and all its results are followed if it is a call. -/
def Walk.visitNested (w : Walk) (nested : Op) : Walk :=
  if nested.id ∈ w.visited then w
  else
    let w := { w with visited := nested.id :: w.visited }.extend nested.operands
    if nested.callee.isSome then w.extend nested.results else w

/-- An operation is visited with all that is nested in it. -/
def Walk.visit (w : Walk) (op : Op) : Walk :=
  if op.id ∈ w.visited then w
  else
    ((allOpsInRegionTree op).foldl Walk.visitNested
      { w with visited := op.id :: w.visited }).extend op.operands

/-- The result of a call is followed into the callee's return. -/
def Walk.follow (m : Module) (w : Walk) (op : Op) (index : Nat) : Except SliceError Walk :=
  match op.callee with
  | none => .ok w
  | some symName =>
    if (op.id, index) ∈ w.followed then .ok w
    else match resolveFunc m.funcs symName with
      | none => .error (.noFunc symName)
      | some f => match f.returns[index]? with
        | none => .error (.noReturn symName index f.returns.length)
        | some v => .ok { w with
            followed := (op.id, index) :: w.followed
            stack := v :: w.stack }

/-- One pass of the loop. -/
def Walk.step (m : Module) (w : Walk) : Except SliceError Walk :=
  match w.stack with
  | [] => .ok w
  | .blockArgument _ :: rest => .ok { w with stack := rest }
  | .result owner index :: rest =>
    match m.op? owner with
    | none => .error (.noOwner owner)
    | some op => ({ w with stack := rest }.visit op).follow m op index

/-- What the operation may still add to the stack. -/
def Op.weight (op : Op) : Nat := op.operands.length + op.numResults

def Module.callResults (m : Module) : List (OpId × Nat) :=
  (m.allOps.filter (·.callee.isSome)).flatMap fun op =>
    (List.range op.numResults).map fun index => (op.id, index)

/-- What the walk may still do. -/
def Walk.measure (m : Module) (w : Walk) : Nat :=
  w.stack.length + remaining Op.id Op.weight m.allOps w.visited +
    remaining (fun r : OpId × Nat => r) (fun _ => 1) m.callResults w.followed

def backwardSliceOps (m : Module) (value : Value) : Except SliceError (Option (List OpId)) :=
  let start : Walk := { stack := [value] }
  (whileLoop (fun w => !w.stack.isEmpty) (Walk.step m) (start.measure m) start).map
    fun ended => ended.map Walk.visited

/-! ### The slices of probes -/

/-- What a check of probes raises.  `unfinished` stands for a walk that does not end, and `noIndex`
for an operation that the module does not list. -/
inductive ProbeError
  | noEntry
  | noResult (name target : String)
  | noOperand (index : Nat)
  | slice (e : SliceError)
  | unfinished
  | noIndex (op : OpId)
  | missing (pred probe : String)
  | dependency (pred probe : String) (predSlice probeSlice : List Nat)

def probeOperand (f : Func) (name target : String) : Except ProbeError Value :=
  match f.resultInfos.idxOf? target with
  | none => .error (.noResult name target)
  | some index => match f.returns[index]? with
    | none => .error (.noOperand index)
    | some v => .ok v

/-- `op_index[op] for op in ops`. -/
def indicesOf (m : Module) : List OpId → Except ProbeError (List Nat)
  | [] => .ok []
  | id :: rest =>
    match m.allOps.findIdx? fun op => op.id = id with
    | none => .error (.noIndex id)
    | some index => (indicesOf m rest).map (index :: ·)

/-- The slice of a value, as indices into the module's operations. -/
def sliceIndices (m : Module) (v : Value) : Except ProbeError (List Nat) :=
  match backwardSliceOps m v with
  | .error e => .error (.slice e)
  | .ok none => .error .unfinished
  | .ok (some ops) => indicesOf m ops

/-- The loop of `_compute_probe_slices`. -/
def computeSlices (m : Module) (f : Func) :
    List (String × String) → Except ProbeError (List (String × List Nat))
  | [] => .ok []
  | (name, target) :: rest => do
    let v ← probeOperand f name target
    let slice ← sliceIndices m v
    let slices ← computeSlices m f rest
    return (name, slice) :: slices

/-- `_compute_probe_slices`, without the number of operations. -/
def computeProbeSlices (m : Module) (paths : List (String × String)) :
    Except ProbeError (List (String × List Nat)) :=
  match m.entryFunc with
  | none => .error .noEntry
  | some f => computeSlices m f paths

/-- The check of the declared edges, predecessor first. -/
def checkEdges (slices : List (String × List Nat)) :
    List (String × String) → Except ProbeError Unit
  | [] => .ok ()
  | (pred, probe) :: rest =>
    match slices.lookup pred, slices.lookup probe with
    | some predSlice, some probeSlice =>
      if predSlice ⊆ probeSlice then checkEdges slices rest
      else .error (.dependency pred probe predSlice probeSlice)
    | _, _ => .error (.missing pred probe)

def validateProbeDeps (m : Module) (probeDeps : List (String × List String))
    (paths : List (String × String)) : Except ProbeError Unit := do
  let slices ← computeProbeSlices m paths
  checkEdges slices (probeDeps.flatMap fun entry => entry.2.map fun pred => (pred, entry.1))

/-! ### Dataflow -/

/-- What influences, and what is influenced. -/
inductive Node where
  | value (v : Value)
  | op (op : Op)

/-- The second node influences the first at once: an operation its result, an operand its
operation, an operation of a region the one that carries it, a return the result of a call. -/
inductive Flows (m : Module) : Node → Node → Prop
  | owner {op : Op} {index : Nat} : op ∈ m.allOps →
      Flows m (.value (.result op.id index)) (.op op)
  | operand {op : Op} {v : Value} : v ∈ op.operands → Flows m (.op op) (.value v)
  | region {op nested : Op} : nested ∈ allOpsInRegionTree op → Flows m (.op op) (.op nested)
  | callee {op : Op} {symName : String} {f : Func} {index : Nat} {v : Value} : op ∈ m.allOps →
      op.callee = some symName → resolveFunc m.funcs symName = some f →
      f.returns[index]? = some v → Flows m (.value (.result op.id index)) (.value v)

/-- The operation can influence the value. -/
def Influences (m : Module) (v : Value) (op : Op) : Prop :=
  Relation.ReflTransGen (Flows m) (.value v) (.op op)

/-- The first value depends on the second. -/
def DependsOn (m : Module) (v u : Value) : Prop :=
  Relation.ReflTransGen (Flows m) (.value v) (.value u)

/-- The return operand that a probe stands for. -/
def probeValue (m : Module) (paths : List (String × String)) (name : String) : Option Value := do
  let f ← m.entryFunc
  let target ← paths.lookup name
  f.returns[← f.resultInfos.idxOf? target]?

end Xtrax.Slices
