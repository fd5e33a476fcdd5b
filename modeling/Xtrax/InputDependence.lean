import Mathlib
import Xtrax.GrowingRounds
import Xtrax.Jaxpr

/-!
# Tracing what a program's values depend on

`traceInputDependence` walks the equations of a traced program and writes down, for every
variable, the set of inputs it may depend on.  One dictionary serves the program and all
programs nested in it.

An equation without jaxprs makes each of its outputs depend on all operands.  The bodies of
`scan` and `while` are walked until the sets of the carries stop growing, at most once more
than there are carries.  Any other equation is taken for a call: operands are paired from the
right with the inputs of each callee.

A walk raises, and is absent, where a strict `zip` finds lists of different lengths or where a
parameter is missing.  The depth of nesting is bounded by a first argument.
-/

namespace Xtrax.Dependence

/-- A set of indices of inputs. -/
abbrev Deps := Finset Nat

/-- The dictionary, and the values produced so far: each with the position of its equation. -/
structure Walk where
  deps : Nat → Deps
  produced : List (Nat × String × Deps)

def depOf (deps : Nat → Deps) : Atom → Deps
  | .literal _ => ∅
  | .var v => deps v

/-- `align_call_invars`: each input of the callee with the operand that binds it, if any. -/
def alignCallInvars (outer : List Atom) (inner : List Nat) : List (Nat × Option Atom) :=
  if inner.length ≤ outer.length then
    inner.zip ((outer.drop (outer.length - inner.length)).map some)
  else
    (inner.take (inner.length - outer.length)).map (fun v => (v, none)) ++
      (inner.drop (inner.length - outer.length)).zip (outer.map some)

/-- The union of several sets. -/
def unionAll (ds : List Deps) : Deps := ds.foldr (· ∪ ·) ∅

/-- The union of two lists of sets, one by one. -/
def merge (left right : List Deps) : Option (List Deps) :=
  if left.length = right.length then some (left.zipWith (· ∪ ·) right) else none

section Walk

variable (order : Nat → Option Nat) (visit : Jaxpr → Walk → Option Walk)

def record (e : Eqn Jaxpr) (perOut : List Deps) (w : Walk) : Option Walk := do
  let slot ← order e.id
  let deps ← assign e.outvars perOut w.deps
  return ⟨deps, w.produced ++ perOut.map fun dep => (slot, e.primitive, dep)⟩

/-- `_seed`: walk a body from the sets its inputs are given. -/
def seed (j : Jaxpr) (inDeps : List Deps) (w : Walk) : Option (Walk × List Deps) := do
  let deps ← assign j.invars inDeps w.deps
  let w ← visit j { w with deps := deps }
  return (w, j.outvars.map (depOf w.deps))

/-- The inputs of a callee take the sets of the operands that bind them. -/
def bindInvars : List (Nat × Option Atom) → (Nat → Deps) → Nat → Deps
  | [], deps => deps
  | (inner, none) :: rest, deps => bindInvars rest (Function.update deps inner ∅)
  | (inner, some outer) :: rest, deps =>
    bindInvars rest (Function.update deps inner (depOf deps outer))

/-- `_bind`: walk a callee from the operands of a call. -/
def bind (e : Eqn Jaxpr) (sub : Jaxpr) (w : Walk) : Option (Walk × List Deps) := do
  let deps := bindInvars (alignCallInvars e.invars sub.invars) w.deps
  let w ← visit sub { w with deps := deps }
  return (w, sub.outvars.map (depOf w.deps))

/-- The rounds of `_carry_fixpoint`. -/
def carryRounds (body : Jaxpr) (lead tail : List Deps) (mark : Nat) :
    Nat → List Deps → List Deps → Walk → Option (Walk × List Deps × List Deps)
  | 0, current, outs, w => some (w, current, outs)
  | k + 1, current, _, w => do
    -- records of the round before are dropped
    let (w, outs) ← seed visit body (lead ++ current ++ tail)
      { w with produced := w.produced.take mark }
    let grown ← grow current outs
    if grown = current then return (w, current, outs)
    else carryRounds body lead tail mark k grown outs w

/-- `_carry_fixpoint`: the carries' sets when they stop growing, and the body's outputs in the
last round. -/
def carryFixpoint (body : Jaxpr) (lead carry tail : List Deps) (w : Walk) :
    Option (Walk × List Deps × List Deps) :=
  carryRounds visit body lead tail w.produced.length (carry.length + 1) carry [] w

def visitScan (e : Eqn Jaxpr) (opDeps : List Deps) (w : Walk) : Option Walk := do
  let (nConsts, nCarry) ← e.scanCounts
  let body ← e.body "jaxpr"
  let (w, carry, outs) ← carryFixpoint visit body (opDeps.take nConsts)
    ((opDeps.drop nConsts).take nCarry) (opDeps.drop (nConsts + nCarry)) w
  record order e (carry ++ outs.drop nCarry) w

def visitWhile (e : Eqn Jaxpr) (opDeps : List Deps) (w : Walk) : Option Walk := do
  let nCond ← e.num "cond_nconsts"
  let nBody ← e.num "body_nconsts"
  let condConsts := opDeps.take nCond
  let body ← e.body "body_jaxpr"
  let cond ← e.body "cond_jaxpr"
  let (w, carry, _) ← carryFixpoint visit body ((opDeps.drop nCond).take nBody)
    (opDeps.drop (nCond + nBody)) [] w
  let (w, _) ← seed visit cond (condConsts ++ carry) w
  let trips := unionAll (condConsts ++ carry)
  record order e (carry.map (· ∪ trips)) w

/-- The callees after the first one, each united with those before it. -/
def bindRest (e : Eqn Jaxpr) :
    List Jaxpr → List Deps → Walk → Option (Walk × List Deps)
  | [], merged, w => some (w, merged)
  | sub :: rest, merged, w => do
    let (w, next) ← bind visit e sub w
    bindRest e rest (← merge merged next) w

/-- The operands that some callee is given. -/
def pairedOuter (e : Eqn Jaxpr) (subs : List Jaxpr) : List Atom :=
  subs.flatMap fun sub => (alignCallInvars e.invars sub.invars).filterMap Prod.snd

def visitCall (e : Eqn Jaxpr) (first : Jaxpr) (rest : List Jaxpr) (w : Walk) : Option Walk := do
  let (w, merged) ← bind visit e first w
  let (w, merged) ← bindRest visit e rest merged w
  -- operands are told apart by identity, not by position
  let extra := unionAll
    ((e.invars.filter fun a => a ∉ pairedOuter e (first :: rest)).map (depOf w.deps))
  record order e (merged.map (· ∪ extra)) w

def visitEqn (e : Eqn Jaxpr) (w : Walk) : Option Walk :=
  let opDeps := e.invars.map (depOf w.deps)
  if e.primitive = "scan" then visitScan order visit e opDeps w
  else if e.primitive = "while" then visitWhile order visit e opDeps w
  else
    match e.subs with
    | [] => record order e (List.replicate e.outvars.length (unionAll opDeps)) w
    | first :: rest => visitCall order visit e first rest w

def visitEqns : List (Eqn Jaxpr) → Walk → Option Walk
  | [], w => some w
  | e :: es, w => do visitEqns es (← visitEqn order visit e w)

end Walk

def visit (order : Nat → Option Nat) : Nat → Jaxpr → Walk → Option Walk
  | 0, _, _ => none
  | n + 1, j, w => visitEqns order (visit order n) j.eqns w

/-- `iter_jaxpr_eqns`: every equation, those of nested programs after the one that carries
them. -/
def iterJaxprEqns : Nat → Jaxpr → List (Eqn Jaxpr)
  | 0, _ => []
  | n + 1, j => j.eqns.flatMap fun e => e :: e.subs.flatMap (iterJaxprEqns n)

/-- The last position of an equation in the order of the walker. -/
def orderOf (eqns : List (Eqn Jaxpr)) (id : Nat) : Option Nat :=
  (eqns.zipIdx.filter (·.1.id = id)).getLast?.map Prod.snd

/-- For every produced value the primitive and the inputs it depends on, in the order of the
walker, and for every output the inputs it depends on. -/
structure InputDependence where
  intermediates : List (String × Deps)
  outputs : List Deps

/-- The dictionary a walk starts from: each input depends on itself. -/
def initialDeps (j : Jaxpr) : Option (Nat → Deps) :=
  assign j.invars ((List.range j.invars.length).map fun i => {i}) fun _ => ∅

def traceInputDependence (depth : Nat) (closed : Jaxpr) : Option InputDependence := do
  let deps ← initialDeps closed
  let w ← visit (orderOf (iterJaxprEqns depth closed)) depth closed ⟨deps, []⟩
  let produced := w.produced.insertionSort fun a b => a.1 ≤ b.1
  return ⟨produced.map Prod.snd, closed.outvars.map (depOf w.deps)⟩

end Xtrax.Dependence
