import Xtrax.InputDependence

/-!
# Keys that arrive as runtime inputs

`_input_derived_var_ids` marks the variables that are derived from a program's inputs.  It goes
once through the equations; a sub-jaxpr of an equation with a marked operand is walked once, its
inputs paired with the operands where there are as many of them, else all marked.

A variable `Varies`, and is to be marked, when there are two runs on other inputs in which it has
other values at the same place of the program, in the same iteration of the loops around it
(`valueAt`).
-/

namespace Xtrax.RuntimeKeys

open Dependence

/-! ### The walk -/

/-- `id(v) in tainted`.  A literal is an object of its own. -/
def isTainted (tainted : List Nat) : Atom → Bool
  | .literal _ => false
  | .var v => v ∈ tainted

def subSeed (e : Eqn Jaxpr) (tainted : List Nat) (sub : Jaxpr) : List Nat :=
  if sub.invars.length = e.invars.length then
    ((sub.invars.zip e.invars).filter fun pair => isTainted tainted pair.2).map (·.1)
  else sub.invars

def consumesTainted (e : Eqn Jaxpr) (tainted : List Nat) : Bool := e.invars.any (isTainted tainted)

section

variable (walk : Jaxpr → List Nat → Option (List Nat))

/-- The loop over the sub-jaxprs of an equation. -/
def deriveSubs (e : Eqn Jaxpr) : List Jaxpr → List Nat → Option (List Nat)
  | [], tainted => some tainted
  | sub :: rest, tainted => do
    let inner ← walk sub (subSeed e tainted sub)
    deriveSubs e rest (inner ++ tainted)

/-- One turn of the loop over the equations. -/
def deriveEqn (tainted : List Nat) (e : Eqn Jaxpr) : Option (List Nat) :=
  if consumesTainted e tainted then (deriveSubs walk e e.subs tainted).map (e.outvars ++ ·)
  else some tainted

end

/-- `_input_derived_var_ids`, to a depth of nesting. -/
def inputDerivedVarIds : Nat → Jaxpr → List Nat → Option (List Nat)
  | 0, _, _ => none
  | n + 1, j, seeded => j.eqns.foldlM (deriveEqn (inputDerivedVarIds n)) seeded

/-! ### The rules -/

structure ExportBlocker where
  axis : String
  rule : String
  deriving DecidableEq

/-- What the rules look at besides the structure of a program: `aval.shape` of a variable, and
two parameters of an equation. -/
structure Metadata where
  shape : Nat → Option (List Nat)
  isStable : Eqn Jaxpr → Bool
  calleeName : Eqn Jaxpr → Option String

def isUnbatchedKey (info : Metadata) (e : Eqn Jaxpr) : Bool :=
  match e.outvars.head?.bind info.shape with
  | none => false
  | some shape => shape.prod ≤ 1

def unbatchedThreefryKey : ExportBlocker := ⟨"random_wrap", "unbatched-threefry-key"⟩

/-- The rules for one equation. -/
def opBlocker (info : Metadata) (inputDerived : List Nat) (e : Eqn Jaxpr) : Option ExportBlocker :=
  if e.primitive = "top_k" then some ⟨e.primitive, "unlegalizable-op"⟩
  else if e.primitive = "sort" && info.isStable e then some ⟨e.primitive, "sort-stability"⟩
  else if (e.primitive = "jit" || e.primitive = "pjit") && info.calleeName e = some "_shuffle" then
    some ⟨e.primitive, "random-permutation"⟩
  else if e.primitive = "random_wrap" && isUnbatchedKey info e && consumesTainted e inputDerived then
    some unbatchedThreefryKey
  else none

def ireeOpBlockers (info : Metadata) (depth : Nat) (top : Jaxpr) : Option (List ExportBlocker) := do
  let inputDerived ← inputDerivedVarIds depth top top.invars
  return (iterJaxprEqns depth top).filterMap (opBlocker info inputDerived)

/-! ### The values of a run -/

/-- Which of an equation's programs is entered. -/
inductive Part where
  | body
  | condition
  | branch (i : Nat)
  deriving DecidableEq

section

variable {V : Type} (role : String → Role) (I : Interp V)

/-- The arguments of the `k`-th iteration of a `scan`. -/
def scanArgs (body : List V → Option (List V)) (consts xs : List V) :
    List Nat → List V → Nat → Option (List V)
  | [], _, _ => none
  | t :: _, carry, 0 => some (consts ++ carry ++ xs.map fun x => I.slice x t)
  | t :: ts, carry, k + 1 => do
    let outs ← body (consts ++ carry ++ xs.map fun x => I.slice x t)
    if carry.length ≤ outs.length then scanArgs body consts xs ts (outs.take carry.length) k
    else none

/-- The carries of a `while` after `k` iterations. -/
def whileCarry (cond body : List V → Option (List V)) (condConsts bodyConsts : List V) :
    Nat → List V → Option (List V)
  | 0, carry => some carry
  | k + 1, carry => do
    let decision ← cond (condConsts ++ carry)
    if I.truth (← decision.head?) then
      let next ← body (bodyConsts ++ carry)
      if next.length = carry.length then whileCarry cond body condConsts bodyConsts k next
      else none
    else none

def enteredScan (eval : Jaxpr → List V → Option (List V)) (e : Eqn Jaxpr) (ops : List V) :
    Part → Nat → Option (Jaxpr × List V)
  | .body, k => do
    let (nConsts, nCarry) ← e.scanCounts
    let body ← e.body "jaxpr"
    let length ← e.num "length"
    if nConsts + nCarry ≤ ops.length then
      let args ← scanArgs I (eval body) (ops.take nConsts) (ops.drop (nConsts + nCarry))
        (if e.num "reverse" = some 1 then (List.range length).reverse else List.range length)
        ((ops.drop nConsts).take nCarry) k
      return (body, args)
    else none
  | _, _ => none

/-- Where a `while` is after `k` iterations: the body is entered when the condition holds. -/
def enteredAfter (eval : Jaxpr → List V → Option (List V)) (cond body : Jaxpr)
    (condConsts bodyConsts carry : List V) : Part → Option (Jaxpr × List V)
  | .condition => some (cond, condConsts ++ carry)
  | .body => do
    let decision ← eval cond (condConsts ++ carry)
    if I.truth (← decision.head?) then some (body, bodyConsts ++ carry) else none
  | .branch _ => none

def enteredWhile (eval : Jaxpr → List V → Option (List V)) (e : Eqn Jaxpr) (ops : List V)
    (part : Part) (k : Nat) : Option (Jaxpr × List V) := do
  let nCond ← e.num "cond_nconsts"
  let nBody ← e.num "body_nconsts"
  let body ← e.body "body_jaxpr"
  let cond ← e.body "cond_jaxpr"
  if nCond + nBody ≤ ops.length then
    let carry ← whileCarry I (eval cond) (eval body) (ops.take nCond) ((ops.drop nCond).take nBody)
      k (ops.drop (nCond + nBody))
    enteredAfter I eval cond body (ops.take nCond) ((ops.drop nCond).take nBody) carry part
  else none

def enteredCond (branches : List Jaxpr) : List V → Part → Option (Jaxpr × List V)
  | p :: args, .branch i => do
    let branch ← branches[min (I.branch p) (branches.length - 1)]?
    if i = min (I.branch p) (branches.length - 1) ∧ ∀ b ∈ branches, b.invars.length = args.length
    then return (branch, args) else none
  | _, _ => none

/-- The program that an equation enters in its `k`-th iteration, and the arguments. -/
def entered (eval : Jaxpr → List V → Option (List V)) (e : Eqn Jaxpr) (ops : List V)
    (part : Part) (k : Nat) : Option (Jaxpr × List V) :=
  if e.primitive = "scan" then enteredScan I eval e ops part k
  else if e.primitive = "while" then enteredWhile I eval e ops part k
  else
    match e.subs with
    | [] => none
    | callee :: rest =>
      match role e.primitive with
      | .call => if part = .body ∧ k = 0 then some (callee, calleeArgs I callee ops) else none
      | .cond => if k = 0 then enteredCond I (callee :: rest) ops part else none
      | _ => none

/-- The variables after the first equations of a program. -/
def envAfter (n : Nat) (j : Jaxpr) (args : List V) (eqns : List (Eqn Jaxpr)) :
    Option (Nat → Option V) := do
  let env ← assign j.invars (args.map some)
    fun v => if v ∈ j.constvars then some (I.const v) else none
  evalEqns role I (evalJaxpr role I n) n eqns env

/-- A place in a program that is run: the equations that have been entered, each with the part
and the iteration. -/
abbrev Place := List (Nat × Part × Nat)

/-- The value of a variable at a place, after the first `k` equations there. -/
def valueAt : Nat → Jaxpr → List V → Place → Nat → Nat → Option V
  | 0, _, _, _, _, _ => none
  | n + 1, j, args, [], k, v => do (← envAfter role I n j args (j.eqns.take k)) v
  | n + 1, j, args, (i, part, t) :: place, k, v => do
    let env ← envAfter role I n j args (j.eqns.take i)
    let e ← j.eqns[i]?
    let ops ← readAll I env e.invars
    let (sub, subArgs) ← entered role I (evalJaxpr role I n) e ops part t
    valueAt n sub subArgs place k v

end

/-- There are two runs on other inputs in which the variable has other values at one place. -/
def Varies (top : Jaxpr) (v : Nat) : Prop :=
  ∃ (V : Type) (role : String → Role) (I : Interp V) (n : Nat) (args args' : List V)
    (place : Place) (k : Nat) (x y : V), valueAt role I n top args place k v = some x ∧
      valueAt role I n top args' place k v = some y ∧ x ≠ y

/-! ### The condition -/

/-- What is computed from `a` by the equations, in order. -/
inductive FlowsTo : List (Eqn Jaxpr) → Nat → Nat → Prop
  | refl (eqns : List (Eqn Jaxpr)) (a : Nat) : FlowsTo eqns a a
  | step {before after : List (Eqn Jaxpr)} {e : Eqn Jaxpr} {a b c : Nat} :
      FlowsTo before a b → .var b ∈ e.invars → c ∈ e.outvars → FlowsTo (before ++ e :: after) a c

/-- What the equations compute from the variables of a set. -/
def Derived (eqns : List (Eqn Jaxpr)) (seeds : Nat → Prop) (v : Nat) : Prop :=
  ∃ a, seeds a ∧ FlowsTo eqns a v

/-- The `i`-th operand is in the set. -/
def Operand (e : Eqn Jaxpr) (derived : Nat → Prop) (i : Nat) : Prop :=
  ∃ v, e.invars[i]? = some (.var v) ∧ derived v

def Consumes (e : Eqn Jaxpr) (derived : Nat → Prop) : Prop := ∃ i, Operand e derived i

/-- The inputs of a sub-jaxpr that are paired with operands of the set, all if they are not
paired. -/
def Seeds (e : Eqn Jaxpr) (derived : Nat → Prop) (sub : Jaxpr) (v : Nat) : Prop :=
  ∃ i, sub.invars[i]? = some v ∧ (sub.invars.length = e.invars.length → Operand e derived i)

/-- The body of a loop, how many operands come before those for its inputs, how many of its
inputs come before the carries, and how many carries there are. -/
structure Loop where
  body : Jaxpr
  skip : Nat
  consts : Nat
  carries : Nat

/-- A loop that may run twice and has a part whose inputs are paired with the operands. -/
def pairedLoop (e : Eqn Jaxpr) : Option Loop :=
  if e.primitive = "scan" then do
    let (nConsts, nCarry) ← e.scanCounts
    let body ← e.body "jaxpr"
    let length ← e.num "length"
    if 2 ≤ length ∧ body.invars.length = e.invars.length then return ⟨body, 0, nConsts, nCarry⟩
    else none
  else if e.primitive = "while" then do
    let nCond ← e.num "cond_nconsts"
    let nBody ← e.num "body_nconsts"
    let body ← e.body "body_jaxpr"
    let cond ← e.body "cond_jaxpr"
    if body.invars.length = e.invars.length ∨ cond.invars.length = e.invars.length then
      return ⟨body, nCond, nBody, e.invars.length - (nCond + nBody)⟩
    else none
  else none

/-- The inputs of the body that get operands of the set when the loop starts. -/
def Loop.Starts (loop : Loop) (e : Eqn Jaxpr) (derived : Nat → Prop) (v : Nat) : Prop :=
  ∃ i, loop.body.invars[i]? = some v ∧ Operand e derived (loop.skip + i)

/-- Each carry that the body computes from inputs of the set starts in the set. -/
def CarriesStart (e : Eqn Jaxpr) (derived : Nat → Prop) : Prop :=
  ∀ loop, pairedLoop e = some loop → ∀ i o, i < loop.carries →
    loop.body.outvars[i]? = some (.var o) → Derived loop.body.eqns (loop.Starts e derived) o →
    Operand e derived (loop.skip + loop.consts + i)

/-- The carries of all loops that are walked start derived if they are ever. -/
inductive Covered : Jaxpr → (Nat → Prop) → Prop
  | intro {j : Jaxpr} {seeds : Nat → Prop}
      (carries : ∀ before e after, j.eqns = before ++ e :: after →
        Consumes e (Derived before seeds) → CarriesStart e (Derived before seeds))
      (subs : ∀ before e after, j.eqns = before ++ e :: after →
        Consumes e (Derived before seeds) → ∀ sub ∈ e.subs,
          Covered sub (Seeds e (Derived before seeds) sub)) : Covered j seeds

end Xtrax.RuntimeKeys
