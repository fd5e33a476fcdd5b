import Xtrax.InputDependence

/-!
# The loops of a traced program

`_jaxpr_work` goes through the equations of a program and adds up a proxy of their work.  Whenever
it meets a `scan` or a `while` it walks the loop's body and inserts an entry for the loop before
those of the loops found in the body.

What a program costs (`costOf`) and which loops it has (`loopEqns`) is said along the structure of
the program, without a list that is passed on.  The depth of nesting is bounded by a first
argument.
-/

namespace Xtrax.LoopScaling

open Dependence

/-- The shapes of a program's values. -/
structure Avals where
  var : Nat → List Nat
  literal : Nat → List Nat

def Avals.shape (avals : Avals) : Atom → List Nat
  | .literal l => avals.literal l
  | .var v => avals.var v

def numel (shape : List Nat) : Nat := shape.prod

structure LoopBody where
  path : String
  primitive : String
  tripCount : Option Nat
  iterationWork : Nat
  maxDotOutputElements : Nat
  deriving DecidableEq

def loopBodyParam : String → Option String
  | "scan" => some "jaxpr"
  | "while" => some "body_jaxpr"
  | _ => none

def inPlaceUpdateOperand (primitive : String) : Option Nat :=
  [("dynamic_update_slice", 1), ("scatter", 2), ("scatter-add", 2), ("scatter_add", 2),
    ("scatter-mul", 2), ("scatter_mul", 2), ("scatter-min", 2), ("scatter_min", 2),
    ("scatter-max", 2), ("scatter_max", 2)].lookup primitive

/-- The axes in a parameter. -/
def axesOf : Param Jaxpr → Option (List Nat)
  | .seq items => items.mapM fun
    | .num n => some n
    | _ => none
  | _ => none

/-- `(lhs_contract, _), _ = eqn.params["dimension_numbers"]`. -/
def lhsContract (e : Eqn Jaxpr) : Option (List Nat) :=
  match e.param "dimension_numbers" with
  | some (.seq [.seq [lhs, _], _]) => axesOf lhs
  | _ => none

/-- `_dot_work`: twice the output elements times the contracted size, and the output elements. -/
def dotWork (avals : Avals) (e : Eqn Jaxpr) : Option (Nat × Nat) := do
  let axes ← lhsContract e
  let lhs ← e.invars[0]?
  let contracted ← axes.mapM fun i => (avals.shape lhs)[i]?
  let out ← e.outvars[0]?
  return (2 * numel (avals.var out) * contracted.prod, numel (avals.var out))

/-- The trip count of a `scan`; a `while` has none. -/
def tripCount (e : Eqn Jaxpr) : Option (Option Nat) :=
  if e.primitive = "scan" then (e.num "length").map some else some none

def eqnPath (path : String) (idx : Nat) (e : Eqn Jaxpr) : String :=
  path ++ "/" ++ toString idx ++ ":" ++ e.primitive

def subPath (here : String) (i : Nat) : String := here ++ "[" ++ toString i ++ "]"

/-! ### The walk -/

/-- Work, the largest output of a `dot_general`, and the loops found so far. -/
abbrev Tally := Nat × Nat × List LoopBody

section

variable (avals : Avals) (visit : Jaxpr → String → List LoopBody → Option Tally)

/-- The most expensive of the sub-jaxprs, from the `i`-th on. -/
def subsWork (here : String) : Nat → List Jaxpr → List LoopBody → Option Tally
  | _, [], found => some (0, 0, found)
  | i, sub :: rest, found => do
    let (work, dot, found) ← visit sub (subPath here i) found
    let (restWork, restDot, found) ← subsWork here (i + 1) rest found
    return (max work restWork, max dot restDot, found)

/-- What an equation adds. -/
def eqnWork (here : String) (e : Eqn Jaxpr) (found : List LoopBody) : Option Tally :=
  match loopBodyParam e.primitive with
  | some key => do
    let body ← e.body key
    let (bodyWork, bodyDot, after) ← visit body here found
    let trips ← tripCount e
    -- `found.insert(before, ..)`
    return (bodyWork * trips.getD 1, bodyDot, after.take found.length ++
      ⟨here, e.primitive, trips, bodyWork, bodyDot⟩ :: after.drop found.length)
  | none =>
    if e.primitive = "dot_general" then do
      let (work, out) ← dotWork avals e
      return (work, out, found)
    else match inPlaceUpdateOperand e.primitive with
      | some operand => do
        let update ← e.invars[operand]?
        return (numel (avals.shape update), 0, found)
      | none =>
        if e.subs.isEmpty then some ((e.outvars.map fun v => numel (avals.var v)).sum, 0, found)
        else subsWork visit here 0 e.subs found

/-- The equations from the `idx`-th on. -/
def eqnsWork (path : String) : Nat → List (Eqn Jaxpr) → List LoopBody → Option Tally
  | _, [], found => some (0, 0, found)
  | idx, e :: rest, found => do
    let (work, dot, found) ← eqnWork avals visit (eqnPath path idx e) e found
    let (restWork, restDot, found) ← eqnsWork path (idx + 1) rest found
    return (work + restWork, max dot restDot, found)

end

def jaxprWork (avals : Avals) : Nat → Jaxpr → String → List LoopBody → Option Tally
  | 0, _, _, _ => none
  | n + 1, j, path, found => eqnsWork avals (jaxprWork avals n) path 0 j.eqns found

/-- `loop_bodies`, of a program that was traced. -/
def loopBodies (avals : Avals) (depth : Nat) (closed : Jaxpr) : Option (List LoopBody) :=
  (jaxprWork avals depth closed "" []).map fun tally => tally.2.2

/-! ### What is to be reported -/

/-- The sub-jaxpr of a loop that runs in each iteration. -/
def loopBody? (e : Eqn Jaxpr) : Option Jaxpr := do e.body (← loopBodyParam e.primitive)

section

variable (avals : Avals) (cost : Jaxpr → Nat × Nat)

/-- The proxy for an equation: the work of a body for each trip, `2 * M * N * K` for a
`dot_general`, the update of an in-place update, the dearest sub-jaxpr, else the output elements. -/
def eqnCost (e : Eqn Jaxpr) : Nat × Nat :=
  match loopBody? e with
  | some body => ((cost body).1 * ((tripCount e).getD none).getD 1, (cost body).2)
  | none =>
    if e.primitive = "dot_general" then (dotWork avals e).getD (0, 0)
    else match inPlaceUpdateOperand e.primitive with
      | some operand => (((e.invars[operand]?).map fun a => numel (avals.shape a)).getD 0, 0)
      | none =>
        if e.subs.isEmpty then ((e.outvars.map fun v => numel (avals.var v)).sum, 0)
        else ((e.subs.map fun sub => (cost sub).1).foldr max 0,
          (e.subs.map fun sub => (cost sub).2).foldr max 0)

end

/-- The proxy for one execution of a program, and its largest output of a `dot_general`. -/
def costOf (avals : Avals) : Nat → Jaxpr → Nat × Nat
  | 0, _ => (0, 0)
  | n + 1, j =>
    ((j.eqns.map fun e => (eqnCost avals (costOf avals n) e).1).sum,
      (j.eqns.map fun e => (eqnCost avals (costOf avals n) e).2).foldr max 0)

def isLoop (e : Eqn Jaxpr) : Bool := (loopBodyParam e.primitive).isSome

/-- The loops of a program, through all sub-jaxprs, a loop before those nested in it. -/
def loopEqns (n : Nat) (j : Jaxpr) : List (Eqn Jaxpr) := (iterJaxprEqns n j).filter isLoop

/-- The entry is that of the loop. -/
structure Describes (avals : Avals) (e : Eqn Jaxpr) (b : LoopBody) : Prop where
  primitive : b.primitive = e.primitive
  trips : tripCount e = some b.tripCount
  work : ∃ body, loopBody? e = some body ∧ ∀ n, sizeOf body ≤ n →
    b.iterationWork = (costOf avals n body).1

/-- One entry for each loop, loops before those nested in them, under paths of their own. -/
structure Reported (avals : Avals) (n : Nat) (j : Jaxpr) (found : List LoopBody) : Prop where
  each : List.Forall₂ (Describes avals) (loopEqns n j) found
  apart : (found.map LoopBody.path).Nodup
  outermost : found.Pairwise fun a b => ¬b.path.toList <+: a.path.toList

/-- An equation as it is traced: a loop has a body and, for a `scan`, a length; the operands that
are looked at are there. -/
structure Traced (avals : Avals) (e : Eqn Jaxpr) : Prop where
  body : isLoop e = true → (loopBody? e).isSome = true
  trips : isLoop e = true → (tripCount e).isSome = true
  dot : e.primitive = "dot_general" → (dotWork avals e).isSome = true
  update : ∀ operand, inPlaceUpdateOperand e.primitive = some operand →
    (e.invars[operand]?).isSome = true

/-- All equations, at any depth, are as they are traced. -/
def WellFormed (avals : Avals) (j : Jaxpr) : Prop :=
  ∀ n, ∀ e ∈ iterJaxprEqns n j, Traced avals e

/-! ### What is walked -/

/-- The sub-jaxprs in parameters other than the first one of a loop's body. -/
def otherSubs (key : String) : List (String × Param Jaxpr) → List Jaxpr
  | [] => []
  | (k, p) :: rest =>
    if k = key then (subJaxprs p).tail ++ subJaxprsMapping rest
    else subJaxprs p ++ otherSubs key rest

/-- The sub-jaxprs of an equation that are walked. -/
def walkedSubs (e : Eqn Jaxpr) : List Jaxpr :=
  match loopBodyParam e.primitive with
  | some key => (e.body key).toList
  | none =>
    if e.primitive = "dot_general" then []
    else match inPlaceUpdateOperand e.primitive with
      | some _ => []
      | none => e.subs

/-- The sub-jaxprs of an equation that are not walked, such as the condition of a `while`. -/
def unwalkedSubs (e : Eqn Jaxpr) : List Jaxpr :=
  match loopBodyParam e.primitive with
  | some key => otherSubs key e.params
  | none =>
    if e.primitive = "dot_general" then e.subs
    else match inPlaceUpdateOperand e.primitive with
      | some _ => e.subs
      | none => []

/-- No equation that is walked has a loop in a sub-jaxpr that is not. -/
def AllWalked : Nat → Jaxpr → Prop
  | 0, _ => True
  | n + 1, j => ∀ e ∈ j.eqns, (∀ sub ∈ unwalkedSubs e, loopEqns n sub = []) ∧
      ∀ sub ∈ walkedSubs e, AllWalked n sub

end Xtrax.LoopScaling
