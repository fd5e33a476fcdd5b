import Mathlib.Data.Finset.Basic
import Mathlib.Data.List.Basic
import Mathlib.Logic.Function.Basic

/-!
# Traced programs and their meaning

A traced program is a `Jaxpr`: input variables, a list of equations and outputs.  The parameters
of an equation may carry further jaxprs, in lists and mappings (`subJaxprs`).  Variables are
compared by identity, so a variable is the identity of its object.

`evalJaxpr` is what a program computes under an interpretation of its primitives.  Loops,
branches and calls have their usual meaning; what any other equation computes is any function
of all its operands, also when it carries a jaxpr.  The number of nested programs and of
iterations is bounded by a first argument.
-/

namespace Xtrax.Dependence

/-- A parameter of an equation: a number, the leaf counts of a flattree pack, a jaxpr, a closed
wrapper of one, a container, or a value without jaxprs. -/
inductive Param (J : Type) where
  | num (n : Nat)
  | pack (groups : List Nat)
  | value
  | jaxpr (j : J)
  | closed (j : J)
  | seq (items : List (Param J))
  | mapping (items : List (String × Param J))

section SubJaxprs

variable {J : Type}

mutual

/-- `sub_jaxprs` of a parameter value: every jaxpr stored in it, closed ones unwrapped. -/
def subJaxprs : Param J → List J
  | .jaxpr j => [j]
  | .closed j => [j]
  | .seq items => subJaxprsSeq items
  | .mapping items => subJaxprsMapping items
  | _ => []

def subJaxprsSeq : List (Param J) → List J
  | [] => []
  | item :: rest => subJaxprs item ++ subJaxprsSeq rest

/-- `sub_jaxprs` of a mapping, such as an equation's parameters. -/
def subJaxprsMapping : List (String × Param J) → List J
  | [] => []
  | (_, item) :: rest => subJaxprs item ++ subJaxprsMapping rest

end

theorem mem_subJaxprsMapping {key : String} {p : Param J} {j : J} (hj : j ∈ subJaxprs p) :
    ∀ {items : List (String × Param J)}, (key, p) ∈ items → j ∈ subJaxprsMapping items
  | [], h => absurd h List.not_mem_nil
  | _ :: _, h => by
    rw [subJaxprsMapping, List.mem_append]
    rcases List.mem_cons.mp h with rfl | h
    · exact Or.inl hj
    · exact Or.inr (mem_subJaxprsMapping hj h)

end SubJaxprs

/-- An operand: a literal or a variable, by identity. -/
inductive Atom where
  | literal (id : Nat)
  | var (id : Nat)
  deriving DecidableEq

structure Eqn (J : Type) where
  id : Nat
  primitive : String
  params : List (String × Param J)
  invars : List Atom
  outvars : List Nat

inductive Jaxpr where
  | mk (constvars invars : List Nat) (eqns : List (Eqn Jaxpr)) (outvars : List Atom)

namespace Jaxpr

def constvars : Jaxpr → List Nat
  | .mk constvars _ _ _ => constvars

def invars : Jaxpr → List Nat
  | .mk _ invars _ _ => invars

def eqns : Jaxpr → List (Eqn Jaxpr)
  | .mk _ _ eqns _ => eqns

def outvars : Jaxpr → List Atom
  | .mk _ _ _ outvars => outvars

end Jaxpr

namespace Eqn

/-- `sub_jaxprs(eqn.params)`. -/
def subs (e : Eqn Jaxpr) : List Jaxpr := subJaxprsMapping e.params

def param (e : Eqn Jaxpr) (key : String) : Option (Param Jaxpr) := e.params.lookup key

/-- A parameter that is a number. -/
def num (e : Eqn Jaxpr) (key : String) : Option Nat :=
  match e.param key with
  | some (.num n) => some n
  | _ => none

/-- The first jaxpr of a parameter: `next(sub_jaxprs(eqn.params[key]))`. -/
def body (e : Eqn Jaxpr) (key : String) : Option Jaxpr := do
  (subJaxprs (← e.param key)).head?

theorem mem_subs_of_body {e : Eqn Jaxpr} {key : String} {j : Jaxpr} (h : e.body key = some j) :
    j ∈ e.subs := by
  obtain ⟨p, hp, hj⟩ := Option.bind_eq_some_iff.mp h
  have hmem : (key, p) ∈ e.params := by
    obtain ⟨l₁, l₂, heq, -⟩ := List.lookup_eq_some_iff.mp hp
    rw [heq]
    simp
  exact mem_subJaxprsMapping (List.mem_of_head? hj) hmem

/-- `_scan_counts`: the number of constants and of carries of a `scan`. -/
def scanCounts (e : Eqn Jaxpr) : Option (Nat × Nat) :=
  match e.param "num_consts" with
  | some _ => do return (← e.num "num_consts", ← e.num "num_carry")
  | none =>
    match e.param "ft_in", e.param "ft_out" with
    | some (.pack ins), some (.pack outs) => do return (← ins.head?, ← outs.head?)
    | _, _ => none

end Eqn

/-- Values written to variables, one for each: a strict `zip`. -/
def assign {γ : Type} : List Nat → List γ → (Nat → γ) → Option (Nat → γ)
  | [], [], env => some env
  | v :: vs, x :: xs, env => assign vs xs (Function.update env v x)
  | _, _, _ => none

/-! ### The meaning of a program -/

/-- What the jaxprs of an equation are for.  The names are those of primitives other than
`scan` and `while`. -/
inductive Role where
  | plain
  | call
  | cond
  | other
  deriving DecidableEq

/-- An interpretation: the values of literals and constants, what an equation computes from
its operands, how values decide loops and branches, and how arrays are taken apart and put
together. -/
structure Interp (V : Type) where
  literal : Nat → V
  const : Nat → V
  apply : Eqn Jaxpr → List V → List V
  truth : V → Bool
  branch : V → Nat
  slice : V → Nat → V
  stack : List V → V

section Eval

variable {V : Type} (role : String → Role) (I : Interp V)

def readAtom (env : Nat → Option V) : Atom → Option V
  | .literal l => some (I.literal l)
  | .var v => env v

def readAll (env : Nat → Option V) : List Atom → Option (List V)
  | [] => some []
  | a :: as => do return (← readAtom I env a) :: (← readAll env as)

/-- The iterations of a `scan`: the final carries and the outputs of every iteration. -/
def scanLoop (body : List V → Option (List V)) (consts xs : List V) :
    List Nat → List V → Option (List V × List (List V))
  | [], carry => some (carry, [])
  | t :: ts, carry => do
    let outs ← body (consts ++ carry ++ xs.map fun x => I.slice x t)
    if carry.length ≤ outs.length then
      let (final, yss) ← scanLoop body consts xs ts (outs.take carry.length)
      return (final, outs.drop carry.length :: yss)
    else none

/-- The outputs of all iterations, stacked one by one. -/
def stackAll (count : Nat) (yss : List (List V)) : List V :=
  (List.range count).map fun k => I.stack (yss.filterMap fun ys => ys[k]?)

def evalScan (eval : Jaxpr → List V → Option (List V)) (e : Eqn Jaxpr) (ops : List V) :
    Option (List V) := do
  let (nConsts, nCarry) ← e.scanCounts
  let body ← e.body "jaxpr"
  let length ← e.num "length"
  if nConsts + nCarry ≤ ops.length then
    let (final, yss) ← scanLoop I (eval body) (ops.take nConsts) (ops.drop (nConsts + nCarry))
      (if e.num "reverse" = some 1 then (List.range length).reverse else List.range length)
      ((ops.drop nConsts).take nCarry)
    return final ++ stackAll I (body.outvars.length - nCarry)
      (if e.num "reverse" = some 1 then yss.reverse else yss)
  else none

/-- The iterations of a `while`, at most so many. -/
def whileLoop (cond body : List V → Option (List V)) (condConsts bodyConsts : List V) :
    Nat → List V → Option (List V)
  | 0, _ => none
  | k + 1, carry => do
    let decision ← cond (condConsts ++ carry)
    if I.truth (← decision.head?) then
      let next ← body (bodyConsts ++ carry)
      if next.length = carry.length then whileLoop cond body condConsts bodyConsts k next
      else none
    else return carry

def evalWhile (eval : Jaxpr → List V → Option (List V)) (iterations : Nat) (e : Eqn Jaxpr)
    (ops : List V) : Option (List V) := do
  let nCond ← e.num "cond_nconsts"
  let nBody ← e.num "body_nconsts"
  let body ← e.body "body_jaxpr"
  let cond ← e.body "cond_jaxpr"
  whileLoop I (eval cond) (eval body) (ops.take nCond) ((ops.drop nCond).take nBody) iterations
    (ops.drop (nCond + nBody))

/-- The arguments of a callee: its last inputs are the operands, those before them its constants. -/
def calleeArgs (callee : Jaxpr) (ops : List V) : List V :=
  (callee.invars.take (callee.invars.length - ops.length)).map I.const ++
    ops.drop (ops.length - callee.invars.length)

/-- A branch is applied to the operands that come after the predicate.  Every branch takes
them all. -/
def evalCond (eval : Jaxpr → List V → Option (List V)) (branches : List Jaxpr) :
    List V → Option (List V)
  | [] => none
  | p :: args => do
    let branch ← branches[min (I.branch p) (branches.length - 1)]?
    if ∀ b ∈ branches, b.invars.length = args.length then eval branch args else none

def evalEqn (eval : Jaxpr → List V → Option (List V)) (iterations : Nat) (e : Eqn Jaxpr)
    (ops : List V) : Option (List V) :=
  if e.primitive = "scan" then evalScan I eval e ops
  else if e.primitive = "while" then evalWhile I eval iterations e ops
  else
    match e.subs with
    | [] => some (I.apply e ops)
    | callee :: rest =>
      match role e.primitive with
      | .call => eval callee (calleeArgs I callee ops)
      | .cond => evalCond I eval (callee :: rest) ops
      | _ => some (I.apply e ops)

def evalEqns (eval : Jaxpr → List V → Option (List V)) (iterations : Nat) :
    List (Eqn Jaxpr) → (Nat → Option V) → Option (Nat → Option V)
  | [], env => some env
  | e :: es, env => do
    let ops ← readAll I env e.invars
    let outs ← evalEqn role I eval iterations e ops
    let env ← assign e.outvars (outs.map some) env
    evalEqns eval iterations es env

/-- The outputs of a program on its arguments. -/
def evalJaxpr : Nat → Jaxpr → List V → Option (List V)
  | 0, _, _ => none
  | n + 1, j, args => do
    let env ← assign j.invars (args.map some)
      fun v => if v ∈ j.constvars then some (I.const v) else none
    let env ← evalEqns role I (evalJaxpr n) n j.eqns env
    readAll I env j.outvars

end Eval

end Xtrax.Dependence
