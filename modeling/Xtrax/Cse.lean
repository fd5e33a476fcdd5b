import Mathlib
import Xtrax.LastWins
import Xtrax.Unique
import Xtrax.UnionFind

/-!
# Duplicate equations

`analyzeCse` groups the equations of a jaxpr: in rounds, equations of one fingerprint are joined in
a union-find, until a round changes nothing.  A fingerprint has the primitive, the parameters and a
token for each operand; that of a variable which an equation binds is the class of the equation.
-/

namespace Xtrax.Cse

/-- `repr` of parameter values, and of lists of pairs of strings. -/
structure PyRepr (W : Type) where
  repr : W → String
  reprItems : List (String × String) → String

structure Literal where
  dtype : String
  shape : List Nat
  bytes : List UInt8
  deriving DecidableEq

inductive Operand
  | lit (l : Literal)
  | var (id : Nat)
  deriving DecidableEq

/-- A variable that an equation binds, with its `aval`. -/
structure OutVar where
  id : Nat
  shape : List Nat
  itemsize : Nat

structure Eqn (W : Type) where
  primitive : String
  params : List (String × W)
  invars : List Operand
  outvars : List OutVar

variable {W : Type}

def Eqn.outIds (e : Eqn W) : List Nat := e.outvars.map OutVar.id

/-! ### Fingerprints -/

inductive Token
  | lit (dtype : String) (bytes : List UInt8)
  | eq (rep : Nat)
  | free (id : Nat)
  deriving DecidableEq

structure Fingerprint where
  primitive : String
  params : String
  operands : List Token
  deriving DecidableEq

def literalKey (l : Literal) : String × List UInt8 := (l.dtype, l.bytes)

def paramsRepr (py : PyRepr W) (params : List (String × W)) : String :=
  py.reprItems ((Unique.sorted (params.map fun kv => toLex (kv.1, py.repr kv.2))).map ofLex)

def opToken (varToken : Nat → Option Nat) : Operand → Token
  | .lit l => .lit (literalKey l).1 (literalKey l).2
  | .var v => match varToken v with
    | some rep => .eq rep
    | none => .free v

/-- The assignments `var_token[id(ov)] = ("eq", rep)`, in order. -/
def assignments (eqns : List (Eqn W)) (reps : List Nat) : List (Nat × Nat) :=
  (eqns.zip reps).flatMap fun (e, rep) => e.outIds.map fun v => (v, rep)

/-- What `var_token` has in the end: the last assignment to a variable. -/
def varToken (eqns : List (Eqn W)) (reps : List Nat) (v : Nat) : Option Nat :=
  (LastWins.lastFor Prod.fst v (assignments eqns reps)).map Prod.snd

def fingerprint (py : PyRepr W) (token : Nat → Option Nat) (e : Eqn W) : Fingerprint where
  primitive := e.primitive
  params := paramsRepr py e.params
  operands := e.invars.map (opToken token)

/-- `for a in l: groups.setdefault(key(a), []).append(value(a))`. -/
def setdefaultAppend {A B K : Type} [DecidableEq K] (key : A → K) (value : A → B) (l : List A) :
    List (K × List B) :=
  (LastWins.firstSeen (l.map key)).map fun k => (k, (l.filter fun a => key a = k).map value)

def fingerprintRound (py : PyRepr W) (eqns : List (Eqn W)) (uf : UnionFind) :
    List (Fingerprint × List Nat) × UnionFind :=
  let (reps, uf) := uf.findAll (List.range eqns.length)
  let token := varToken eqns reps
  (setdefaultAppend (fun p => fingerprint py token p.1) Prod.snd eqns.zipIdx, uf)

/-! ### Rounds -/

/-- The first of the members with each of the others. -/
def anchored : List Nat → List (Nat × Nat)
  | [] => []
  | anchor :: others => others.map fun other => (anchor, other)

def mergeRound (fps : List (Fingerprint × List Nat)) (uf : UnionFind) : UnionFind × Bool :=
  fps.foldl (fun s fp => (anchored fp.2).foldl UnionFind.join s) (uf, false)

/-- The loop of `_merge_to_fixpoint`, for a number of rounds. -/
def mergeLoop (py : PyRepr W) (eqns : List (Eqn W)) :
    Nat → UnionFind → Option (List Nat) → Option UnionFind
  | 0, _, _ => none
  | rounds + 1, uf, prevCanonical =>
    let (fps, uf) := fingerprintRound py eqns uf
    let (uf, changed) := mergeRound fps uf
    let (canonical, uf) := uf.findAll (List.range eqns.length)
    if changed = false ∨ prevCanonical = some canonical then some uf
    else mergeLoop py eqns rounds uf (some canonical)

/-- `_merge_to_fixpoint`; one round more than there are equations is enough. -/
def mergeToFixpoint (py : PyRepr W) (eqns : List (Eqn W)) (uf : UnionFind) : Option UnionFind :=
  mergeLoop py eqns (eqns.length + 1) uf none

/-! ### Reports -/

structure CseDuplicateClass where
  primitive : String
  eqnCount : Nat
  paramsFingerprint : String
  invarShapes : List (List Nat)
  estWastedBytes : Nat
  deriving DecidableEq

structure CseReport where
  duplicates : List CseDuplicateClass
  totalEqns : Nat
  duplicateEqns : Nat
  traceCacheHit : Bool
  deriving DecidableEq

def avalNbytes (v : OutVar) : Nat := v.shape.prod * v.itemsize

def duplicateClass (py : PyRepr W) (members : List Nat) (eqns : List (Eqn W)) :
    Option CseDuplicateClass :=
  (members.head?.bind (eqns[·]?)).map fun e => {
    primitive := e.primitive
    eqnCount := members.length
    paramsFingerprint := String.ofList ((paramsRepr py e.params).toList.take 64)
    invarShapes := e.outvars.map OutVar.shape
    estWastedBytes := (e.outvars.map avalNbytes).sum * (members.length - 1) }

/-- The classes of equations. -/
def classes (py : PyRepr W) (eqns : List (Eqn W)) : Option (List (List Nat)) :=
  (mergeToFixpoint py eqns UnionFind.singletons).map fun uf =>
    let reps := (uf.findAll (List.range eqns.length)).1
    (setdefaultAppend Prod.fst Prod.snd (reps.zip (List.range eqns.length))).map Prod.snd

/-- `analyze_cse`, for a traced jaxpr. -/
def analyzeCse (py : PyRepr W) (eqns : List (Eqn W)) (cacheHit : Bool) : Option CseReport :=
  (classes py eqns).map fun classes =>
    let duplicates := (classes.filter fun members => 2 ≤ members.length).filterMap fun members =>
      duplicateClass py members eqns
    { duplicates := duplicates.mergeSort fun a b => b.estWastedBytes ≤ a.estWastedBytes
      totalEqns := eqns.length
      duplicateEqns := (duplicates.map CseDuplicateClass.eqnCount).sum
      traceCacheHit := cacheHit }

/-! ### Tokens of classes -/

theorem mem_setdefaultAppend {A B K : Type} [DecidableEq K] {key : A → K} {value : A → B}
    {l : List A} {k : K} {members : List B} :
    (k, members) ∈ setdefaultAppend key value l ↔
      k ∈ l.map key ∧ members = (l.filter fun a => key a = k).map value := by
  rw [setdefaultAppend, List.mem_map]
  constructor
  · rintro ⟨k', hk, heq⟩
    cases heq
    exact ⟨LastWins.mem_firstSeen.mp hk, rfl⟩
  · rintro ⟨hk, rfl⟩
    exact ⟨k, LastWins.mem_firstSeen.mpr hk, rfl⟩

end Xtrax.Cse
