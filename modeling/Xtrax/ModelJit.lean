import Mathlib.Data.List.Basic
import Mathlib.Tactic.Common

/-!
# Calls that go through a jit

`model_jit` takes its arguments apart: the arrays are traced, what is left is a static argument.
Two tables stand between a call and the function: the jit's own, which reuses a trace when the
arrays' structure, shapes and dtypes are the same and the static arguments compare equal, and
`out_static`, which holds what a call returns besides arrays.

Leaves are compared as Python does (`PyEq`), and the key of `out_static` has the shapes and
dtypes of the arrays but not their places.  `Unmixed` says of a sequence of calls that neither
brings two of them together.
-/

namespace Xtrax.ModelJit

/-! ### Trees -/

/-- A pytree of arrays and other leaves. -/
inductive Tree (A L : Type) where
  | none
  | array (a : A)
  | leaf (l : L)
  | node (kind : String) (children : List (Tree A L))

namespace Tree

variable {A B L M : Type}

mutual

/-- A tree in place of each array and each leaf. -/
def subst (f : A → Tree B M) (g : L → Tree B M) : Tree A L → Tree B M
  | .none => .none
  | .array a => f a
  | .leaf l => g l
  | .node kind children => .node kind (substList f g children)

def substList (f : A → Tree B M) (g : L → Tree B M) : List (Tree A L) → List (Tree B M)
  | [] => []
  | t :: ts => subst f g t :: substList f g ts

end

/-- `selected` of `partition`: the arrays. -/
def selected : Tree A L → Tree A Empty := subst .array fun _ => .none

/-- `rest` of `partition`. -/
def rest : Tree A L → Tree Empty L := subst (fun _ => .none) .leaf

/-- The tree with the shapes and dtypes of its arrays. -/
def withAvals (aval : A → B) : Tree A L → Tree B L := subst (fun a => .array (aval a)) .leaf

def ofRest : Tree Empty L → Tree A L := subst Empty.elim .leaf

mutual

/-- `combine`: the array where there is one, else what is left. -/
def combine : Tree A Empty → Tree Empty L → Tree A L
  | .none, r => ofRest r
  | .array a, _ => .array a
  | .leaf l, _ => l.elim
  | .node kind children, .node _ others => .node kind (combineList children others)
  | .node _ _, _ => .none

def combineList : List (Tree A Empty) → List (Tree Empty L) → List (Tree A L)
  | a :: as, r :: rs => combine a r :: combineList as rs
  | _, _ => []

end

mutual

/-- The arrays in the order of the leaves. -/
def arrays : Tree A L → List A
  | .none => []
  | .array a => [a]
  | .leaf _ => []
  | .node _ children => arraysList children

def arraysList : List (Tree A L) → List A
  | [] => []
  | t :: ts => arrays t ++ arraysList ts

end

mutual

/-- Trees of one structure with equal arrays and equal leaves. -/
def eqBy (eqArray : A → A → Bool) (eqLeaf : L → L → Bool) : Tree A L → Tree A L → Bool
  | .none, .none => true
  | .array a, .array b => eqArray a b
  | .leaf l, .leaf m => eqLeaf l m
  | .node kind children, .node kind' children' =>
    kind = kind' && eqByList eqArray eqLeaf children children'
  | _, _ => false

def eqByList (eqArray : A → A → Bool) (eqLeaf : L → L → Bool) :
    List (Tree A L) → List (Tree A L) → Bool
  | [], [] => true
  | t :: ts, u :: us => eqBy eqArray eqLeaf t u && eqByList eqArray eqLeaf ts us
  | _, _ => false

end

end Tree

/-! ### Calls -/

/-- `==` of Python on leaves that are no arrays. -/
class PyEq (L : Type) where
  pyEq : L → L → Bool
  refl : ∀ l, pyEq l l = true
  symm : ∀ {l m}, pyEq l m = true → pyEq m l = true
  trans : ∀ {l m n}, pyEq l m = true → pyEq m n = true → pyEq l n = true

section

variable {A X L : Type} [DecidableEq X] [PyEq L] (aval : A → X)

def staticEq : Tree Empty L → Tree Empty L → Bool := Tree.eqBy (fun a _ => a.elim) PyEq.pyEq

def avalKey (arrays : Tree A Empty) : List X := arrays.arrays.map aval

/-- What the jit has traced: the arrays' shapes at their places and the static argument. -/
structure Trace (X L : Type) where
  avals : Tree X Empty
  static : Tree Empty L

/-- An item of `out_static`. -/
structure OutStatic (X L : Type) where
  static : Tree Empty L
  avals : List X
  out : Tree Empty L

/-- The two tables; `outStatic` lists the least recently used item first. -/
structure Tables (X L : Type) where
  traces : List (Trace X L)
  outStatic : List (OutStatic X L)

def Tables.empty : Tables X L := ⟨[], []⟩

def modelJitOutStaticMax : Nat := 256

/-- The item has the key. -/
def OutStatic.hasKey (item : OutStatic X L) (static : Tree Empty L) (avals : List X) : Bool :=
  staticEq item.static static && item.avals = avals

/-- `out_static[key] = out_rest`, `move_to_end` and `popitem`.  A key that is there stays. -/
@[irreducible] def record (items : List (OutStatic X L)) (static : Tree Empty L) (avals : List X)
    (out : Tree Empty L) : List (OutStatic X L) :=
  let kept := ((items.find? fun item => item.hasKey static avals).map (·.static)).getD static
  let items := (items.filter fun item => !item.hasKey static avals) ++ [⟨kept, avals, out⟩]
  items.drop (items.length - modelJitOutStaticMax)

/-- `out_static.move_to_end(key)`. -/
def moveToEnd (items : List (OutStatic X L)) (static : Tree Empty L) (avals : List X) :
    List (OutStatic X L) :=
  (items.filter fun item => !item.hasKey static avals) ++
    items.filter fun item => item.hasKey static avals

def Trace.reused (trace : Trace X L) (avals : Tree X Empty) (static : Tree Empty L) : Bool :=
  trace.avals.eqBy (fun x y => x = y) (fun l _ => l.elim) avals && staticEq trace.static static

variable (fn : Tree A L → Option (Tree A L))

/-- `run`, under a trace: what it returns besides arrays goes to `out_static`. -/
def run (items : List (OutStatic X L)) (arrays : Tree A Empty) (static : Tree Empty L) :
    Option (Tree A Empty × List (OutStatic X L)) :=
  (fn (arrays.combine static)).map fun out =>
    (out.selected, record items static (avalKey aval arrays) out.rest)

/-- `jitted(arrays, static)`: a trace that is reused computes with the static argument that it was
made with. -/
def jitted (s : Tables X L) (arrays : Tree A Empty) (static : Tree Empty L) :
    Option (Tree A Empty × Tables X L) :=
  match s.traces.find? fun trace => trace.reused (arrays.withAvals aval) static with
  | some trace => (fn (arrays.combine trace.static)).map fun out => (out.selected, s)
  | none => (run aval fn s.outStatic arrays static).map fun ran =>
    (ran.1, ⟨⟨arrays.withAvals aval, static⟩ :: s.traces, ran.2⟩)

/-- `if key not in out_static: jax.eval_shape(..)`. -/
def ensured (s : Tables X L) (arrays : Tree A Empty) (static : Tree Empty L) :
    Option (Tables X L) :=
  if s.outStatic.any fun item => item.hasKey static (avalKey aval arrays) then some s
  else (run aval fn s.outStatic arrays static).map fun ran => { s with outStatic := ran.2 }

/-- `wrapper`, on the tree of all arguments. -/
def wrapper (s : Tables X L) (args : Tree A L) : Option (Tree A L × Tables X L) := do
  let (outArrays, s) ← jitted aval fn s args.selected args.rest
  let s ← ensured aval fn s args.selected args.rest
  let items := moveToEnd s.outStatic args.rest (avalKey aval args.selected)
  let item ← items.find? fun item => item.hasKey args.rest (avalKey aval args.selected)
  return (outArrays.combine item.out, { s with outStatic := items })

/-- The tables after a sequence of calls; a call that raises leaves them as they are. -/
def afterCalls (calls : List (Tree A L)) : Tables X L :=
  calls.foldl (fun s args => ((wrapper aval fn s args).map (·.2)).getD s) .empty

end

end Xtrax.ModelJit
