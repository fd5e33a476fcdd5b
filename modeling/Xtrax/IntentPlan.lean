import Xtrax.BatchPlanner

/-!
# Sites, decisions and plans

A site is an intent call on one resolution path.  Its key names the enclosing site, the path
on which it was entered there, the label and an ordinal; the canonical key has the path
`primal` at every level.  A session records the sites a trace visits (`SiteRecord`), and a plan
holds one decision for each of them.

What a `Scan` or a `WhileCarry` may hold beside its other fields is an object that nothing looks
into; the resolver hands it on, and the JSON form of a plan has no place for it.
-/

namespace Xtrax.Intent

inductive Path
  | primal | diff
  deriving DecidableEq, Repr

def Path.text : Path → String
  | .primal => "primal"
  | .diff => "diff"

/-- `SiteKey`, at the root or below a parent. -/
inductive SiteKey
  | root (path : Path) (label : String) (ordinal : Nat)
  | child (parent : SiteKey) (path : Path) (label : String) (ordinal : Nat)
  deriving DecidableEq, Repr

namespace SiteKey

def parent : SiteKey → Option SiteKey
  | root .. => none
  | child parent .. => some parent

def path : SiteKey → Path
  | root path .. => path
  | child _ path .. => path

def label : SiteKey → String
  | root _ label _ => label
  | child _ _ label _ => label

def ordinal : SiteKey → Nat
  | root _ _ ordinal => ordinal
  | child _ _ _ ordinal => ordinal

def str : SiteKey → String
  | root path label ordinal => path.text ++ "/" ++ label ++ "#" ++ toString ordinal
  | child parent path label ordinal =>
    parent.str ++ "/" ++ (path.text ++ "/" ++ label ++ "#" ++ toString ordinal)

end SiteKey

def canonical : SiteKey → SiteKey
  | .root _ label ordinal => .root .primal label ordinal
  | .child parent _ label ordinal => .child (canonical parent) .primal label ordinal

@[simp] theorem canonical_canonical (key : SiteKey) : canonical (canonical key) = canonical key := by
  induction key with
  | root => rfl
  | child parent path label ordinal ih => rw [canonical, canonical, ih]

def isPrimalChain (key : SiteKey) : Bool := key = canonical key

theorem isPrimalChain_iff {key : SiteKey} : isPrimalChain key = true ↔ canonical key = key := by
  rw [isPrimalChain, decide_eq_true_iff, eq_comm]

/-- The keys above a key, nearest first. -/
def parents : SiteKey → List SiteKey
  | .root .. => []
  | .child parent .. => parent :: parents parent

def ancestorKeys (key : SiteKey) : List SiteKey := (parents key).map canonical

inductive OpForm
  | reference | customJvp | customVjp
  deriving DecidableEq, Repr

/-- `OpPrimal`, with the check of `__post_init__`. -/
structure OpPrimal where
  backend : Option String
  form : OpForm
  form_backend : form = .reference ↔ backend = none
  deriving DecidableEq, Repr

/-- A callable or another Python object, by its identity. -/
structure Held where
  id : Nat
  deriving DecidableEq, Repr

/-- What a site runs. -/
inductive Strategy
  | vmap
  | chunkedMap (batchSize : Int)
  | scan (orderedSinks : Bool) (transition init : Option Held := none)
  | staticWhile (length : Nat)
  | whileCarry (body cond init : Option Held := none)
  | op (primal : OpPrimal)
  deriving DecidableEq, Repr

namespace Strategy

/-- `isinstance(strategy, (Vmap, ChunkedMap))`. -/
def isMap : Strategy → Bool
  | vmap | chunkedMap _ => true
  | _ => false

def isChunkedMap : Strategy → Bool
  | chunkedMap _ => true
  | _ => false

def isScan : Strategy → Bool
  | scan .. => true
  | _ => false

def isStaticWhile : Strategy → Bool
  | staticWhile _ => true
  | _ => false

def isWhileCarry : Strategy → Bool
  | whileCarry .. => true
  | _ => false

/-- `type(strategy).__name__`. -/
def typeName : Strategy → String
  | vmap => "Vmap"
  | chunkedMap _ => "ChunkedMap"
  | scan .. => "Scan"
  | staticWhile _ => "StaticWhile"
  | whileCarry .. => "WhileCarry"
  | op _ => "OpPrimal"

end Strategy

inductive Kind
  | loop | map | op
  deriving DecidableEq, Repr

structure OpChoice where
  primal : OpPrimal
  reason : String
  warnings : List String := []
  deriving DecidableEq, Repr

theorem leading_four : Kind.loop = .map → ∃ n dims rest, [[4]] = (n :: dims) :: rest := nofun

/-- `SiteRecord`, its abstract values given by their shapes; the leaves of what a map maps over
have a leading axis. -/
structure SiteRecord where
  key : SiteKey
  kind : Kind
  avals : List (List Nat)
  length : Option Nat
  op : Option OpChoice := none
  leading : kind = .map → ∃ n dims rest, avals = (n :: dims) :: rest := by first | exact leading_four | simp

structure SiteDecision where
  key : SiteKey
  kind : Kind
  primal : Strategy
  diff : Option Strategy
  primalReason : String
  diffReason : String
  warnings : List String := []
  deriving DecidableEq, Repr

inductive Target
  | jit | exporting
  deriving DecidableEq, Repr

/-- A `MemoryBudget`, or a number of bytes. -/
inductive RawBudget
  | budget (budget : BatchPlanner.MemoryBudget Unit)
  | bytes (bytes : Int)

theorem chunk_pos : (1 : Int) ≤ 32 := by decide

theorem format_none : Target.jit = .exporting → (none : Option String) ≠ none := nofun

/-- `Context`, with the checks of `__post_init__`. -/
structure Context where
  memoryBudget : Option RawBudget := none
  target : Target := .jit
  exportFormat : Option String := none
  backend : Option String := none
  chunkSize : Int := 32
  format_given : target = .exporting → exportFormat ≠ none := by first | exact format_none | simp
  chunkSize_pos : 1 ≤ chunkSize := by first | exact chunk_pos | decide

/-- `resolved_backend`, over JAX's default backend. -/
def Context.resolvedBackend (ctx : Context) (defaultBackend : String) : String :=
  match ctx.backend with
  | some backend => if backend = "" then defaultBackend else backend
  | none => defaultBackend

structure Plan where
  schemaVersion : Nat
  context : Context
  decisions : List SiteDecision
  warnings : List String := []

def Plan.byKey (plan : Plan) (key : SiteKey) : Option SiteDecision :=
  plan.decisions.find? fun decision => decision.key = key

end Xtrax.Intent
