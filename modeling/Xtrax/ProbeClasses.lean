import Xtrax.Dict
import Xtrax.TopologicalOrder

/-!
# Classes of divergent probes

Each probe has leaves that were compared, and predecessors that are declared.  `classify_probes`
goes through the probes in topological order, resolves the severity of float leaves with their
budgets, and gives each probe a class by its own leaves and its predecessors' severities.

The severity of a probe is that of its own leaves, so a report can be said without the order
(`reportOf`).
-/

namespace Xtrax.Probes

open TopologicalOrder

/-- `Severity`, an `IntEnum`. -/
inductive Severity
  | identical
  | withinBudget
  | beyondBudget
  deriving DecidableEq

def Severity.value : Severity → Nat
  | identical => 0
  | withinBudget => 1
  | beyondBudget => 2

theorem Severity.value_injective : Function.Injective Severity.value := by
  intro a b h
  cases a <;> cases b <;> first | rfl | exact absurd h (by decide)

instance : LinearOrder Severity := LinearOrder.lift' Severity.value Severity.value_injective

theorem Severity.identical_le (s : Severity) : identical ≤ s := Nat.zero_le s.value

theorem Severity.le_beyondBudget (s : Severity) : s ≤ beyondBudget := by cases s <;> decide

inductive DivergenceClass
  | uncomparable
  | discreteFlip
  | injected
  | amplified
  | attenuated
  | clean
  deriving DecidableEq

inductive DtypeClass
  | float
  | integer
  | bool
  deriving DecidableEq

/-- What is used of floats: the defaults of two metrics, and comparisons. -/
structure Floats (R : Type) where
  zero : R
  inf : R
  le : R → R → Bool
  lt : R → R → Bool

structure LeafDivergence (R : Type) where
  path : String
  dtypeClass : DtypeClass
  severity : Severity
  metrics : List (String × R) := []
  failed : Bool := false
  deriving DecidableEq

structure ProbeReport (R : Type) where
  name : String
  predecessors : List String
  leaves : List (LeafDivergence R)
  severity : Severity
  divergenceClass : DivergenceClass
  deriving DecidableEq

inductive ProbeError
  | unknownProbe (probe : String)
  | undeclaredPredecessor (probe pred : String)
  | cycle (name : String)
  | recursionError
  | endless
  | missingBudget (probe path : String)
  | keyError (name : String)
  deriving DecidableEq

abbrev Leaves (R : Type) := List (LeafDivergence R)

/-- The leaves of each probe. -/
abbrev Compared (R : Type) := Dict String (Leaves R)

abbrev Deps := Dict String (List String)

/-- A mapping of budgets, of which only its entries are looked at. -/
abbrev Budgets (R : Type) := String → Option R

def budgetKey (probeName leafPath : String) : String :=
  if leafPath = "" then probeName else probeName ++ "\x1f" ++ leafPath

/-- `probe_deps.get(name, ())`. -/
def predecessors (probeDeps : Deps) (name : String) : List String :=
  (probeDeps.get? name).getD []

/-- The checks of `_topological_order`. -/
def checkDeclared (names : List String) : List (String × List String) → Except ProbeError Unit
  | [] => .ok ()
  | (probe, preds) :: rest =>
    if probe ∉ names then .error (.unknownProbe probe)
    else match preds.find? fun pred => pred ∉ names with
      | some pred => .error (.undeclaredPredecessor probe pred)
      | none => checkDeclared names rest

/-- `_topological_order`; `_visit` calls itself, and `depth` such calls may nest before the
interpreter raises a `RecursionError`. -/
def probeOrder (depth : Nat) (names : List String) (probeDeps : Deps) :
    Except ProbeError (List String) :=
  match checkDeclared names probeDeps.entries with
  | .error e => .error e
  | .ok () => match topologicalOrder (predecessors probeDeps) depth names with
    | .error (.cycle name) => .error (.cycle name)
    | .error .depth => .error .recursionError
    | .ok order => .ok order

section

variable {R : Type} (floats : Floats R) (depth : Nat)

def leafNeedsBudget (leaf : LeafDivergence R) : Bool :=
  !leaf.failed && leaf.dtypeClass = .float && leaf.severity ≠ .identical

/-- The severity of a float leaf by its budget. -/
def budgetSeverity (leaf : LeafDivergence R) (budget : R) : Severity :=
  if floats.lt floats.zero ((leaf.metrics.lookup "n_nonfinite_mismatch").getD floats.zero) then
    .beyondBudget
  else if floats.le ((leaf.metrics.lookup "max_ulp_diff").getD floats.inf) budget then .withinBudget
  else .beyondBudget

def resolveLeafSeverity (budgets : Budgets R) (probeName : String) (leaf : LeafDivergence R) :
    Except ProbeError (LeafDivergence R) :=
  if leafNeedsBudget leaf then
    match budgets (budgetKey probeName leaf.path) with
    | none => .error (.missingBudget probeName leaf.path)
    | some budget => .ok { leaf with severity := budgetSeverity floats leaf budget }
  else .ok leaf

/-- `max(.., default=Severity.IDENTICAL)`. -/
def worst (severities : List Severity) : Severity := severities.foldr max .identical

/-- The branches of `classify_probes`. -/
def divergenceClass (leaves : Leaves R) (predSeverities : List Severity) : DivergenceClass :=
  let severity := worst (leaves.map (·.severity))
  let allPredecessorsClean := predSeverities.all (· = .identical)
  if leaves.any (·.failed) then .uncomparable
  else if (leaves.any fun leaf => (leaf.dtypeClass = .integer || leaf.dtypeClass = .bool) &&
      leaf.severity ≠ .identical) && allPredecessorsClean then .discreteFlip
  else if allPredecessorsClean && severity = .beyondBudget then .injected
  else if !allPredecessorsClean && .identical < severity && worst predSeverities ≤ severity then
    .amplified
  else if !allPredecessorsClean && severity < worst predSeverities then .attenuated
  else .clean

/-- The report of a probe, from its leaves and its predecessors' severities. -/
def makeReport (name : String) (preds : List String) (leaves : Leaves R)
    (predSeverities : List Severity) : ProbeReport R where
  name := name
  predecessors := preds
  leaves := leaves
  severity := worst (leaves.map (·.severity))
  divergenceClass := divergenceClass leaves predSeverities

/-- `reports[name]`. -/
def findReport (reports : List (String × ProbeReport R)) (name : String) :
    Except ProbeError (ProbeReport R) :=
  match reports.lookup name with
  | none => .error (.keyError name)
  | some report => .ok report

/-- `probes[name]`. -/
def findLeaves (probes : Compared R) (name : String) : Except ProbeError (Leaves R) :=
  match probes.get? name with
  | none => .error (.keyError name)
  | some leaves => .ok leaves

/-- One pass of the loop of `classify_probes`. -/
def classifyProbe (probes : Compared R) (probeDeps : Deps) (budgets : Budgets R)
    (reports : List (String × ProbeReport R)) (name : String) :
    Except ProbeError (List (String × ProbeReport R)) := do
  let preds := predecessors probeDeps name
  let compared ← findLeaves probes name
  let leaves ← compared.mapM (resolveLeafSeverity floats budgets name)
  let predReports ← preds.mapM (findReport reports)
  return (name, makeReport name preds leaves (predReports.map (·.severity))) :: reports

/-- `probes.keys()`. -/
def probeNames (probes : Compared R) : List String := probes.entries.map (·.1)

def classifyProbes (probes : Compared R) (probeDeps : Deps) (budgets : Budgets R) :
    Except ProbeError (List (ProbeReport R)) := do
  let order ← probeOrder depth (probeNames probes) probeDeps
  let reports ← order.foldlM (classifyProbe floats probes probeDeps budgets) []
  (probeNames probes).mapM (findReport reports)

/-! ### What a report says -/

/-- The leaf with its severity resolved, if there is a budget. -/
def resolved (budgets : Budgets R) (probeName : String) (leaf : LeafDivergence R) :
    LeafDivergence R :=
  if leafNeedsBudget leaf then
    match budgets (budgetKey probeName leaf.path) with
    | none => leaf
    | some budget => { leaf with severity := budgetSeverity floats leaf budget }
  else leaf

def resolvedLeaves (probes : Compared R) (budgets : Budgets R) (name : String) : Leaves R :=
  ((probes.get? name).getD []).map (resolved floats budgets name)

/-- The severity of a probe is that of its own leaves. -/
def severityOf (probes : Compared R) (budgets : Budgets R) (name : String) : Severity :=
  worst ((resolvedLeaves floats probes budgets name).map (·.severity))

def reportOf (probes : Compared R) (probeDeps : Deps) (budgets : Budgets R) (name : String) :
    ProbeReport R :=
  makeReport name (predecessors probeDeps name) (resolvedLeaves floats probes budgets name)
    ((predecessors probeDeps name).map (severityOf floats probes budgets))

/-- The declared graph has a cycle. -/
def Cyclic (probeDeps : Deps) : Prop :=
  ∃ name, Relation.TransGen (Edge (predecessors probeDeps)) name name

/-- The declared graph names a probe that there is not. -/
def Undeclared (names : List String) (probeDeps : Deps) : Prop :=
  ∃ entry ∈ probeDeps.entries, entry.1 ∉ names ∨ ∃ pred ∈ entry.2, pred ∉ names

/-- A leaf of the probe needs a budget that there is not. -/
def Unbudgeted (budgets : Budgets R) (name : String) (leaves : Leaves R) : Prop :=
  ∃ leaf ∈ leaves, leafNeedsBudget leaf = true ∧ budgets (budgetKey name leaf.path) = none

end

end Xtrax.Probes
