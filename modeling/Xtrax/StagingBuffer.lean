import Xtrax.Dict

/-! # The buffer of a staging sink

`MemorySink` and `ZarrStagingSink` hold what is staged in the same two dictionaries, one for
the arrays of a key and one for its attrs, until a drain empties them.  `stage` checks the attrs
and merges; `take` removes a key from both.

A dictionary keeps the key object it got first.  Keys that compare equal are one key of it, and
equal keys need not be written alike: `(1,)` and `(True,)` are one key under two paths.
Different keys may be written alike, as `("a", "b")` and `("a/b",)` are.

Arrays are values here: what a caller does to an array after it was staged is not modelled.
-/
namespace Xtrax.StagingBuffer

/-- What a sink uses of its keys.  `ident` is a key up to `==`, and `parts` is `str` of each of
its components. -/
structure Naming (Q K : Type) where
  ident : Q → K
  parts : Q → List String

variable {Q K A V R ν : Type}

/-- `"/".join(str(part) for part in key)`. -/
def Naming.path (N : Naming Q K) (key : Q) : String := "/".intercalate (N.parts key)

def coreProvenanceFields : List String :=
  ["git_sha", "git_branch", "git_dirty", "run_id", "created_at", "producer", "xtrax_version"]

def reservedAttrPrefix : String := "xtrax."

/-- A schema for attrs.  `typed` says whether a value has the type declared for a field; a field
without a declared type takes any value. -/
structure Schema (V : Type) where
  required : List String
  typed : String → V → Bool

/-- The record a sink keeps of its run, as attr values. -/
structure Provenance (V : Type) where
  runId : V
  createdAt : V
  gitSha : V
  gitBranch : V
  gitDirty : V
  producer : V
  xtraxVersion : V
  seed : Option V

namespace Provenance

/-- What is written to the root group of a store. -/
def record (p : Provenance V) : List (String × V) :=
  [("run_id", p.runId), ("created_at", p.createdAt), ("git_sha", p.gitSha),
    ("git_branch", p.gitBranch), ("git_dirty", p.gitDirty), ("producer", p.producer),
    ("xtrax_version", p.xtraxVersion)] ++ (p.seed.map fun seed => ("seed", seed)).toList

/-- What is written to the group of every drained key. -/
def pointer (p : Provenance V) : List (String × V) := [("run_id", p.runId), ("git_sha", p.gitSha)]

end Provenance

/-- `SinkSpec`, as far as an exclusive sink reads it. -/
structure Spec (V : Type) where
  outputDir : Option String
  runId : String
  seed : Option Int
  provenance : Provenance V
  append : Bool
  flushEvery : Nat
  extensionSchema : Option (Schema V)
  levelSchemas : Nat → Option (Schema V)

def Spec.schemaForKey (spec : Spec V) (N : Naming Q K) (key : Q) : Option (Schema V) :=
  (spec.levelSchemas (N.parts key).length).or spec.extensionSchema

/-- What a call raises. -/
inductive Failure (Q R : Type)
  /-- Attrs under names of the provenance record. -/
  | coreFields (key : Q) (names : List String)
  | reservedNames (key : Q) (names : List String)
  /-- Attrs of a type the schema does not allow. -/
  | illTyped (key : Q) (names : List String)
  /-- Keys whose attrs lack required fields. -/
  | incomplete (missing : List (Q × List String))
  | noPending (key : Q)
  /-- An array is rejected, or the store raises, while this key is drained. -/
  | raised (key : Q) (e : R)
  | undrained (keys : Nat)
  | finalized
  /-- The `ValueError` for a NaN or an infinity in a payload to hash. -/
  | notFinite
  /-- The store raises outside a key. -/
  | store (e : R)
  deriving DecidableEq

/-- What is staged and neither drained nor taken. -/
structure Buffer (Q K A V : Type) where
  pending : Dict K (Q × Dict String A)
  pendingAttrs : Dict K (Q × Dict String V)
  stagedSinceDrain : Nat

def Buffer.new : Buffer Q K A V := ⟨∅, ∅, 0⟩

section Model

variable [DecidableEq K] (N : Naming Q K) (spec : Spec V)

/-- `d.setdefault(key, {})` and what is then done to the value. -/
def upsert (d : Dict K (Q × Dict String ν)) (key : Q) (f : Dict String ν → Dict String ν) :
    Dict K (Q × Dict String ν) :=
  match d.get? (N.ident key) with
  | none => d.set (N.ident key) (key, f ∅)
  | some (first, v) => d.set (N.ident key) (first, f v)

/-- `d.get(key, {})`. -/
def lookup (d : Dict K (Q × Dict String ν)) (key : Q) : Dict String ν :=
  ((d.get? (N.ident key)).map (·.2)).getD ∅

namespace Buffer

def validateStageAttrs (b : Buffer Q K A V) (key : Q) (attrs : Dict String V) :
    Except (Failure Q R) Unit :=
  let names := attrs.entries.map (·.1)
  let collisions := names.filter (· ∈ coreProvenanceFields)
  let reserved := names.filter fun name => reservedAttrPrefix.toList.isPrefixOf name.toList
  if collisions ≠ [] then .error (.coreFields key collisions)
  else if reserved ≠ [] then .error (.reservedNames key reserved)
  else
    match spec.schemaForKey N key with
    | none => .ok ()
    | some schema =>
      let merged := (lookup N b.pendingAttrs key).update attrs.entries
      let errors := (merged.entries.filter fun e => !schema.typed e.1 e.2).map (·.1)
      if errors ≠ [] then .error (.illTyped key errors) else .ok ()

/-- The part of `stage` that buffers. -/
def merge (b : Buffer Q K A V) (key : Q) (attrs : Dict String V) (arrays : Dict String A) :
    Buffer Q K A V where
  pending := upsert N b.pending key fun d => d.update arrays.entries
  pendingAttrs :=
    if attrs.entries = [] then b.pendingAttrs
    else upsert N b.pendingAttrs key fun d => d.update attrs.entries
  stagedSinceDrain := b.stagedSinceDrain + 1

/-- `stage` up to the flush. -/
def stage (b : Buffer Q K A V) (key : Q) (attrs : Dict String V) (arrays : Dict String A) :
    Except (Failure Q R) (Buffer Q K A V) := do
  if attrs.entries ≠ [] then b.validateStageAttrs N spec key attrs
  return b.merge N key attrs arrays

/-- `take`.  The attrs are dropped also when there is nothing to take. -/
def take (b : Buffer Q K A V) (key : Q) : Buffer Q K A V × Except (Failure Q R) (Dict String A) :=
  let dropped := { b with pendingAttrs := b.pendingAttrs.erase (N.ident key) }
  match b.pending.get? (N.ident key) with
  | none => (dropped, .error (.noPending key))
  | some (_, arrays) => ({ dropped with pending := b.pending.erase (N.ident key) }, .ok arrays)

/-- `_validate_required_before_drain`, with the attrs that are committed under a key. -/
def validateRequired (committed : Q → Dict String V) (b : Buffer Q K A V) :
    Except (Failure Q R) Unit :=
  let failures := b.pendingAttrs.entries.filterMap fun (_, key, attrs) =>
    (spec.schemaForKey N key).bind fun schema =>
      let merged := (committed key).update attrs.entries
      let missing := schema.required.filter fun name => merged.get? name = none
      if missing = [] then none else some (key, missing)
  if failures ≠ [] then .error (.incomplete failures) else .ok ()

end Buffer

inductive Call (Q A V : Type)
  | stage (key : Q) (attrs : Dict String V) (arrays : Dict String A)
  | take (key : Q)
  | drain

/-- What a call returns. -/
inductive Returned (A : Type)
  | nothing
  | arrays (arrays : Dict String A)

end Model

end Xtrax.StagingBuffer
