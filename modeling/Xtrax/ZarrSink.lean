import Xtrax.MemorySink
import Xtrax.ZarrNodes

/-! # The Zarr sink in exclusive mode

A drain writes the buffered keys one after the other, each into the group of its path, and the attrs of
a key behind its arrays.  The root group is held open from the start, and its attrs are written from what
is held; other groups are looked up anew.

What was written before an exception stays written, and the buffer stays as it was.
-/
namespace Xtrax.StagingBuffer

open StagingSink (NDArray Reject conflict)
open ZarrNodes

/-- What a write to the store raises. -/
inductive StoreFailure (X : Type)
  | reject (e : Reject)
  /-- A group stands where an array should be extended. -/
  | notArray (name : String)
  | zarr (e : X)

/-- Why a sink does not open a store. -/
inductive OpenFailure (V X : Type)
  | durable
  | otherRun (runId : V)
  | zarr (e : X)

def storeAttr : String := "xtrax.store"

/-- A `ZarrStagingSink` that is neither finalized nor closed. -/
structure ZarrSink (S Q K E V : Type) where
  buffer : Buffer Q K (NDArray E) V
  store : S
  /-- The attrs of the root group, as the sink holds them. -/
  rootAttrs : Dict String V

namespace ZarrSink

variable {S Q K E V X : Type} [DecidableEq K] (N : Naming Q K) (spec : Spec V) (Z : Zarr S E V X)

def writeRootProvenance (z : ZarrSink S Q K E V) : Except X (ZarrSink S Q K E V) := do
  let rootAttrs := z.rootAttrs.update spec.provenance.record
  let store ← Z.putAttrs z.store [] rootAttrs
  return { z with store, rootAttrs }

/-- `__init__`, of an open root group. -/
def new [DecidableEq V] (store : S) : Except (OpenFailure V X) (ZarrSink S Q K E V) :=
  let rootAttrs := groupAttrs (Z.node store [])
  if rootAttrs.get? storeAttr ≠ none then .error .durable
  else
    match (rootAttrs.get? "run_id").filter (· ≠ spec.provenance.runId) with
    | some runId => .error (.otherRun runId)
    | none => (writeRootProvenance spec Z { buffer := .new, store, rootAttrs }).mapError .zarr

/-! ## Arrays -/

section Arrays

variable (append : Bool)

def rejectUnappendable (store : S) (group : Location) (name : String) (array : NDArray E) :
    Except (StoreFailure X) Unit := do
  let l ← (Z.locate name).mapError .zarr
  match Z.node store (group ++ l) with
  | none => .ok ()
  | some (.group _) => .error (.notArray name)
  | some (.array existing) =>
    match conflict (some name) existing array with
    | some e => .error (.reject e)
    | none => .ok ()

def writeArray (store : S) (group : Location) (name : String) (array : NDArray E) :
    Except (StoreFailure X) S := do
  let l ← (Z.locate name).mapError .zarr
  match if append then Z.node store (group ++ l) else none with
  | none => (Z.createArray store (group ++ l) array).mapError .zarr
  | some (.group _) => .error (.notArray name)
  | some (.array existing) =>
    match conflict (some name) existing array with
    | some e => .error (.reject e)
    | none => (Z.extendArray store (group ++ l) array).mapError .zarr

/-- The loop of `drain` over the arrays of a key. -/
def writeArrays (group : Location) :
    List (String × NDArray E) → S → S × Option (StoreFailure X)
  | [], store => (store, none)
  | (name, array) :: rest, store =>
    match writeArray Z append store group name array with
    | .error e => (store, some e)
    | .ok store => writeArrays group rest store

/-- All arrays of a key, or none where one cannot be appended. -/
def putArrays (group : Location) (arrays : List (String × NDArray E)) (store : S) :
    S × Option (StoreFailure X) :=
  match if append then arrays.forM fun e => rejectUnappendable Z store group e.1 e.2 else .ok () with
  | .error e => (store, some e)
  | .ok () => writeArrays Z append group arrays store

end Arrays

/-! ## Keys -/

/-- The group of a key, with the attrs its handle holds. -/
def requireKeyGroup (z : ZarrSink S Q K E V) (key : Q) : Except X (S × Location × Dict String V) :=
  if N.path key = "" then .ok (z.store, [], z.rootAttrs)
  else do
    let p ← Z.locate (N.path key)
    let store ← Z.requireGroup z.store p
    return (store, p, groupAttrs (Z.node store p))

/-- `group.attrs.update`, through the handle of a key's group. -/
def updateAttrs (z : ZarrSink S Q K E V) (key : Q) (group : Location) (attrs : Dict String V)
    (new : List (String × V)) : Except X (ZarrSink S Q K E V × Dict String V) := do
  let attrs := attrs.update new
  let store ← Z.putAttrs z.store group attrs
  return ({ z with store, rootAttrs := if N.path key = "" then attrs else z.rootAttrs }, attrs)

/-- The attrs of a key are written, and then the pointer to the run. -/
def stamp (z : ZarrSink S Q K E V) (key : Q) (group : Location) (attrs : Dict String V) :
    ZarrSink S Q K E V × Option (StoreFailure X) :=
  let staged := (lookup N z.buffer.pendingAttrs key).entries
  match if staged = [] then .ok (z, attrs) else updateAttrs N Z z key group attrs staged with
  | .error e => (z, some (.zarr e))
  | .ok (z, attrs) =>
    match updateAttrs N Z z key group attrs spec.provenance.pointer with
    | .error e => (z, some (.zarr e))
    | .ok (z, _) => (z, none)

/-- What `drain` does for one key. -/
def drainKey (z : ZarrSink S Q K E V) (key : Q) (arrays : List (String × NDArray E)) :
    ZarrSink S Q K E V × Option (StoreFailure X) :=
  match requireKeyGroup N Z z key with
  | .error e => (z, some (.zarr e))
  | .ok (store, group, attrs) =>
    match putArrays Z spec.append group arrays store with
    | (store, some e) => ({ z with store }, some e)
    | (store, none) => stamp N spec Z { z with store } key group attrs

/-- The loop of `drain` over the buffered keys, and what it ends with. -/
def drainLoop : List (K × Q × Dict String (NDArray E)) → ZarrSink S Q K E V →
    ZarrSink S Q K E V × Option (Failure Q (StoreFailure X))
  | [], z =>
    let z := { z with buffer := .new }
    match writeRootProvenance spec Z z with
    | .error e => (z, some (.store (.zarr e)))
    | .ok z => (z, none)
  | (_, key, arrays) :: rest, z =>
    match drainKey N spec Z z key arrays.entries with
    | (z, some e) => (z, some (.raised key e))
    | (z, none) => drainLoop rest z

/-! ## Calls -/

def storedAttrs (z : ZarrSink S Q K E V) (key : Q) : Except X (Dict String V) :=
  if N.path key = "" then .ok z.rootAttrs
  else do
    let p ← Z.locate (N.path key)
    return groupAttrs (Z.node z.store p)

/-- `_validate_required_before_drain`. -/
def validateRequired (z : ZarrSink S Q K E V) : Except (Failure Q (StoreFailure X)) Unit := do
  let asked := z.buffer.pendingAttrs.entries.filter fun e =>
    (spec.schemaForKey N e.2.1).any fun schema => schema.required ≠ []
  asked.forM fun e => do
    let _ ← (storedAttrs N Z z e.2.1).mapError fun e => .store (.zarr e)
  z.buffer.validateRequired N spec fun key => (storedAttrs N Z z key).toOption.getD ∅

def drain (z : ZarrSink S Q K E V) : ZarrSink S Q K E V × Option (Failure Q (StoreFailure X)) :=
  match validateRequired N spec Z z with
  | .error e => (z, some e)
  | .ok () => drainLoop N spec Z z.buffer.pending.entries z

def stage (z : ZarrSink S Q K E V) (key : Q) (attrs : Dict String V)
    (arrays : Dict String (NDArray E)) :
    ZarrSink S Q K E V × Option (Failure Q (StoreFailure X)) :=
  match z.buffer.stage N spec key attrs arrays with
  | .error e => (z, some e)
  | .ok buffer =>
    let z := { z with buffer }
    if spec.flushEvery ≤ buffer.stagedSinceDrain then drain N spec Z z else (z, none)

def take (z : ZarrSink S Q K E V) (key : Q) :
    ZarrSink S Q K E V × Except (Failure Q (StoreFailure X)) (Dict String (NDArray E)) :=
  let (buffer, taken) := z.buffer.take N key
  ({ z with buffer }, taken)

def call (z : ZarrSink S Q K E V) : Call Q (NDArray E) V →
    ZarrSink S Q K E V × Except (Failure Q (StoreFailure X)) (Returned (NDArray E))
  | .stage key attrs arrays =>
    let (z, e) := stage N spec Z z key attrs arrays
    (z, e.elim (.ok .nothing) .error)
  | .take key =>
    let (z, taken) := take N z key
    (z, taken.map .arrays)
  | .drain =>
    let (z, e) := drain N spec Z z
    (z, e.elim (.ok .nothing) .error)

/-- The sink after some calls and what they returned; nothing where one of them raises. -/
def run (z : ZarrSink S Q K E V) : List (Call Q (NDArray E) V) →
    Option (ZarrSink S Q K E V × List (Returned (NDArray E)))
  | [] => some (z, [])
  | c :: calls =>
    match call N spec Z z c with
    | (_, .error _) => none
    | (z, .ok r) => (run z calls).map fun (z, returned) => (z, r :: returned)

end ZarrSink

end Xtrax.StagingBuffer
