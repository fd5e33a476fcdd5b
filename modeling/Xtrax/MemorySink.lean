import Xtrax.StagingBuffer
import Xtrax.ZarrDigest

/-! # The memory sink

A drain commits the buffered keys one after the other: it plans all arrays of a key before it
stores the first, so a rejected array leaves its key as it was, and the keys before it stay
committed while the whole buffer is kept.

`finalize` goes through the committed keys in the order of their rendered components and fills a
dictionary from path to array digests, which it hashes as JSON.  A later key with the path of an
earlier one takes its place in the dictionary.
-/
namespace Xtrax.StagingBuffer

structure Receipt where
  path : Option String
  digest : String
  digestAlgoVersion : Nat
  runId : String
  seed : Option Int
  deriving DecidableEq

def memoryDigestAlgoVersion : Nat := 2

/-- A `MemorySink` that is not closed. -/
structure MemorySink (Q K A V : Type) where
  buffer : Buffer Q K A V
  committed : Dict K (Q × Dict String A)
  committedAttrs : Dict K (Q × Dict String V)
  isFinalized : Bool

namespace MemorySink

def new {Q K A V : Type} : MemorySink Q K A V := ⟨.new, ∅, ∅, false⟩

section Model

-- `_store_array` at the sink's `spec.append`
variable {Q K A V R : Type} [DecidableEq K] (N : Naming Q K) (spec : Spec V)
  (store : Option A → A → Except R A)

/-- The arrays of a key, each with what is stored before it. -/
def planned (stored : Dict String A) : List (String × A) → Except R (List (String × A))
  | [] => .ok []
  | (name, array) :: rest => do
    let a ← store (stored.get? name) array
    let plan ← planned stored rest
    return (name, a) :: plan

/-- The planned arrays of a key are stored, and the attrs that were staged with it. -/
def commit (m : MemorySink Q K A V) (key : Q) (plan : List (String × A)) : MemorySink Q K A V :=
  { m with
    committed := upsert N m.committed key fun stored => stored.update plan
    committedAttrs := upsert N m.committedAttrs key fun attrs =>
      (attrs.update (lookup N m.buffer.pendingAttrs key).entries).update spec.provenance.pointer }

/-- The loop of `drain` over the buffered keys. -/
def drainLoop : List (K × Q × Dict String A) → MemorySink Q K A V →
    MemorySink Q K A V × Option (Failure Q R)
  | [], m => ({ m with buffer := .new }, none)
  | (_, key, arrays) :: rest, m =>
    match planned store (lookup N m.committed key) arrays.entries with
    -- the key was entered before its arrays were planned
    | .error e =>
      ({ m with committed := upsert N m.committed key id }, some (.raised key e))
    | .ok plan => drainLoop rest (m.commit N spec key plan)

def drain (m : MemorySink Q K A V) : MemorySink Q K A V × Option (Failure Q R) :=
  if m.isFinalized then (m, some .finalized)
  else
    match m.buffer.validateRequired N spec (lookup N m.committedAttrs) with
    | .error e => (m, some e)
    | .ok () => m.drainLoop N spec store m.buffer.pending.entries

def stage (m : MemorySink Q K A V) (key : Q) (attrs : Dict String V) (arrays : Dict String A) :
    MemorySink Q K A V × Option (Failure Q R) :=
  if m.isFinalized then (m, some .finalized)
  else
    match m.buffer.stage N spec key attrs arrays with
    | .error e => (m, some e)
    | .ok buffer =>
      let m := { m with buffer }
      if spec.flushEvery ≤ buffer.stagedSinceDrain then m.drain N spec store else (m, none)

def take (m : MemorySink Q K A V) (key : Q) :
    MemorySink Q K A V × Except (Failure Q R) (Dict String A) :=
  let (buffer, taken) := m.buffer.take N key
  ({ m with buffer }, taken)

def call (m : MemorySink Q K A V) :
    Call Q A V → MemorySink Q K A V × Except (Failure Q R) (Returned A)
  | .stage key attrs arrays =>
    let (m, e) := m.stage N spec store key attrs arrays
    (m, e.elim (.ok .nothing) .error)
  | .take key =>
    let (m, taken) := m.take N key
    (m, taken.map .arrays)
  | .drain =>
    let (m, e) := m.drain N spec store
    (m, e.elim (.ok .nothing) .error)

/-- The sink after some calls, whether they return or raise. -/
def after (calls : List (Call Q A V)) : MemorySink Q K A V :=
  calls.foldl (fun m c => (m.call N spec store c).1) new

end Model

section Finalize

-- the normal form NFC, `array_digest` and the hexadecimal sha256
variable {Q K A V R : Type} (N : Naming Q K) (spec : Spec V) (nfc : String → String)
  (arrayDigest : A → String) (sha256 : List UInt8 → String)

/-- The committed keys with their arrays, by their rendered components.  The sort is stable. -/
def sorted (m : MemorySink Q K A V) : List (Q × Dict String A) :=
  (m.committed.entries.map (·.2)).insertionSort fun a b => N.parts a.1 ≤ N.parts b.1

/-- The digests of a key's arrays, by name. -/
def digests (arrays : Dict String A) : Json :=
  .obj ((sortByKey arrays.entries).map fun e => (e.1, .str (arrayDigest e.2)))

def payload (m : MemorySink Q K A V) : Dict String Json :=
  (∅ : Dict String Json).update ((m.sorted N).map fun e => (N.path e.1, digests arrayDigest e.2))

def canonicalDigest (payload : Dict String Json) : Option String :=
  (ZarrDigest.normalizeJsonValue nfc (.obj payload.entries)).dumps.map fun text =>
    sha256 (utf8 text)

def finalize (m : MemorySink Q K A V) : MemorySink Q K A V × Except (Failure Q R) Receipt :=
  if m.isFinalized then (m, .error .finalized)
  else if m.buffer.pending.entries ≠ [] then
    (m, .error (.undrained m.buffer.pending.entries.length))
  else
    let finalized := { m with isFinalized := true }
    match canonicalDigest nfc sha256 (m.payload N arrayDigest) with
    | none => (finalized, .error .notFinite)
    | some digest =>
      (finalized, .ok
        { path := spec.outputDir
          digest
          digestAlgoVersion := memoryDigestAlgoVersion
          runId := spec.runId
          seed := spec.seed })

end Finalize

end MemorySink

end Xtrax.StagingBuffer
