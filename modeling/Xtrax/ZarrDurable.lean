import Xtrax.ZarrQuarantine

/-! # Creating a durable store, committing to it and looking keys up

`create_store` and `commit_key` stage what they write outside the store and rename it into
place; `lookup` only reads.  Any number of the three run on one store, split at their operations
on it, each of them killed at any point.

`lookup` hashes a group one directory at a time, while others may rename theirs into the
store.  The digest itself is a parameter; `Lawful` is what is used of it.
-/
namespace Xtrax.ZarrCommit
open DirTree Interleaving

/-! ## Digests -/

/-- The directory without its commit record. -/
def Node.unrecorded (node : Node) : Node :=
  { node with zarrJson := node.zarrJson.map fun j => { j with commit := none } }

/-- `zarr_content_digest` opens the root as a group, and it depends on what the directories
hold, commit records apart. -/
structure Digests.Lawful (D : Digests) : Prop where
  opens : ∀ {t : Store} {digest : String}, D.content t = some digest →
    ∃ node json, t.get? [] = some node ∧ node.zarrJson = some json ∧ json.nodeType = .group
  determined : ∀ {t u : Store},
    (∀ p, (t.get? p).map Node.unrecorded = (u.get? p).map Node.unrecorded) →
      D.content t = D.content u

variable (D : Digests)

/-! ## `create_store` -/

/-- The root group that is staged, with the store's identity among its attributes, and its
prefix groups. -/
structure CreateArgs where
  staged : Staged

/-- Where a process is in `create_store`. -/
inductive CreatePc
  | staging
  /-- About to rename it to the store. -/
  | landing
  /-- About to fsync the directory the store is in. -/
  | syncing
  | finished (created : Bool)
  | crashed
  deriving DecidableEq, Repr

/-- One step of `create_store`: the store after it, and where the process goes on. -/
def createStep (args : CreateArgs) (store : Store) : CreatePc → Option (Store × CreatePc)
  | .staging => some (store, .landing)
  | .landing =>
    if Vacant store [] then some (store.graft [] args.staged.tree, .syncing)
    else some (store, .finished false)
  | .syncing => some (store, .finished true)
  | .finished _ | .crashed => none

/-! ## `lookup` -/

structure LookupArgs where
  key : Path
  inputDigest : String
  verify : Bool := true

inductive LookupResult
  | reuse (record : CommitRecord)
  | missing
  | stale (record : CommitRecord)
  | corrupt
  | raised
  deriving DecidableEq, Repr

/-- Where a process is in `lookup`. -/
inductive LookupPc
  /-- About to test that the key exists. -/
  | testing
  /-- In `_read_record_status(target)`. -/
  | reading (pc : ReadPc)
  /-- In `zarr_content_digest(target)`: the directories below the key it has before it, and
  what it has read so far. -/
  | hashing (record : CommitRecord) (stack : List Path) (read : Store)
  | finished (result : LookupResult)
  | crashed
  deriving DecidableEq, Repr

/-- The directory at a path below the key, added to what was read. -/
def readDir (store : Store) (dir rel : Path) (read : Store) : Store :=
  match store.get? dir with
  | none => read
  | some node => read ++ [(rel, node)]

def lookupStep (args : LookupArgs) (store : Store) : LookupPc → Option LookupPc
  | .testing =>
    if store.IsDir args.key then some (.reading .isFile) else some (.finished .missing)
  | .reading pc =>
    match recordStep D (store.get? args.key) pc with
    | .more pc' => some (.reading pc')
    | .raised => some (.finished .raised)
    | .done none => some (.finished .corrupt)
    | .done (some record) =>
      if record.inputDigest ≠ args.inputDigest then some (.finished (.stale record))
      else if args.verify then some (.hashing record [[]] [])
      else some (.finished (.reuse record))
  | .hashing record (rel :: stack) read =>
    some (.hashing record
      ((store.children (args.key ++ rel)).map (fun name => rel ++ [name]) ++ stack)
      (readDir store (args.key ++ rel) rel read))
  | .hashing record [] read =>
    if D.content read = some record.contentDigest then some (.finished (.reuse record))
    else some (.finished .corrupt)
  | .finished _ | .crashed => none

/-! ## The machine -/

/-- The store, and where every process is. -/
structure StoreState (C P L : Type) where
  store : Store
  create : C → CreatePc
  commit : P → CommitPc
  lookup : L → LookupPc

inductive StoreEvent (C P L : Type)
  | create (c : C)
  | commit (p : P)
  | lookup (l : L)
  | crashCreate (c : C)
  | crashCommit (p : P)
  | crashLookup (l : L)

/-- A call that has returned cannot be killed any more. -/
def CommitPc.Running : CommitPc → Prop
  | .finished _ | .crashed => False
  | _ => True

instance (pc : CommitPc) : Decidable pc.Running := by
  unfold CommitPc.Running
  split <;> infer_instance

def CreatePc.Running : CreatePc → Prop
  | .finished _ | .crashed => False
  | _ => True

instance (pc : CreatePc) : Decidable pc.Running := by
  unfold CreatePc.Running
  split <;> infer_instance

def LookupPc.Running : LookupPc → Prop
  | .finished _ | .crashed => False
  | _ => True

instance (pc : LookupPc) : Decidable pc.Running := by
  unfold LookupPc.Running
  split <;> infer_instance

variable {C P L : Type} [DecidableEq C] [DecidableEq P] [DecidableEq L]

/-- Every call is at its start, and there is no store, or an empty directory in its place. -/
structure StoreInitial (s : StoreState C P L) : Prop where
  vacant : Vacant s.store []
  create : ∀ c, s.create c = .staging
  commit : ∀ p, s.commit p = .checkingParent
  lookup : ∀ l, s.lookup l = .testing

/-- Any number of `create_store`, `commit_key` and `lookup` calls on one store. -/
def storeMachine (creates : C → CreateArgs) (commits : P → CommitArgs)
    (lookups : L → LookupArgs) : Machine (StoreState C P L) (StoreEvent C P L) where
  init := StoreInitial
  step
    | s, .create c => (createStep (creates c) s.store (s.create c)).map fun (store, pc) =>
        { s with store := store, create := Function.update s.create c pc }
    | s, .commit p => (commitStep D (commits p) s.store (s.commit p)).map fun (store, pc) =>
        { s with store := store, commit := Function.update s.commit p pc }
    | s, .lookup l => (lookupStep D (lookups l) s.store (s.lookup l)).map fun pc =>
        { s with lookup := Function.update s.lookup l pc }
    | s, .crashCreate c =>
      if (s.create c).Running then some { s with create := Function.update s.create c .crashed }
      else none
    | s, .crashCommit p =>
      if (s.commit p).Running then some { s with commit := Function.update s.commit p .crashed }
      else none
    | s, .crashLookup l =>
      if (s.lookup l).Running then some { s with lookup := Function.update s.lookup l .crashed }
      else none

end Xtrax.ZarrCommit
