import Mathlib
import Xtrax.DirTree
import Xtrax.Machine

/-! # Committing and quarantining keys of a zarr store

`commit_key` renames a staged group, with a commit record among its attributes, to the key's
directory; `quarantine` renames a key's directory out of the store, after it has looked for
committed keys below it and before it checks what it has moved.

Both are split at their operations on the store.  `read_record` is three of them: the
`is_file` of `zarr.json`, the text for the node type, and `zarr.open_group`.  What a
process does to its own staged directory, or to the directory it has moved out of the
store, nobody else sees: those are single steps.
-/
namespace Xtrax.ZarrCommit

open Option DirTree Interleaving

/-! ## Groups and records -/

/-- `CommitRecord`; `body` is the JSON of the fields nothing here reads:
`input_payload`, `meta`, `run_id`, `env` and `committed_at`. -/
structure CommitRecord where
  inputDigest : String
  contentDigest : String
  body : String
  recordDigest : String
  deriving DecidableEq, Repr

/-- The value of the `xtrax.commit` attribute. -/
inductive CommitAttr
  /-- Not a mapping, or one with fields missing. -/
  | malformed
  | record (r : CommitRecord)
  deriving DecidableEq, Repr

inductive NodeType
  | group | array
  deriving DecidableEq, Repr

/-- The contents of a `zarr.json`. -/
structure ZarrJson where
  nodeType : NodeType
  commit : Option CommitAttr := none
  /-- The other attributes and the array metadata. -/
  attributes : String := ""
  deriving DecidableEq, Repr

/-- A directory of a store: its `zarr.json`, and its other files. -/
structure Node where
  zarrJson : Option ZarrJson
  files : List (String × String) := []
  deriving DecidableEq, Repr

abbrev Store := DirTree.Tree Node

/-- The two digests: `_compute_record_digest` of a record's other fields, `none` when it raises (a
NaN or an infinity in `input_payload`, `meta` or `env`), and `zarr_content_digest` of a group,
`none` when it raises something that `_group_is_valid` reads as damage. -/
structure Digests where
  record : (inputDigest contentDigest body : String) → Option String
  content : Store → Option String

/-- `_has_commit_attr`: valid or tampered. -/
def Node.hasCommitAttr (node : Node) : Bool := (node.zarrJson.bind ZarrJson.commit).isSome

variable (D : Digests)

/-- The record of a commit attribute whose record digest verifies. -/
def verified : Option CommitAttr → Option CommitRecord
  | some (.record r) =>
    if D.record r.inputDigest r.contentDigest r.body = some r.recordDigest then some r else none
  | _ => none

/-- The record digest of a stored record raises: `read_record` does not catch that. -/
def recordRaises : Option CommitAttr → Bool
  | some (.record r) => (D.record r.inputDigest r.contentDigest r.body).isNone
  | _ => false

theorem recordRaises_of_verified {attr : Option CommitAttr} {r : CommitRecord}
    (h : verified D attr = some r) : recordRaises D attr = false := by
  unfold verified at h
  split at h
  · obtain ⟨hdigest, -⟩ := Option.ite_none_right_eq_some.mp h
    simp [recordRaises, hdigest]
  · cases h

/-- `read_record` of a directory nobody changes meanwhile, `none` also where it raises. -/
def readRecord (node : Option Node) : Option CommitRecord :=
  match node.bind Node.zarrJson with
  | some json => if json.nodeType = .group then verified D json.commit else none
  | none => none

/-- `read_record` of a directory nobody changes meanwhile raises. -/
def readRaises (node : Option Node) : Bool :=
  match node.bind Node.zarrJson with
  | some json => json.nodeType = .group && recordRaises D json.commit
  | none => false

theorem readRaises_of_readRecord {node : Option Node} {r : CommitRecord}
    (h : readRecord D node = some r) : readRaises D node = false := by
  unfold readRecord at h
  unfold readRaises
  cases hj : node.bind Node.zarrJson with
  | none => rfl
  | some json =>
    simp only [hj] at h ⊢
    have hverified : verified D json.commit = some r := (Option.ite_none_right_eq_some.mp h).2
    rw [recordRaises_of_verified D hverified, Bool.and_false]

/-- Where a process is in `read_record`. -/
inductive ReadPc
  /-- About to test that `zarr.json` is a file. -/
  | isFile
  | nodeType
  /-- About to open the group and read its attributes. -/
  | attrs
  deriving DecidableEq, Repr

inductive ReadOutcome
  | more (pc : ReadPc)
  | done (record : Option CommitRecord)
  /-- `read_text` of a file that is gone, or the record digest: neither is caught. -/
  | raised

/-- One operation of `read_record`, on what the directory holds at that moment. -/
def recordStep (node : Option Node) : ReadPc → ReadOutcome
  | .isFile =>
    match node.bind Node.zarrJson with
    | none => .done none
    | some _ => .more .nodeType
  | .nodeType =>
    match node.bind Node.zarrJson with
    | none => .raised
    | some json => if json.nodeType = .group then .more .attrs else .done none
  | .attrs =>
    match node.bind Node.zarrJson with
    | none => .done none
    | some json =>
      if json.nodeType = .group && recordRaises D json.commit then .raised
      else .done (if json.nodeType = .group then verified D json.commit else none)

theorem readRecord_of_done {node : Option Node} {pc : ReadPc} {record : Option CommitRecord}
    (h : recordStep D node pc = .done record) : readRecord D node = record := by
  unfold readRecord
  cases pc <;> unfold recordStep at h <;> cases hj : node.bind Node.zarrJson with
  | none => simp_all
  | some json =>
    by_cases hg : json.nodeType = .group <;> cases hraises : recordRaises D json.commit <;>
      simp_all

/-- `_group_is_valid`, of a group nobody changes meanwhile. -/
def groupIsValid (t : Store) : Bool :=
  match readRecord D (t.get? []) with
  | none => false
  | some r => D.content t = some r.contentDigest

/-- Nothing, or a directory without entries, is at the path. -/
def Vacant (store : Store) (k : Path) : Prop :=
  ∀ e ∈ store.sub k, e.1 = [] ∧ e.2.zarrJson = none ∧ e.2.files = []

instance (store : Store) (k : Path) : Decidable (Vacant store k) :=
  inferInstanceAs (Decidable (∀ e ∈ store.sub k, _))

/-- `os.rename` of a directory to `k` succeeds. -/
def CanLand (store : Store) (k : Path) : Prop := store.IsDir k.dropLast ∧ Vacant store k

instance (store : Store) (k : Path) : Decidable (CanLand store k) :=
  inferInstanceAs (Decidable (_ ∧ _))

/-! ## `commit_key` -/

/-- A staged directory, as `write_staged_group` makes it: no commit record in it. -/
structure Staged where
  tree : Store
  plain : ∀ e ∈ tree, e.2.hasCommitAttr = false

/-- The staged directory with the record among the attributes of its root group. -/
def Staged.recorded (staged : Staged) (r : CommitRecord) : Store :=
  staged.tree.map fun e =>
    if e.1 = [] then
      (e.1, { e.2 with zarrJson := e.2.zarrJson.map fun j => { j with commit := some (.record r) } })
    else e

/-- The arguments of `commit_key`, and `body` of the record it makes of them. -/
structure CommitArgs where
  key : Path
  key_ne_nil : key ≠ []
  staged : Staged
  inputDigest : String
  body : String
  verifyDuplicate : Bool := false

inductive CommitOutcome
  | committed (record : CommitRecord)
  | duplicate (record : CommitRecord)
  | unknownPrefix (pre : Path) (reason : String)
  | conflict (stored : Option CommitRecord) (reason : String)
  | raised
  deriving DecidableEq, Repr

/-- Where a process is in `commit_key`. -/
inductive CommitPc
  /-- About to test that the parent has a `zarr.json`. -/
  | checkingParent
  /-- About to read the metadata of the ancestor at this depth. -/
  | checkingAncestor (depth : Nat)
  /-- About to digest the staged directory and write the record into it. -/
  | digesting
  /-- About to rename the staged directory to the key. -/
  | landing (record : CommitRecord)
  | syncing (record : CommitRecord)
  /-- The target is not empty: in `read_record(target)`. -/
  | reading (record : CommitRecord) (pc : ReadPc)
  /-- In `_group_is_valid(target)`. -/
  | verifying (existing : CommitRecord)
  | finished (outcome : CommitOutcome)
  | crashed

def CommitArgs.parent (args : CommitArgs) : Path := args.key.dropLast

/-- The record `commit_key` writes, `none` when its digest raises. -/
def CommitArgs.record (args : CommitArgs) (contentDigest : String) : Option CommitRecord :=
  (D.record args.inputDigest contentDigest args.body).map fun recordDigest =>
    { inputDigest := args.inputDigest
      contentDigest := contentDigest
      body := args.body
      recordDigest := recordDigest }

/-- The record of the staged directory, `none` when one of the two digests raises. -/
def CommitArgs.stagedRecord (args : CommitArgs) : Option CommitRecord :=
  (D.content args.staged.tree).bind (args.record D)

/-- What `commit_key` does once it has read the record at a target that is not empty.  The record
digest is compared again there, over `existing.to_dict()`, which is what `read_record` has
digested, so that cannot fail for a record as `commit_key` writes it.  `ZarrRecord` has the
others. -/
def CommitArgs.resolve (args : CommitArgs) (record : CommitRecord) :
    Option CommitRecord → CommitPc
  | none => .finished (.conflict none "uncommitted or tampered group already at target")
  | some existing =>
    if existing.inputDigest = args.inputDigest then
      if args.verifyDuplicate then
        if existing.contentDigest ≠ record.contentDigest then
          .finished (.conflict (some existing)
            ("same input_digest, different content (committed " ++
              String.ofList (existing.contentDigest.toList.take 12) ++ ", staged " ++
              String.ofList (record.contentDigest.toList.take 12) ++
              "): a nondeterministic producer, tampering, or a damaged committed key"))
        else .verifying existing
      else .finished (.duplicate existing)
    else .finished (.conflict (some existing) "different input_digest already committed")

/-- One step of `commit_key`: the store after it, and where the process goes on. -/
def commitStep (args : CommitArgs) (store : Store) : CommitPc → Option (Store × CommitPc)
  | .checkingParent =>
    if ((store.get? args.parent).bind Node.zarrJson).isSome then
      some (store, .checkingAncestor 1)
    else some (store, .finished (.unknownPrefix args.parent "does not exist"))
  | .checkingAncestor depth =>
    if depth ≤ args.parent.length then
      if ((store.get? (args.parent.take depth)).map Node.hasCommitAttr).getD false then
        some (store, .finished (.unknownPrefix (args.parent.take depth)
          "is a committed key; keys cannot be nested inside committed keys"))
      else some (store, .checkingAncestor (depth + 1))
    else some (store, .digesting)
  | .digesting =>
    match args.stagedRecord D with
    | none => some (store, .finished .raised)
    | some record => some (store, .landing record)
  | .landing record =>
    if store.IsDir args.parent then
      if Vacant store args.key then
        some (store.graft args.key (args.staged.recorded record), .syncing record)
      else some (store, .reading record .isFile)
    else some (store, .finished .raised)
  | .syncing record =>
    if store.IsDir args.parent then some (store, .finished (.committed record))
    else some (store, .finished .raised)
  | .reading record pc =>
    match recordStep D (store.get? args.key) pc with
    | .more pc' => some (store, .reading record pc')
    | .done existing => some (store, args.resolve record existing)
    | .raised => some (store, .finished .raised)
  | .verifying existing =>
    if readRaises D (store.get? args.key) then some (store, .finished .raised)
    else if groupIsValid D (store.sub args.key) then some (store, .finished (.duplicate existing))
    else some (store, .finished (.conflict (some existing)
      ("same input_digest and content as the staged group, but the committed key on disk " ++
        "no longer matches its own record: a damaged committed key")))
  | .finished _ | .crashed => none

/-- Every way a `commit_key` goes on from where it is. -/
inductive CommitMove (args : CommitArgs) (store : Store) : CommitPc → Store → CommitPc → Prop
  | parent (h : ((store.get? args.parent).bind Node.zarrJson).isSome = true) :
      CommitMove args store .checkingParent store (.checkingAncestor 1)
  | noParent (h : ¬ ((store.get? args.parent).bind Node.zarrJson).isSome = true) :
      CommitMove args store .checkingParent store
        (.finished (.unknownPrefix args.parent "does not exist"))
  | inCommitted {depth : Nat} (hdepth : depth ≤ args.parent.length)
      (h : ((store.get? (args.parent.take depth)).map Node.hasCommitAttr).getD false = true) :
      CommitMove args store (.checkingAncestor depth) store
        (.finished (.unknownPrefix (args.parent.take depth)
          "is a committed key; keys cannot be nested inside committed keys"))
  | ancestor {depth : Nat} (hdepth : depth ≤ args.parent.length)
      (h : ¬ ((store.get? (args.parent.take depth)).map Node.hasCommitAttr).getD false = true) :
      CommitMove args store (.checkingAncestor depth) store (.checkingAncestor (depth + 1))
  | ancestorsPassed {depth : Nat} (hdepth : ¬ depth ≤ args.parent.length) :
      CommitMove args store (.checkingAncestor depth) store .digesting
  | notDigested (h : args.stagedRecord D = none) :
      CommitMove args store .digesting store (.finished .raised)
  | digested {record : CommitRecord} (h : args.stagedRecord D = some record) :
      CommitMove args store .digesting store (.landing record)
  | landed {record : CommitRecord} (hdir : store.IsDir args.parent)
      (h : Vacant store args.key) :
      CommitMove args store (.landing record)
        (store.graft args.key (args.staged.recorded record)) (.syncing record)
  | occupied {record : CommitRecord} (hdir : store.IsDir args.parent)
      (h : ¬ Vacant store args.key) :
      CommitMove args store (.landing record) store (.reading record .isFile)
  | notLanded {record : CommitRecord} (hdir : ¬ store.IsDir args.parent) :
      CommitMove args store (.landing record) store (.finished .raised)
  | synced {record : CommitRecord} (hdir : store.IsDir args.parent) :
      CommitMove args store (.syncing record) store (.finished (.committed record))
  | notSynced {record : CommitRecord} (hdir : ¬ store.IsDir args.parent) :
      CommitMove args store (.syncing record) store (.finished .raised)
  | readsOn {record : CommitRecord} {pc pc' : ReadPc}
      (h : recordStep D (store.get? args.key) pc = .more pc') :
      CommitMove args store (.reading record pc) store (.reading record pc')
  | read {record : CommitRecord} {pc : ReadPc} {existing : Option CommitRecord}
      (h : recordStep D (store.get? args.key) pc = .done existing) :
      CommitMove args store (.reading record pc) store (args.resolve record existing)
  | notRead {record : CommitRecord} {pc : ReadPc}
      (h : recordStep D (store.get? args.key) pc = .raised) :
      CommitMove args store (.reading record pc) store (.finished .raised)
  | notVerified {existing : CommitRecord} (h : readRaises D (store.get? args.key) = true) :
      CommitMove args store (.verifying existing) store (.finished .raised)
  | intact {existing : CommitRecord} (h : groupIsValid D (store.sub args.key) = true) :
      CommitMove args store (.verifying existing) store (.finished (.duplicate existing))
  | damaged {existing : CommitRecord} (h : ¬ groupIsValid D (store.sub args.key) = true) :
      CommitMove args store (.verifying existing) store (.finished (.conflict (some existing)
        ("same input_digest and content as the staged group, but the committed key on disk " ++
          "no longer matches its own record: a damaged committed key")))

theorem commitStep_move {args : CommitArgs} {store store' : Store} {pc pc' : CommitPc}
    (ht : commitStep D args store pc = some (store', pc')) :
    CommitMove D args store pc store' pc' := by
  cases pc with
  | checkingParent =>
    unfold commitStep at ht
    dsimp only at ht
    split at ht <;> cases ht
    · exact .parent ‹_›
    · exact .noParent ‹_›
  | checkingAncestor depth =>
    unfold commitStep at ht
    dsimp only at ht
    split at ht
    · next hdepth =>
      split at ht <;> cases ht
      · exact .inCommitted hdepth ‹_›
      · exact .ancestor hdepth ‹_›
    · cases ht
      exact .ancestorsPassed ‹_›
  | digesting =>
    unfold commitStep at ht
    dsimp only at ht
    split at ht <;> cases ht
    · exact .notDigested ‹_›
    · exact .digested ‹_›
  | landing record =>
    unfold commitStep at ht
    dsimp only at ht
    split at ht
    · next hdir =>
      split at ht <;> cases ht
      · exact .landed hdir ‹_›
      · exact .occupied hdir ‹_›
    · cases ht
      exact .notLanded ‹_›
  | syncing record =>
    unfold commitStep at ht
    dsimp only at ht
    split at ht <;> cases ht
    · exact .synced ‹_›
    · exact .notSynced ‹_›
  | reading record rpc =>
    unfold commitStep at ht
    dsimp only at ht
    split at ht <;> cases ht
    · exact .readsOn ‹_›
    · exact .read ‹_›
    · exact .notRead ‹_›
  | verifying existing =>
    unfold commitStep at ht
    dsimp only at ht
    split at ht
    · cases ht
      exact .notVerified ‹_›
    · split at ht <;> cases ht
      · exact .intact ‹_›
      · exact .damaged ‹_›
  | finished | crashed => exact nomatch ht

/-! ## `quarantine` -/

structure QuarantineArgs where
  key : Path
  key_ne_nil : key ≠ []
  expectedInputDigest : Option String := none

/-- A directory the walk of `committed_keys` has before it. -/
inductive Visit
  /-- A name its parent listed: about to test `child.is_dir()`. -/
  | child (dir : Path)
  /-- In `walk`: about to test `current_dir.is_dir()`. -/
  | dir (dir : Path)
  | record (dir : Path) (pc : ReadPc)
  /-- No record was found: about to list the directory. -/
  | list (dir : Path)
  deriving DecidableEq, Repr

inductive QuarantineOutcome
  | gone
  /-- The path is returned; the tree that was moved there. -/
  | moved (tree : Store)
  | notALeaf (descendants : List Path)
  /-- `QuarantineRaceError`: with the tree left in the quarantine, if it is. -/
  | race (movedTo : Option Store)
  | raised

/-- Where a process is in `quarantine`. -/
inductive QuarantinePc
  /-- About to test `target.exists()`. -/
  | testing
  | reading (pc : ReadPc)
  /-- In `committed_keys`: about to test `search_root.exists()`. -/
  | searching
  /-- In the walk of `committed_keys`. -/
  | walking (stack : List Visit) (found : List Path)
  /-- About to rename the target out of the store. -/
  | moving
  /-- The tree is moved: about to fsync the directory it was in. -/
  | syncing (tree : Store)
  /-- About to check the tree against its own record. -/
  | checking (tree : Store)
  | puttingBack (tree : Store)
  /-- It is back: about to fsync the directory. -/
  | restored
  | finished (outcome : QuarantineOutcome)
  | crashed

/-- The moved group is not the one the caller wanted in place. -/
def QuarantineArgs.staleRoot (args : QuarantineArgs) (tree : Store) : Bool :=
  match args.expectedInputDigest with
  | none => false
  | some expected => (readRecord D (tree.get? [])).map CommitRecord.inputDigest ≠ some expected

/-- One operation of the walk, on the directory it visits first. -/
def walkStep (store : Store) (found : List Path) (stack : List Visit) : Visit → QuarantinePc
  | .child dir =>
    if store.IsDir dir then .walking (.dir dir :: stack) found else .walking stack found
  | .dir dir =>
    if store.IsDir dir then .walking (.record dir .isFile :: stack) found
    else .walking stack found
  | .record dir pc =>
    match recordStep D (store.get? dir) pc with
    | .more pc' => .walking (.record dir pc' :: stack) found
    | .done (some _) => .walking stack (found ++ [dir])
    | .done none => .walking (.list dir :: stack) found
    | .raised => .finished .raised
  | .list dir =>
    .walking ((store.children dir).map (fun name => .child (dir ++ [name])) ++ stack) found

/-- One step of `quarantine`: the store after it, and where the process goes on. -/
def quarantineStep (args : QuarantineArgs) (store : Store) :
    QuarantinePc → Option (Store × QuarantinePc)
  | .testing =>
    if store.IsDir args.key then some (store, .reading .isFile) else some (store, .finished .gone)
  | .reading pc =>
    match recordStep D (store.get? args.key) pc with
    | .more pc' => some (store, .reading pc')
    | .done (some _) => some (store, .moving)
    | .done none => some (store, .searching)
    | .raised => some (store, .finished .raised)
  | .searching =>
    if store.IsDir args.key then some (store, .walking [.dir args.key] [])
    else some (store, .moving)
  | .walking [] found =>
    if found = [] then some (store, .moving)
    else some (store, .finished (.notALeaf (found.insertionSort (· ≤ ·))))
  | .walking (visit :: stack) found => some (store, walkStep D store found stack visit)
  | .moving =>
    if store.IsDir args.key then some (store.remove args.key, .syncing (store.sub args.key))
    else some (store, .finished .gone)
  | .syncing tree =>
    if store.IsDir args.key.dropLast then some (store, .checking tree)
    else some (store, .finished .raised)
  | .checking tree =>
    if readRaises D (tree.get? []) then some (store, .finished .raised)
    else if groupIsValid D tree && !args.staleRoot D tree then some (store, .puttingBack tree)
    else some (store, .finished (.moved tree))
  | .puttingBack tree =>
    if store.IsDir args.key.dropLast then
      if Vacant store args.key then some (store.graft args.key tree, .restored)
      else some (store, .finished (.race (some tree)))
    else some (store, .finished .raised)
  | .restored =>
    if store.IsDir args.key.dropLast then some (store, .finished (.race none))
    else some (store, .finished .raised)
  | .finished _ | .crashed => none

/-! ## The machine -/

structure State (P Q : Type) where
  store : Store
  commit : P → CommitPc
  quarantine : Q → QuarantinePc

inductive Event (P Q : Type)
  | commit (p : P)
  | quarantine (q : Q)
  | crashCommit (p : P)
  | crashQuarantine (q : Q)

variable {P Q : Type} [DecidableEq P] [DecidableEq Q]

/-- The store holds no committed key inside a committed key. -/
def Flat (store : Store) : Prop :=
  ∀ x y, (readRecord D (store.get? x)).isSome → (readRecord D (store.get? y)).isSome → y ≠ [] →
    y <+: x → y = x

/-- Every call is at its start, on a store of keys that are not nested. -/
structure Initial (s : State P Q) : Prop where
  flat : Flat D s.store
  commit : ∀ p, s.commit p = .checkingParent
  quarantine : ∀ q, s.quarantine q = .testing

/-- Any number of `commit_key` and `quarantine` calls on one store. -/
def machine (commits : P → CommitArgs) (quarantines : Q → QuarantineArgs) :
    Machine (State P Q) (Event P Q) where
  init := Initial D
  step
    | s, .commit p => (commitStep D (commits p) s.store (s.commit p)).map fun (store, pc) =>
        { s with store := store, commit := Function.update s.commit p pc }
    | s, .quarantine q =>
      (quarantineStep D (quarantines q) s.store (s.quarantine q)).map fun (store, pc) =>
        { s with store := store, quarantine := Function.update s.quarantine q pc }
    | s, .crashCommit p => some { s with commit := Function.update s.commit p .crashed }
    | s, .crashQuarantine q => some { s with quarantine := Function.update s.quarantine q .crashed }

end Xtrax.ZarrCommit
