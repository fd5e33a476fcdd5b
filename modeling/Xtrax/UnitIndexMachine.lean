import Xtrax.Machine
import Xtrax.UnitIndexLines

/-! # Writers and compaction passes, step by step

An index root under any number of segment writers and `compact()` passes.  The directories
map names to inodes; what an inode holds outlives a rename, and a writer writes to the inode
it has opened.  Every step of a pass is one file-system operation, and so is every step of a
writer: an append is written piece by piece.

Clocks, the scheduler and `uuid4` answer as they like (`Answer`).  The one promise taken from
them is that of the liveness test: when it calls the writer of a segment without trailer
dead, that writer writes no more.
-/
namespace Xtrax.UnitIndex

open Option Interleaving

/-! ## The disk -/

/-- A file of `segments/` or of `sealed/`.  Names of sealed files are unique; numbers in the
order of creation stand for them. -/
inductive Path
  | segment (writerId : String)
  | sealed (name : Nat)
  deriving DecidableEq, Repr

structure Ident where
  size : Nat
  ino : Nat
  mtime : Int
  deriving DecidableEq, Repr

/-- An input that a manifest lists. -/
structure Input where
  path : Path
  ident : Ident
  deriving DecidableEq, Repr

/-- `_Manifest`: `sealed/<stem>.inputs.json`. -/
structure Manifest where
  sealed : Nat
  inputs : List Input
  deriving DecidableEq, Repr

/-- A name in `archive/`: `segment-` or `sealed-`, the file's name, and a suffix if there
was a file of that name. -/
structure Archived where
  path : Path
  suffix : Option Nat
  deriving DecidableEq, Repr

/-- A temporary file in `sealed/`, of a sealed file or of a manifest. -/
inductive Partial
  | sealed (name : Nat)
  | manifest (name : Nat)
  deriving DecidableEq, Repr

/-- A call of a `SegmentWriter` under way. -/
inductive Call
  | append (row : IndexRow)
  | close

/-- An open `SegmentWriter`. -/
structure Writer where
  id : String
  clean : Bool := true
  /-- What the call under way has still to write. -/
  todo : Bytes := []
  call : Option Call := none

structure Inode where
  data : Bytes
  mtime : Int
  /-- The writer that has the file open. -/
  writer : Option Writer := none

/-- The files under an index root. -/
structure Disk where
  inode : Nat → Inode
  next : Nat
  segments : AList fun _ : String => Nat
  sealed : AList fun _ : Nat => Nat
  rebuilt : List Bytes
  archive : AList fun _ : Archived => Nat
  manifests : AList fun _ : Nat => List Input
  /-- The temporary files in `sealed/`, with their ages. -/
  partials : AList fun _ : Partial => Int
  names : Nat

namespace Disk

def ino? (d : Disk) : Path → Option Nat
  | .segment writerId => d.segments.lookup writerId
  | .sealed name => d.sealed.lookup name

/-- `_ident(p.stat())`. -/
def stat (d : Disk) (p : Path) : Option Ident :=
  (d.ino? p).map fun i =>
    { size := (d.inode i).data.length, ino := i, mtime := (d.inode i).mtime }

def setInode (d : Disk) (i : Nat) (x : Inode) : Disk :=
  { d with inode := Function.update d.inode i x }

def setWriter (d : Disk) (i : Nat) (w : Option Writer) : Disk :=
  d.setInode i { d.inode i with writer := w }

/-- A new file's inode. -/
def alloc (d : Disk) (x : Inode) : Disk := { d.setInode d.next x with next := d.next + 1 }

/-- `os.replace` into the archive. -/
def moveAway (d : Disk) (p : Path) (i : Nat) (dest : Archived) : Disk :=
  match p with
  | .segment writerId =>
    { d with segments := d.segments.erase writerId, archive := d.archive.insert dest i }
  | .sealed name => { d with sealed := d.sealed.erase name, archive := d.archive.insert dest i }

def listSegments (d : Disk) : List String :=
  d.segments.keys.insertionSort fun a b => a ++ ".jsonl" ≤ b ++ ".jsonl"

def listSealed (d : Disk) : List Nat := d.sealed.keys.insertionSort (· ≤ ·)

/-- `_names` of the manifests. -/
def listManifests (d : Disk) : List Nat := d.manifests.keys.insertionSort (· ≤ ·)

end Disk

/-! ## A pass -/

/-- The arguments of `compact`.  Times are in nanoseconds. -/
structure CompactArgs where
  dryRun : Bool := false
  archiveAfter : Int := 180 * 1000000000

def partialMaxAge : Int := 3600 * 1000000000

/-- What a step is answered from outside. -/
structure Answer where
  time : Int := 0
  /-- Whether the writer of a segment without trailer is dead. -/
  dead : Bool := false
  uuid : Nat := 0

/-- Which call of `_manifests`. -/
inductive Stage
  | archive | pending
  deriving DecidableEq

/-- The loop of `_archive_due`. -/
structure Sweep where
  manifests : List Manifest
  stack : List Manifest
  seen : List Nat := []
  done : List Nat := []
  /-- The sealed file whose inputs are gone through. -/
  current : Nat := 0
  rest : List Input := []
  /-- The archive half runs again at the end of the pass. -/
  last : Bool

/-- What the seal half has read. -/
structure Batch where
  pending : List Path
  taken : List (Input × List IndexRow) := []
  sealedIn : List (Input × List IndexRow) := []

inductive PassPc
  | listing (stage : Stage)
  /-- About to read the first of `todo`. -/
  | loading (stage : Stage) (todo : List Nat) (found : List Manifest)
  /-- About to test that the manifest's sealed file exists. -/
  | probing (stage : Stage) (m : Manifest) (todo : List Nat) (found : List Manifest)
  | removing (name : Nat) (todo : List Nat) (found : List Manifest)
  /-- `_archive_due`: about to stat the sealed file of the first of `todo`. -/
  | ageing (now : Int) (todo due manifests : List Manifest)
  | matching (w : Sweep)
  /-- The input is the file that was read: about to look for its trailer. -/
  | trailing (w : Sweep) (inp : Input)
  /-- About to ask `still_dead`. -/
  | judging (w : Sweep) (inp : Input)
  /-- About to test whether the name in `archive/` is taken. -/
  | naming (w : Sweep) (inp : Input)
  | moving (w : Sweep) (inp : Input) (dest : Archived)
  /-- About to remove the manifests that are done. -/
  | unlinking (todo : List Nat) (last : Bool)
  /-- The seal half: about to list the segments. -/
  | listingSegments (pending : List Path)
  /-- `_decide`: about to judge the first of `todo`. -/
  | deciding (pending : List Path) (todo taken : List String)
  | reading (batch : Batch) (todo : List String)
  /-- About to stat what has been read. -/
  | identifying (batch : Batch) (writerId : String) (raw : Bytes) (todo : List String)
  | listingSealed (batch : Batch)
  | readingSealed (batch : Batch) (todo : List Nat)
  | identifyingSealed (batch : Batch) (name : Nat) (raw : Bytes) (todo : List Nat)
  /-- `_sweep_partials`: about to look at the first of `todo`. -/
  | clearing (batch : Batch) (now : Int) (todo : List Partial)
  /-- About to write the sealed file's temporary file. -/
  | writing (batch : Batch)
  | replacing (name ino : Nat) (inputs : List Input)
  /-- About to write the manifest's temporary file. -/
  | writingManifest (name : Nat) (inputs : List Input)
  | replacingManifest (name : Nat) (inputs : List Input)
  /-- `archive_after_s <= 0`: about to load the manifest. -/
  | reloading (name : Nat)
  | finished
  /-- An exception left it, or its process died. -/
  | stopped

/-- The rows of the sealed inputs, then those of the segments. -/
def Batch.rows (batch : Batch) : List IndexRow := (batch.sealedIn ++ batch.taken).flatMap (·.2)

def Batch.inputs (batch : Batch) : List Input := (batch.sealedIn ++ batch.taken).map (·.1)

/-- `list(due)`, taken from its end. -/
def Sweep.start (manifests due : List Manifest) (last : Bool) : Sweep :=
  { manifests := manifests, stack := due.reverse, last := last }

/-- `manifests.get(p)`. -/
def Sweep.inner (w : Sweep) : Path → Option Manifest
  | .segment _ => none
  | .sealed name => w.manifests.find? fun m => m.sealed = name

/-- The first step of a pass: a dry run archives nothing. -/
def PassPc.start (args : CompactArgs) : PassPc :=
  .listing (if args.dryRun then .pending else .archive)

section
variable (O : Outside)

/-- Where `_manifests` goes on with what it has found. -/
def afterManifests (args : CompactArgs) (a : Answer) (stage : Stage) (found : List Manifest) :
    PassPc :=
  match stage with
  | .pending => .listingSegments (found.flatMap fun m => m.inputs.map (·.path))
  | .archive =>
    if found = [] then .listing .pending
    else if args.archiveAfter ≤ 0 then .matching (.start found found false)
    else .ageing a.time found [] found

/-- The next input, or the next manifest of the stack. -/
def matchStep (d : Disk) (w : Sweep) : PassPc :=
  match w.rest with
  | [] =>
    match w.stack with
    | [] => .unlinking w.done w.last
    | m :: stack =>
      if m.sealed ∈ w.seen then .matching { w with stack := stack }
      else
        .matching
          { w with
            stack := stack
            seen := m.sealed :: w.seen
            done := w.done ++ [m.sealed]
            current := m.sealed
            rest := m.inputs }
  | inp :: rest =>
    if d.stat inp.path = some inp.ident then
      let w := { w with rest := rest, stack := (w.inner inp.path).toList ++ w.stack }
      match inp.path with
      | .segment _ => .trailing w inp
      | .sealed _ => .naming w inp
    else .matching { w with rest := rest }

def passStep (args : CompactArgs) (a : Answer) (d : Disk) : PassPc → Option (Disk × PassPc)
  | .listing stage => some (d, .loading stage d.listManifests [])
  | .loading stage [] found => some (d, afterManifests args a stage found)
  | .loading stage (name :: todo) found =>
    match d.manifests.lookup name with
    | none => some (d, .loading stage todo found)
    | some inputs => some (d, .probing stage { sealed := name, inputs := inputs } todo found)
  | .probing stage m todo found =>
    if m.sealed ∈ d.sealed then some (d, .loading stage todo (found ++ [m]))
    else if stage = .archive then some (d, .removing m.sealed todo found)
    else some (d, .loading stage todo found)
  | .removing name todo found =>
    some ({ d with manifests := d.manifests.erase name }, .loading .archive todo found)
  | .ageing _ [] due manifests =>
    if due = [] then some (d, .listing .pending)
    else some (d, .matching (.start manifests due false))
  | .ageing now (m :: todo) due manifests =>
    match d.stat (.sealed m.sealed) with
    | none => some (d, .ageing now todo due manifests)
    | some ident =>
      if now - ident.mtime < args.archiveAfter then some (d, .ageing now todo due manifests)
      else some (d, .ageing now todo (due ++ [m]) manifests)
  | .matching w => some (d, matchStep d w)
  | .trailing w inp =>
    match d.ino? inp.path with
    | none => some (d, .matching w)
    | some i =>
      if hasTrailer O (d.inode i).data then some (d, .naming w inp) else some (d, .judging w inp)
  | .judging w inp =>
    match d.ino? inp.path with
    | none => some (d, .matching w)
    | some i =>
      if hasTrailer O (d.inode i).data then some (d, .naming w inp)
      else if a.dead then some (d.setWriter i none, .naming w inp)
      else some (d, .matching w)
  | .naming w inp =>
    let dest : Archived := { path := inp.path, suffix := none }
    if dest ∈ d.archive then some (d, .moving w inp { dest with suffix := some a.uuid })
    else some (d, .moving w inp dest)
  | .moving w inp dest =>
    match d.ino? inp.path with
    | none => some (d, .matching w)
    | some i => some (d.moveAway inp.path i dest, .matching w)
  | .unlinking [] last => some (d, if last then .finished else .listing .pending)
  | .unlinking (name :: todo) last =>
    some ({ d with manifests := d.manifests.erase name }, .unlinking todo last)
  | .listingSegments pending =>
    some (d, .deciding pending (d.listSegments.filter fun w => .segment w ∉ pending) [])
  | .deciding pending [] taken => some (d, .reading { pending := pending } taken)
  | .deciding pending (writerId :: todo) taken =>
    match d.segments.lookup writerId with
    | none => some (d, .deciding pending todo taken)
    | some i =>
      if hasTrailer O (d.inode i).data then
        some (d, .deciding pending todo (taken ++ [writerId]))
      else if a.dead then
        some (d.setWriter i none, .deciding pending todo (taken ++ [writerId]))
      else some (d, .deciding pending todo taken)
  | .reading batch [] =>
    if batch.taken = [] then some (d, .finished) else some (d, .listingSealed batch)
  | .reading batch (writerId :: todo) =>
    match d.segments.lookup writerId with
    | none => some (d, .reading batch todo)
    | some i => some (d, .identifying batch writerId (d.inode i).data todo)
  | .identifying batch writerId raw todo =>
    match d.stat (.segment writerId) with
    | none => some (d, .reading batch todo)
    | some ident =>
      if ident.size = raw.length ∧ (parse O raw).unreadable = [] then
        let entry := ({ path := .segment writerId, ident := ident }, (parse O raw).rows)
        some (d, .reading { batch with taken := batch.taken ++ [entry] } todo)
      else some (d, .reading batch todo)
  | .listingSealed batch =>
    some (d, .readingSealed batch (d.listSealed.filter fun n => .sealed n ∉ batch.pending))
  | .readingSealed batch [] =>
    if args.dryRun then some (d, .finished)
    else some (d, .clearing batch a.time d.partials.keys)
  | .readingSealed batch (name :: todo) =>
    match d.sealed.lookup name with
    | none => some (d, .readingSealed batch todo)
    | some i => some (d, .identifyingSealed batch name (d.inode i).data todo)
  | .identifyingSealed batch name raw todo =>
    match d.stat (.sealed name) with
    | none => some (d, .readingSealed batch todo)
    | some ident =>
      if ident.size ≠ raw.length then some (d, .readingSealed batch todo)
      else if (parse O raw).unreadable = [] ∧ (parse O raw).torn = [] then
        let entry := ({ path := .sealed name, ident := ident }, (parse O raw).rows)
        some (d, .readingSealed { batch with sealedIn := batch.sealedIn ++ [entry] } todo)
      else some (d, .stopped)
  | .clearing batch _ [] => some (d, .writing batch)
  | .clearing batch now (p :: todo) =>
    match d.partials.lookup p with
    | none => some (d, .clearing batch now todo)
    | some mtime =>
      if partialMaxAge < now - mtime then
        some ({ d with partials := d.partials.erase p }, .clearing batch now todo)
      else some (d, .clearing batch now todo)
  | .writing batch =>
    match render O (collapse batch.rows).kept with
    | none => some (d, .stopped)
    | some data =>
      some
        ({ d.alloc { data := data, mtime := a.time } with
            partials := d.partials.insert (.sealed d.names) a.time
            names := d.names + 1 },
          .replacing d.names d.next batch.inputs)
  | .replacing name ino inputs =>
    if .sealed name ∈ d.partials then
      some
        ({ d with
            partials := d.partials.erase (.sealed name)
            sealed := d.sealed.insert name ino },
          .writingManifest name inputs)
    else some (d, .stopped)
  | .writingManifest name inputs =>
    some ({ d with partials := d.partials.insert (.manifest name) a.time },
      .replacingManifest name inputs)
  | .replacingManifest name inputs =>
    if .manifest name ∈ d.partials then
      some
        ({ d with
            partials := d.partials.erase (.manifest name)
            manifests := d.manifests.insert name inputs },
          if args.archiveAfter ≤ 0 then .reloading name else .finished)
    else some (d, .stopped)
  | .reloading name =>
    match d.manifests.lookup name with
    | none => some (d, .finished)
    | some inputs =>
      let m : Manifest := { sealed := name, inputs := inputs }
      some (d, .matching (.start [m] [m] true))
  | .finished | .stopped => none

theorem passStep_ended {pc : PassPc} (h : pc = .finished ∨ pc = .stopped) (args : CompactArgs)
    (a : Answer) (d : Disk) : passStep O args a d pc = none := by
  rcases h with rfl | rfl <;> rw [passStep]

end

/-! ## The machine -/

structure State (Q : Type) where
  disk : Disk
  pass : Q → PassPc
  /-- The rows whose append has returned, in the store's canonical spelling. -/
  returned : List IndexRow

inductive Event (Q : Type)
  | openSegment (writerId : String) (time : Int)
  /-- `append` is called on the writer that has inode `i` open. -/
  | append (i : Nat) (row : IndexRow)
  | close (i : Nat)
  /-- `os.write` writes this much. -/
  | write (i n : Nat) (time : Int)
  /-- The call's `fsync` returns, and with it the call. -/
  | finish (i : Nat)
  /-- The call's write or `fsync` raises. -/
  | fail (i : Nat)
  | die (i : Nat)
  | compact (q : Q) (a : Answer)
  /-- The step at hand raises, or the pass's process dies. -/
  | stop (q : Q)
  | rebuild (data : Bytes)

/-- `_write`: what a call writes. -/
def Writer.begin (w : Writer) (call : Call) (text : Bytes) : Writer :=
  { w with
    clean := false
    todo := if w.clean then text ++ [newline] else newline :: (text ++ [newline])
    call := some call }

section
variable (O : Outside) {Q : Type} [DecidableEq Q]

/-- A step of the writer that has inode `i` open, and the row it returns. -/
def writerStep (d : Disk) (w : Writer) : Event Q → Option (Disk × List IndexRow)
  | .append i row =>
    match w.call, O.canonicalStore row.store with
    | none, some store =>
      let row := { row with store := store }
      match O.rowText row with
      | some text =>
        if row.writerId = w.id then some (d.setWriter i (w.begin (.append row) text), [])
        else none
      | none => none
    | _, _ => none
  | .close i =>
    match w.call with
    | none => some (d.setWriter i (w.begin .close trailerText), [])
    | some _ => none
  | .write i n time =>
    if w.todo = [] then none
    else
      some
        (d.setInode i
          { data := (d.inode i).data ++ w.todo.take n
            mtime := time
            writer := some { w with todo := w.todo.drop n } }, [])
  | .finish i =>
    match w.call, w.todo with
    | some (.append row), [] =>
      some (d.setWriter i (some { w with clean := true, call := none }), [row])
    | some .close, [] => some (d.setWriter i none, [])
    | _, _ => none
  | .fail i =>
    match w.call with
    | some (.append _) => some (d.setWriter i (some { w with todo := [], call := none }), [])
    | some .close => some (d.setWriter i none, [])
    | none => none
  | .die i => some (d.setWriter i none, [])
  | _ => none

/-- The inode a writer's event is about. -/
def Event.ino? : Event Q → Option Nat
  | .append i _ | .close i | .write i _ _ | .finish i | .fail i | .die i => some i
  | _ => none

/-- What happens next under an index root. -/
def step (args : Q → CompactArgs) (s : State Q) (e : Event Q) : Option (State Q) :=
  match e with
  | .openSegment writerId time =>
    if writerId ∈ s.disk.segments then none
    else
      let d := s.disk.alloc { data := [], mtime := time, writer := some { id := writerId } }
      some { s with disk := { d with segments := d.segments.insert writerId s.disk.next } }
  | .compact q a =>
    (passStep O (args q) a s.disk (s.pass q)).map fun (d, pc) =>
      { s with disk := d, pass := Function.update s.pass q pc }
  | .stop q => some { s with pass := Function.update s.pass q .stopped }
  | .rebuild data => some { s with disk := { s.disk with rebuilt := data :: s.disk.rebuilt } }
  | e =>
    e.ino?.bind fun i =>
      (s.disk.inode i).writer.bind fun w =>
        (writerStep O s.disk w e).map fun (d, rows) =>
          { s with disk := d, returned := rows ++ s.returned }

/-- An index root without files. -/
structure Initial (args : Q → CompactArgs) (s : State Q) : Prop where
  segments : s.disk.segments = ∅
  sealed : s.disk.sealed = ∅
  manifests : s.disk.manifests = ∅
  partials : s.disk.partials = ∅
  writer : ∀ i, (s.disk.inode i).writer = none
  pass : ∀ q, s.pass q = .start (args q)
  returned : s.returned = []

/-- Any number of segment writers and passes, each pass with its own arguments. -/
def machine (args : Q → CompactArgs) : Machine (State Q) (Event Q) where
  init := Initial args
  step := step O args

variable {O} {args : Q → CompactArgs} {s t : State Q} {e : Event Q}

variable (O args s) in
/-- What an event can do. -/
inductive Stepped : Event Q → State Q → Prop
  | writer {e : Event Q} {i : Nat} {w : Writer} {d : Disk} {rows : List IndexRow}
    (hi : e.ino? = some i) (hw : (s.disk.inode i).writer = some w)
    (hstep : writerStep O s.disk w e = some (d, rows)) :
    Stepped e { s with disk := d, returned := rows ++ s.returned }
  | openSegment {writerId : String} (time : Int) (hnew : writerId ∉ s.disk.segments) :
    Stepped (.openSegment writerId time)
      { s with disk :=
          { s.disk.alloc { data := [], mtime := time, writer := some { id := writerId } } with
            segments := s.disk.segments.insert writerId s.disk.next } }
  | compact {q : Q} {a : Answer} {d : Disk} {pc : PassPc}
    (hstep : passStep O (args q) a s.disk (s.pass q) = some (d, pc)) :
    Stepped (.compact q a) { s with disk := d, pass := Function.update s.pass q pc }
  | stop (q : Q) : Stepped (.stop q) { s with pass := Function.update s.pass q .stopped }
  | rebuild (data : Bytes) :
    Stepped (.rebuild data) { s with disk := { s.disk with rebuilt := data :: s.disk.rebuilt } }

theorem step_cases (ht : (machine O args).step s e = some t) : Stepped O args s e t := by
  replace ht : step O args s e = some t := ht
  unfold step at ht
  split at ht
  · split at ht
    · cases ht
    · obtain rfl := some.inj ht
      exact .openSegment _ ‹_›
  · obtain ⟨⟨d, pc⟩, hstep, rfl⟩ := map_eq_some_iff.mp ht
    exact .compact hstep
  · obtain rfl := some.inj ht
    exact .stop _
  · obtain rfl := some.inj ht
    exact .rebuild _
  · obtain ⟨i, hi, ht⟩ := bind_eq_some_iff.mp ht
    obtain ⟨w, hw, ht⟩ := bind_eq_some_iff.mp ht
    obtain ⟨⟨d, rows⟩, hstep, rfl⟩ := map_eq_some_iff.mp ht
    exact .writer hi hw hstep

end

/-! ## Reopened segments -/

/-- The pass has judged or identified the segment of that name, and has not yet acted on it. -/
def PassPc.Relies (writerId : String) : PassPc → Prop
  | .trailing _ inp | .judging _ inp | .naming _ inp | .moving _ inp _ =>
    inp.path = .segment writerId
  | .deciding _ _ taken => writerId ∈ taken
  | .reading _ todo => writerId ∈ todo
  | .identifying _ w _ todo => w = writerId ∨ writerId ∈ todo
  | _ => False

instance (writerId : String) : DecidablePred (PassPc.Relies writerId) := fun pc => by
  cases pc <;> unfold PassPc.Relies <;> infer_instance

/-- No writer id is used again while a pass relies on the segment of that name. -/
def NotReopened {Q : Type} (s : State Q) : Event Q → Prop
  | .openSegment writerId _ => ∀ q, ¬ (s.pass q).Relies writerId
  | _ => True

instance {Q : Type} [Fintype Q] (s : State Q) : DecidablePred (NotReopened s) := fun e => by
  cases e <;> unfold NotReopened <;> infer_instance

end Xtrax.UnitIndex
