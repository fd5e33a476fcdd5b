import Xtrax.UnitPackCrash
import Xtrax.UnitWalk

/-! # Readers of a unit that is being packed

One call of `list_unit_members`, `read_unit_member` or `unit_content_digest` among the
steps of the packer.  Each of the three reads the record first and again when it has
found the loose files wanting, and a record that names a pack by then decides.

Two of them catch the `FileNotFoundError` of a file that is deleted between a listing
and its `lstat`; `list_unit_members` does not.  `ListingFindsFiles` is the condition that
this does not happen to it.
-/
namespace Xtrax.Pack

open Option Interleaving

/-- The call of a reader. -/
inductive ReadOp
  | list
  | member (path : String)
  | digest

inductive Answer
  | members (paths : List String)
  | bytes (data : Bytes)
  | digest (digest : String)
  deriving DecidableEq, Repr

inductive ReaderPc
  | start
  /-- In `os.walk`: about to list the first directory of `stack`. -/
  | scanning (stack : List String) (members : List String)
  /-- About to `lstat` the first of `todo`. -/
  | statting (todo stack : List String) (members : List String)
  /-- `list_unit_members`: about to read the record again. -/
  | relisting (loose : List String)
  /-- `unit_content_digest`: about to open and read the first of `todo`. -/
  | hashing (todo : List String) (shas : List (String × String))
  /-- `unit_content_digest`: about to read the record again. -/
  | redigesting (loose : Option String)
  /-- `read_unit_member`: about to test the member's parents for symlinks. -/
  | linkTesting
  /-- About to `lstat` the member. -/
  | probing
  | reading
  /-- In the handler of `FileNotFoundError`: about to read the record again. -/
  | rereading
  /-- The record names a pack: about to read its index. -/
  | indexing (storage : Storage)
  /-- About to open and read the pack. -/
  | unpacking (packName : String) (members : List (String × Entry))
  | finished (result : Except Fault Answer)

section
variable (C : Codec)

/-- Where a reader goes on with the loose files. -/
def ReadOp.loosePc : ReadOp → ReaderPc
  | .list | .digest => .scanning [""] []
  | .member _ => .linkTesting

def ReadOp.fromPack (pack : Bytes) (members : List (String × Entry)) : ReadOp → Except Fault Answer
  | .list => .ok (.members ((members.map (·.1)).insertionSort (· ≤ ·)))
  | .digest => do
    verifyPackMembers C pack members
    return .digest (digestOfIndex C members)
  | .member path =>
    match entryOf? members path with
    | none => .error (.refused .unknownMember)
    | some entry => (memberFromHandle C pack entry).map .bytes

def readerStep (op : ReadOp) (d : UnitDir) : ReaderPc → Option ReaderPc
  | .start =>
    match op with
    | .member path =>
      if !isPlainRelpath path || excludedNames.contains path then
        some (.finished (.error (.refused .unknownMember)))
      else
        match packedStorage? (readRecord C d) with
        | some storage => some (.indexing storage)
        | none => some op.loosePc
    | _ =>
      match packedStorage? (readRecord C d) with
      | some storage => some (.indexing storage)
      | none => some op.loosePc
  | .scanning [] members =>
    match op with
    | .digest => some (.hashing (members.insertionSort (· ≤ ·)) [])
    | _ => some (.relisting (members.insertionSort (· ≤ ·)))
  | .scanning (dir :: stack) members =>
    if linkAt d dir then some (.finished (.error (.refused .U3)))
    else some (.statting (filesAt d dir) (subdirs d dir ++ stack) members)
  | .statting [] stack members => some (.scanning stack members)
  | .statting (path :: todo) stack members =>
    match d.lookup path with
    | some (.file _) => some (.statting todo stack (members ++ [path]))
    | some _ => some (.finished (.error (.refused .U3)))
    | none =>
      match op with
      | .digest => some (.redigesting none)
      | _ => some (.finished (.error .notFound))
  | .relisting loose =>
    match packedStorage? (readRecord C d) with
    | some storage => some (.indexing storage)
    | none => some (.finished (.ok (.members loose)))
  | .hashing [] shas => some (.redigesting (some (digestOfMembers C shas)))
  | .hashing (path :: todo) shas =>
    match readFile d path with
    | .ok data => some (.hashing todo (shas ++ [(path, C.sha256 data)]))
    | .error .notFound => some (.redigesting none)
    | .error fault => some (.finished (.error fault))
  | .redigesting loose =>
    match packedStorage? (readRecord C d) with
    | some storage => some (.indexing storage)
    | none =>
      match loose with
      | some digest => some (.finished (.ok (.digest digest)))
      | none => some (.finished (.error .notFound))
  | .linkTesting =>
    match op with
    | .member path =>
      if isTransient (baseName path) || !noSymlinkedParent d path then some .rereading
      else some .probing
    | _ => none
  | .probing =>
    match op with
    | .member path =>
      match d.lookup path with
      | some (.file _) => some .reading
      | none => some .rereading
      | some _ => some (.finished (.error (.refused .unknownMember)))
    | _ => none
  | .reading =>
    match op with
    | .member path =>
      match readFile d path with
      | .ok data => some (.finished (.ok (.bytes data)))
      | .error .notFound => some .rereading
      | .error fault => some (.finished (.error fault))
    | _ => none
  | .rereading =>
    match packedStorage? (readRecord C d) with
    | some storage => some (.indexing storage)
    | none => some (.finished (.error (.refused .unknownMember)))
  | .indexing storage =>
    match verifiedMembers C d storage with
    | .error fault => some (.finished (.error fault))
    | .ok (packName, members) =>
      match op with
      | .list => some (.finished (op.fromPack C [] members))
      | .digest => some (.unpacking packName members)
      | .member path =>
        if (entryOf? members path).isSome then some (.unpacking packName members)
        else some (.finished (.error (.refused .unknownMember)))
  | .unpacking packName members =>
    match readNamed d packName with
    | .error fault => some (.finished (.error fault))
    | .ok pack => some (.finished (op.fromPack C pack members))
  | .finished _ => none

theorem readerStep_finished (op : ReadOp) (d : UnitDir) (result : Except Fault Answer) :
    readerStep C op d (.finished result) = none := by
  rw [readerStep]

end

structure ReadState where
  unit : State
  reader : ReaderPc

inductive ReadEvent
  /-- A step of the packer, or a stop of it. -/
  | packer (e : Event)
  | reader

/-- One reader among calls of the packer on a committed unit. -/
def readerMachine (C : Codec) (U : CommittedUnit C) (op : ReadOp) :
    Machine ReadState ReadEvent where
  init s := (machine C U).init s.unit ∧ s.reader = .start
  step
    | s, .packer e => (packStep C s.unit e).map fun unit => { s with unit := unit }
    | s, .reader => (readerStep C op s.unit.dir s.reader).map fun pc => { s with reader := pc }

/-- Every `lstat` of `list_unit_members` finds the file that was listed. -/
def ListingFindsFiles (op : ReadOp) (s : ReadState) : ReadEvent → Prop
  | .reader =>
    match op, s.reader with
    | .list, .statting (path :: _) _ _ => path ∈ s.unit.dir
    | _, _ => True
  | .packer _ => True

instance (op : ReadOp) (s : ReadState) : ∀ e, Decidable (ListingFindsFiles op s e)
  | .reader => by
    unfold ListingFindsFiles
    dsimp only
    split <;> infer_instance
  | .packer _ => .isTrue trivial

/-! ## What the packer writes is at the root -/

/-- Below the root nothing is new. -/
def NothingBelow (d d' : UnitDir) : Prop :=
  ∀ path, '/' ∈ path.toList → path ∈ d' → path ∈ d

section
variable {C : Codec} {d d' : UnitDir} {name : String} {node : Node} {args : PackArgs}

theorem NothingBelow.refl : NothingBelow d d := fun _ _ h => h

theorem NothingBelow.insert (h : NothingBelow d d') (hname : '/' ∉ name.toList) :
    NothingBelow d (d'.insert name node) := by
  intro path hslash hmem
  rcases (AList.mem_insert _).mp hmem with rfl | hmem
  · exact absurd hslash hname
  · exact h path hslash hmem

theorem NothingBelow.erase (h : NothingBelow d d') : NothingBelow d (d'.erase name) :=
  fun path hslash hmem => h path hslash (AList.mem_erase.mp hmem).2

theorem slash_not_mem_tmpPath (hname : '/' ∉ name.toList) : '/' ∉ (args.tmpPath name).toList := by
  have htag := args.tag_plain
  simp [PackArgs.tmpPath, hname, htag]

theorem slash_not_mem_named :
    '/' ∉ packFile.toList ∧ '/' ∉ packIndex.toList ∧ '/' ∉ unitRecord.toList := by
  decide

/-- What one step of the packer does to the directory: a scratch file is written or removed, a
loose member is removed, or a scratch file is moved to a name of a unit that is still loose. -/
inductive Effect (C : Codec) (args : PackArgs) (d : UnitDir) : PackPc → UnitDir → Prop
  | same {pc : PackPc} : Effect C args d pc d
  | put {pc : PackPc} {name : String} {node : Node} (hscratch : Scratch name)
    (hslash : '/' ∉ name.toList) : Effect C args d pc (d.insert name node)
  | remove {pc : PackPc} {name : String} (hscratch : Scratch name) :
    Effect C args d pc (d.erase name)
  | delete {record : UnitRecord} {name : String} {todo : List String} :
    Effect C args d (.deleting record (name :: todo)) (d.erase name)
  | replace {pc : PackPc} {source name : String} {d' : UnitDir}
    (hpc : ∀ U : CommittedUnit C, Tracks U args d pc → LooseDir U d)
    (hslash : '/' ∉ name.toList) (hmove : replaceFile d source name = some d') :
    Effect C args d pc d'

theorem Effect.appendPartial {pc : PackPc} (frame : Bytes) :
    Effect C args d pc (Pack.appendPartial d frame) := by
  unfold Pack.appendPartial
  split
  · exact .put scratch_partialFile (by decide)
  · exact .same

theorem Effect.of_same {pc pc₁ pc₂ : PackPc} (h : some (d, pc₁) = some (d', pc₂)) :
    Effect C args d pc d' := by
  obtain ⟨rfl, -⟩ := Prod.mk.inj (some.inj h)
  exact .same

theorem effect_advance {pc pc' : PackPc} (ht : advance C args d pc = some (d', pc')) :
    Effect C args d pc d' := by
  cases pc with
  | idle | finished | crashed => cases ht
  | locking =>
    obtain ⟨rfl, rfl⟩ := by simpa [advance] using ht
    split
    · exact .same
    · exact .put scratch_packLock (by decide)
  | granting =>
    obtain ⟨rfl, rfl⟩ := by simpa [advance] using ht
    exact .same
  | opening record paths =>
    obtain ⟨rfl, rfl⟩ := by simpa [advance] using ht
    exact .put scratch_partialFile (by decide)
  | discarding fault =>
    obtain ⟨rfl, rfl⟩ := by simpa [advance] using ht
    exact .remove scratch_partialFile
  | unlocking result =>
    obtain ⟨rfl, rfl⟩ := by simpa [advance] using ht
    exact .remove scratch_packLock
  | packing record todo members offset =>
    cases todo with
    | nil =>
      obtain ⟨rfl, rfl⟩ := by simpa [advance] using ht
      exact .same
    | cons path todo =>
      rw [advance] at ht
      split at ht
      · exact .of_same ht
      · obtain ⟨rfl, -⟩ := Prod.mk.inj (some.inj ht)
        exact .appendPartial _
  | marking record members =>
    rw [advance] at ht
    split at ht
    · exact .of_same ht
    · obtain ⟨rfl, -⟩ := Prod.mk.inj (some.inj ht)
      exact .appendPartial _
  | deleting record todo =>
    cases todo with
    | nil =>
      obtain ⟨rfl, rfl⟩ := by simpa [advance] using ht
      exact .same
    | cons path todo =>
      obtain ⟨rfl, rfl⟩ := by simpa [advance] using ht
      exact .delete
  | moving record members =>
    rw [advance] at ht
    split at ht
    · exact .of_same ht
    · split at ht
      · exact .of_same ht
      · obtain ⟨rfl, -⟩ := Prod.mk.inj (some.inj ht)
        exact .replace (fun _ h => h.1) slash_not_mem_named.1 ‹_›
  | writingIndex record members packSha | writingRecord record =>
    rw [advance] at ht
    split at ht
    · exact .of_same ht
    · obtain ⟨rfl, -⟩ := Prod.mk.inj (some.inj ht)
      exact .put (scratch_tmpPath args (by decide)) (slash_not_mem_tmpPath (by decide))
  | replacingIndex record members packSha text =>
    rw [advance] at ht
    split at ht
    · exact .of_same ht
    · obtain ⟨rfl, -⟩ := Prod.mk.inj (some.inj ht)
      exact .replace (fun _ h => h.1) slash_not_mem_named.2.1 ‹_›
  | replacingRecord =>
    rw [advance] at ht
    split at ht
    · exact .of_same ht
    · obtain ⟨rfl, -⟩ := Prod.mk.inj (some.inj ht)
      refine .replace (fun U h => ?_) slash_not_mem_named.2.2 ‹_›
      obtain ⟨record, text, hnamed, -⟩ := h
      exact hnamed.1
  -- the remaining steps only read
  | loading | collecting record | sweepLoading verified =>
    rw [advance] at ht
    split at ht
    · exact .of_same ht
    · split at ht
      all_goals exact .of_same ht
  | verifying record members | sweepVerifying verified record storage | comparing record members =>
    rw [advance] at ht
    split at ht
    all_goals exact .of_same ht

theorem effect_step {s t : State} {e : Event} (ht : packStep C s e = some t) :
    Effect C s.args s.dir s.pc t.dir := by
  cases e with
  | pack args | sweep =>
    by_cases hrest : s.pc.resting
    · obtain rfl := by simpa [packStep, hrest] using ht
      exact .same
    · simp [packStep, hrest] at ht
  | crash =>
    by_cases hrest : s.pc.resting
    · simp [packStep, hrest] at ht
    · obtain rfl := by simpa [packStep, hrest] using ht
      exact .same
  | advance =>
    obtain ⟨⟨d, pc⟩, hstep, rfl⟩ := map_eq_some_iff.mp ht
    exact effect_advance hstep
  | fail =>
    obtain ⟨⟨d, pc⟩, hstep, rfl⟩ := map_eq_some_iff.mp ht
    cases hpc : s.pc with
    | granting =>
      rw [hpc] at hstep
      obtain ⟨rfl, rfl⟩ := by simpa [raiseAt] using hstep
      exact .remove scratch_packLock
    | idle | finished | crashed => simp [hpc, raiseAt] at hstep
    | _ =>
      rw [hpc] at hstep
      obtain ⟨rfl, rfl⟩ := by simpa [raiseAt] using hstep
      exact .same
  | tear data =>
    obtain ⟨⟨d, pc⟩, hstep, rfl⟩ := map_eq_some_iff.mp ht
    cases hpc : s.pc with
    | packing | marking =>
      rw [hpc] at hstep
      obtain ⟨rfl, rfl⟩ := by simpa [tearAt] using hstep
      exact .put scratch_partialFile (by decide)
    | writingIndex | writingRecord =>
      rw [hpc] at hstep
      obtain ⟨rfl, rfl⟩ := by simpa [tearAt] using hstep
      exact .put (scratch_tmpPath s.args (by decide)) (slash_not_mem_tmpPath (by decide))
    | _ => simp [hpc, tearAt] at hstep

theorem Effect.nothingBelow {pc : PackPc} (h : Effect C args d pc d') : NothingBelow d d' := by
  cases h with
  | same => exact .refl
  | put _ hslash => exact NothingBelow.refl.insert hslash
  | remove | delete => exact NothingBelow.refl.erase
  | replace _ hslash hmove =>
    obtain ⟨node, -, rfl⟩ := replaceFile_eq_some hmove
    exact NothingBelow.refl.erase.insert hslash

theorem nothingBelow_step {s t : State} {e : Event} (ht : packStep C s e = some t) :
    NothingBelow s.dir t.dir := (effect_step ht).nothingBelow

end

/-! ## The packer and the two phases -/

section
variable {C : Codec} {U : CommittedUnit C} {d d' : UnitDir} {pack text : Bytes}
  {members : List (String × Entry)}

theorem Effect.packed {args : PackArgs} {pc : PackPc} (h : Effect C args d pc d')
    (htracks : Tracks U args d pc) (hp : PackedDir U d pack members text) :
    PackedDir U d' pack members text := by
  cases h with
  | same => exact hp
  | put hscratch => exact hp.insert hscratch
  | remove hscratch => exact hp.erase hscratch.2.1 hscratch.2.2.1 hscratch.2.2.2
  | @delete _ name =>
    have hname := htracks.2.2 name List.mem_cons_self
    exact hp.erase (ne_of_member not_member_named.1 hname) (ne_of_member not_member_named.2.2 hname)
      (ne_of_member not_member_named.2.1 hname)
  | replace hloose =>
    have hnone := (hloose U htracks).not_packed
    rw [hp.packed_storage] at hnone
    cases hnone

/-- **Packed for good**: once the record names a pack, it and the index stay. -/
theorem packed_step {s t : State} {e : Event} (h : Survives U s)
    (hp : PackedDir U s.dir pack members text) (ht : packStep C s e = some t) :
    PackedDir U t.dir pack members text := (effect_step ht).packed h.tracks hp

theorem loose_of_step {s t : State} {e : Event} (h : Survives U s)
    (ht : packStep C s e = some t) (hloose : LooseDir U t.dir) : LooseDir U s.dir := by
  rcases h.tracks.settled with hl | ⟨pack, members, text, hp⟩
  · exact hl
  · have hnone := hloose.not_packed
    rw [(packed_step h hp ht).packed_storage] at hnone
    cases hnone

end

end Xtrax.Pack
