import Xtrax.UnitReaders

/-! # Readers return what was committed

Whatever a reader has found is right while the unit is loose, and once the record names a
pack the reader finds it there: each clause of the reader's invariant (`Reading`) is a
statement under the condition that the unit is still loose, or one about the pack, and the
packer's steps keep both kinds.

A reader comes to its end: each of its steps leaves it less to do (`readerWork`).
-/
namespace Xtrax.Pack

open List Option Interleaving

section
variable {C : Codec} (U : CommittedUnit C)

/-- The answer is the committed one. -/
def ReadOp.Returns : ReadOp → Answer → Prop
  | .list, .members paths => paths = memberFiles U.dir
  | .member path, .bytes data => U.Member path data
  | .digest, .digest sha => sha = U.contentDigest
  | _, _ => False

/-- A walk that has found `found` and has still to look at `todo` and `stack`. -/
structure Walk (d : UnitDir) (found todo stack : List String) : Prop where
  named : ∀ path ∈ found ++ todo, isMemberName path = true
  short : ∀ dir ∈ stack, dir.toList.length ≤ pathBound U
  complete : LooseDir U d → (found ++ todo ++ stack.flatMap (under U)).Perm (memberFiles U.dir)

/-- What a reader knows. -/
def Reading (op : ReadOp) (d : UnitDir) : ReaderPc → Prop
  | .start => True
  | .scanning stack found => (op = .list ∨ op = .digest) ∧ Walk U d found [] stack
  | .statting todo stack found => (op = .list ∨ op = .digest) ∧ Walk U d found todo stack
  | .relisting loose => op = .list ∧ (LooseDir U d → loose = memberFiles U.dir)
  | .hashing todo shas => op = .digest ∧ (∀ path ∈ todo, isMemberName path = true) ∧
    (LooseDir U d → ∃ done, done ++ todo = memberFiles U.dir ∧
      hashFiles C U.dir done = .ok shas)
  | .redigesting loose => op = .digest ∧ (LooseDir U d → loose = some U.contentDigest)
  | .linkTesting | .probing | .reading => ∃ path, op = .member path
  | .rereading => ¬ LooseDir U d
  | .indexing storage => ∃ pack members text, PackedDir U d pack members text ∧
    storage = storageOf C members pack text
  | .unpacking packName members => op ≠ .list ∧ packName = packFile ∧
    ∃ pack text, PackedDir U d pack members text
  | .finished result => ∃ answer, result = .ok answer ∧ op.Returns U answer

/-- What a reader has still to do. -/
def readerWork : ReaderPc → Nat
  | .start => 7 + walkWeight U ""
  | .scanning stack found => 5 + found.length + (stack.map (walkWeight U)).sum
  | .statting todo stack found =>
    6 + found.length + 2 * todo.length + (stack.map (walkWeight U)).sum
  | .hashing todo _ => 4 + todo.length
  | .linkTesting => 6
  | .probing => 5
  | .reading => 4
  | .relisting _ | .redigesting _ | .rereading => 3
  | .indexing _ => 2
  | .unpacking _ _ => 1
  | .finished _ => 0

variable {U} {op : ReadOp} {d d' : UnitDir} {pack text : Bytes} {members : List (String × Entry)}
  {path dir : String} {found todo stack : List String}

/-! ## The walk -/

theorem Walk.start : Walk U d [] [] [""] where
  named path hpath := by cases hpath
  short dir hdir := by
    obtain rfl := mem_singleton.mp hdir
    exact Nat.zero_le _
  complete _ := by simp [under_root]

theorem Walk.scan (h : Walk U d found [] (dir :: stack)) (hroot : Rooted U d) :
    Walk U d found (filesAt d dir) (subdirs d dir ++ stack) where
  named path hpath := by
    rcases mem_append.mp hpath with hpath | hpath
    · exact h.named path (mem_append_left _ hpath)
    · exact (of_decide_eq_true (mem_filter.mp hpath).2).2
  short sub hsub := by
    rcases mem_append.mp hsub with hsub | hsub
    · exact length_subdir_le hroot hsub
    · exact h.short sub (mem_cons_of_mem _ hsub)
  complete hloose := by
    refine List.Perm.trans ?_ (h.complete hloose)
    rw [flatMap_append, flatMap_cons, append_nil, append_assoc, ← append_assoc (filesAt d dir)]
    exact ((under_perm hloose dir).append_right _).append_left _

theorem Walk.stat (h : Walk U d found (path :: todo) stack) :
    Walk U d (found ++ [path]) todo stack where
  named := by simpa using h.named
  short := h.short
  complete := by simpa using h.complete

theorem Walk.done (h : Walk U d found [] []) (hloose : LooseDir U d) :
    found.insertionSort (· ≤ ·) = memberFiles U.dir := by
  have hperm : found.Perm (memberFiles U.dir) := by simpa using h.complete hloose
  exact ((perm_insertionSort _ _).trans hperm).eq_of_pairwise'
    (pairwise_insertionSort _ _) (memberFiles_sorted.imp le_of_lt)

theorem Walk.packer (h : Walk U d found todo stack) (hloose : LooseDir U d' → LooseDir U d) :
    Walk U d' found todo stack :=
  ⟨h.named, h.short, fun hl => h.complete (hloose hl)⟩

/-- **The packer's steps** keep what a reader knows. -/
theorem Reading.packer {pc : ReaderPc} (h : Reading U op d pc)
    (hloose : LooseDir U d' → LooseDir U d)
    (hpacked : ∀ {pack members text}, PackedDir U d pack members text →
      PackedDir U d' pack members text) : Reading U op d' pc := by
  cases pc with
  | start | linkTesting | probing | reading | finished => exact h
  | scanning | statting => exact ⟨h.1, h.2.packer hloose⟩
  | relisting | redigesting => exact ⟨h.1, fun hl => h.2 (hloose hl)⟩
  | hashing => exact ⟨h.1, h.2.1, fun hl => h.2.2 (hloose hl)⟩
  | rereading => exact fun hl => h (hloose hl)
  | indexing storage =>
    obtain ⟨pack, members, text, hp, hstorage⟩ := h
    exact ⟨pack, members, text, hpacked hp, hstorage⟩
  | unpacking packName members =>
    obtain ⟨hop, hname, pack, text, hp⟩ := h
    exact ⟨hop, hname, pack, text, hpacked hp⟩

/-! ## The record, read once or again -/

theorem Settled.indexing (h : Settled U d) {storage : Storage}
    (hstorage : packedStorage? (readRecord C d) = some storage) :
    Reading U op d (.indexing storage) := by
  rcases h with h | ⟨pack, members, text, h⟩
  · rw [h.not_packed] at hstorage
    cases hstorage
  · rw [h.packed_storage] at hstorage
    exact ⟨pack, members, text, h, (some.inj hstorage).symm⟩

theorem Settled.loose (h : Settled U d) (hstorage : packedStorage? (readRecord C d) = none) :
    LooseDir U d := by
  rcases h with h | ⟨pack, members, text, h⟩
  · exact h
  · rw [h.packed_storage] at hstorage
    cases hstorage

theorem LooseDir.file (h : LooseDir U d) {data : Bytes} (hmem : U.Member path data) :
    d.lookup path = some (.file data) :=
  (h.loose path hmem.1).trans hmem.2

theorem PackedDir.file_or_none (h : PackedDir U d pack members text) {data : Bytes}
    (hmem : U.Member path data) : d.lookup path = some (.file data) ∨ d.lookup path = none := by
  rcases h.loose path hmem.1 with hsame | hnone
  · exact .inl (hsame.trans hmem.2)
  · exact .inr hnone

theorem Settled.file_or_gone (h : Settled U d) {data : Bytes} (hmem : U.Member path data) :
    d.lookup path = some (.file data) ∨ (d.lookup path = none ∧ ¬ LooseDir U d) := by
  by_cases hloose : LooseDir U d
  · exact .inl (hloose.file hmem)
  · rcases h with h | ⟨pack, members, text, h⟩
    · exact absurd h hloose
    · rcases h.file_or_none hmem with hfile | hnone
      · exact .inl hfile
      · exact .inr ⟨hnone, hloose⟩

theorem gone_of_lookup_none (hloose : LooseDir U d) (hmem : path ∈ memberFiles U.dir) :
    d.lookup path ≠ none := by
  obtain ⟨hkey, hname⟩ := mem_memberFiles.mp hmem
  obtain ⟨node, hnode⟩ := mem_keys_iff.mp hkey
  rw [hloose.loose path hname, hnode]
  exact some_ne_none node

theorem Clean.no_link (h : Clean U d) (dir : String) : linkAt d dir = false := by
  refine any_eq_false.mpr fun e he => ?_
  intro hlink
  have hnode : d.lookup e.1 = some (.symlink true) := by
    rw [← (of_decide_eq_true hlink).2]
    exact AList.mem_lookup_iff.mpr he
  cases h.representable hnode

theorem Settled.member_keys (h : Settled U d) :
    ∀ path ∈ d.keys, isMemberName path = true → path ∈ U.dir.keys := by
  intro path hkey hname
  obtain ⟨node, hnode⟩ := mem_keys_iff.mp hkey
  have hold : U.dir.lookup path = some node := by
    rcases h with h | ⟨pack, members, text, h⟩
    · rw [← h.loose path hname, hnode]
    · rcases h.loose path hname with hsame | hnone
      · rw [← hsame, hnode]
      · rw [hnone] at hnode
        cases hnode
  exact mem_keys_iff.mpr ⟨node, hold⟩

/-! ## What a reader takes from the pack -/

theorem PackHolds.listed (h : PackHolds U pack members) :
    (members.map (·.1)).insertionSort (· ≤ ·) = memberFiles U.dir := by
  rw [h.names]
  exact (memberFiles_sorted.imp le_of_lt).insertionSort_eq

theorem PackHolds.verifies (h : PackHolds U pack members) :
    verifyPackMembers C pack members = .ok () := by
  refine verifyPackMembers_ok fun m hm => ?_
  obtain ⟨data, -, hdata, -⟩ := h.frames m hm
  exact ⟨data, hdata⟩

/-- **The pack** gives each reader its answer. -/
theorem PackHolds.answer (h : PackHolds U pack members)
    (hop : ∀ path, op = .member path → ∃ data, U.Member path data) :
    ∃ answer, op.fromPack C pack members = .ok answer ∧ op.Returns U answer := by
  cases op with
  | list => exact ⟨_, rfl, h.listed⟩
  | digest =>
    refine ⟨.digest (digestOfIndex C members), ?_, h.digest⟩
    simp [ReadOp.fromPack, h.verifies, bind, Except.bind, pure, Except.pure]
  | member path =>
    obtain ⟨data, hmem⟩ := hop path rfl
    obtain ⟨entry, hentry, hread⟩ := h.entry hmem
    refine ⟨.bytes data, ?_, hmem⟩
    simp [ReadOp.fromPack, hentry, hread, Except.map]

/-! ## Steps of the reader -/

theorem readerStep_start (hop : ∀ path, op = .member path → ∃ data, U.Member path data) :
    readerStep C op d .start = match packedStorage? (readRecord C d) with
      | some storage => some (.indexing storage)
      | none => some op.loosePc := by
  cases op with
  | list | digest => rfl
  | member path =>
    obtain ⟨data, hmem⟩ := hop path rfl
    obtain ⟨hplain, hexcluded, -⟩ := hmem.plain
    have hpass : ¬ (!isPlainRelpath path || excludedNames.contains path) = true := by
      rw [hplain, hexcluded]
      decide
    exact if_neg hpass

theorem reading_start {pc' : ReaderPc} (hs : Settled U d)
    (hop : ∀ path, op = .member path → ∃ data, U.Member path data)
    (ht : readerStep C op d .start = some pc') : Reading U op d pc' := by
  rw [readerStep_start hop] at ht
  split at ht
  · rename_i storage hstorage
    obtain rfl := some.inj ht
    exact hs.indexing hstorage
  · obtain rfl := some.inj ht
    cases op with
    | list => exact ⟨.inl rfl, .start⟩
    | digest => exact ⟨.inr rfl, .start⟩
    | member path => exact ⟨path, rfl⟩

theorem reading_walked {pc' : ReaderPc} (h : Reading U op d (.scanning [] found))
    (ht : readerStep C op d (.scanning [] found) = some pc') : Reading U op d pc' := by
  obtain ⟨rfl | rfl, hwalk⟩ := h
  · obtain rfl := by simpa [readerStep] using ht
    exact ⟨rfl, hwalk.done⟩
  · obtain rfl := by simpa [readerStep] using ht
    refine ⟨rfl, fun path hpath => ?_, fun hloose => ⟨[], hwalk.done hloose, rfl⟩⟩
    exact hwalk.named path (mem_append_left _ ((mem_insertionSort _).mp hpath))

theorem reading_statting {pc' : ReaderPc} (hclean : Clean U d)
    (hfinds : op = .list → path ∈ d) (h : Reading U op d (.statting (path :: todo) stack found))
    (ht : readerStep C op d (.statting (path :: todo) stack found) = some pc') :
    Reading U op d pc' := by
  obtain ⟨hop, hwalk⟩ := h
  have hname : isMemberName path = true :=
    hwalk.named path (mem_append_right _ (mem_cons_self ..))
  cases hnode : d.lookup path with
  | some node =>
    obtain ⟨data, rfl⟩ := hclean.file_of_lookup hname hnode
    obtain rfl := by simpa [readerStep, hnode] using ht
    exact ⟨hop, hwalk.stat⟩
  | none =>
    rcases hop with rfl | rfl
    · exact absurd (AList.lookup_eq_none.mp hnode) (not_not_intro (hfinds rfl))
    · obtain rfl := by simpa [readerStep, hnode] using ht
      refine ⟨rfl, fun hloose => absurd hnode (gone_of_lookup_none hloose ?_)⟩
      refine (hwalk.complete hloose).subset ?_
      simp

theorem reading_hashing {pc' : ReaderPc} {shas : List (String × String)} (hclean : Clean U d)
    (h : Reading U op d (.hashing (path :: todo) shas))
    (ht : readerStep C op d (.hashing (path :: todo) shas) = some pc') : Reading U op d pc' := by
  obtain ⟨hop, hnamed, hdone⟩ := h
  have hname : isMemberName path = true := hnamed path (mem_cons_self ..)
  cases hnode : d.lookup path with
  | some node =>
    obtain ⟨data, rfl⟩ := hclean.file_of_lookup hname hnode
    obtain rfl := by simpa [readerStep, readFile, hnode] using ht
    refine ⟨hop, fun p hp => hnamed p (mem_cons_of_mem _ hp), fun hloose => ?_⟩
    obtain ⟨done, hmembers, hshas⟩ := hdone hloose
    refine ⟨done ++ [path], by simpa using hmembers, ?_⟩
    have hfile : U.dir.lookup path = some (.file data) := by rw [← hloose.loose path hname, hnode]
    exact hashFiles_concat hshas hfile
  | none =>
    obtain rfl := by simpa [readerStep, readFile, hnode] using ht
    refine ⟨hop, fun hloose => absurd hnode (gone_of_lookup_none hloose ?_)⟩
    obtain ⟨done, hmembers, -⟩ := hdone hloose
    rw [← hmembers]
    simp

theorem reading_hashed {pc' : ReaderPc} {shas : List (String × String)}
    (h : Reading U op d (.hashing [] shas))
    (ht : readerStep C op d (.hashing [] shas) = some pc') : Reading U op d pc' := by
  obtain ⟨hop, -, hdone⟩ := h
  obtain rfl := by simpa [readerStep] using ht
  refine ⟨hop, fun hloose => ?_⟩
  obtain ⟨done, hmembers, hshas⟩ := hdone hloose
  obtain ⟨-, shas', hshas', hdigest⟩ := U.collected
  rw [← hmembers, append_nil, hshas] at hshas'
  obtain rfl := Except.ok.inj hshas'
  exact congrArg some hdigest

theorem reading_indexing {pc' : ReaderPc} {storage : Storage}
    (hop : ∀ path, op = .member path → ∃ data, U.Member path data)
    (h : Reading U op d (.indexing storage))
    (ht : readerStep C op d (.indexing storage) = some pc') : Reading U op d pc' := by
  obtain ⟨pack, members, text, hpacked, rfl⟩ := h
  cases op with
  | list =>
    obtain rfl := by simpa [readerStep, hpacked.verified] using ht
    exact ⟨_, rfl, hpacked.holds.listed⟩
  | digest =>
    obtain rfl := by simpa [readerStep, hpacked.verified] using ht
    exact ⟨by simp, rfl, pack, text, hpacked⟩
  | member path =>
    obtain ⟨data, hmem⟩ := hop path rfl
    obtain ⟨entry, hentry, -⟩ := hpacked.holds.entry hmem
    obtain rfl := by simpa [readerStep, hpacked.verified, hentry] using ht
    exact ⟨by simp, rfl, pack, text, hpacked⟩

/-- **One step of a reader** keeps what it knows. -/
theorem reading_step {pc pc' : ReaderPc} (hs : Settled U d) (hclean : Clean U d)
    (hroot : Rooted U d) (hop : ∀ path, op = .member path → ∃ data, U.Member path data)
    (hfinds : ∀ path todo stack found, pc = .statting (path :: todo) stack found →
      op = .list → path ∈ d)
    (h : Reading U op d pc) (ht : readerStep C op d pc = some pc') : Reading U op d pc' := by
  cases pc with
  | start => exact reading_start hs hop ht
  | scanning stack found =>
    cases stack with
    | nil => exact reading_walked h ht
    | cons dir stack =>
      obtain rfl := by simpa [readerStep, hclean.no_link dir] using ht
      exact ⟨h.1, h.2.scan hroot⟩
  | statting todo stack found =>
    cases todo with
    | nil =>
      obtain rfl := by simpa [readerStep] using ht
      exact h
    | cons path todo => exact reading_statting hclean (hfinds path todo stack found rfl) h ht
  | relisting loose =>
    obtain ⟨rfl, hlisted⟩ := h
    cases hstorage : packedStorage? (readRecord C d) with
    | some storage =>
      obtain rfl := by simpa [readerStep, hstorage] using ht
      exact hs.indexing hstorage
    | none =>
      obtain rfl := by simpa [readerStep, hstorage] using ht
      exact ⟨_, rfl, hlisted (hs.loose hstorage)⟩
  | hashing todo shas =>
    cases todo with
    | nil => exact reading_hashed h ht
    | cons path todo => exact reading_hashing hclean h ht
  | redigesting loose =>
    obtain ⟨rfl, hdigest⟩ := h
    cases hstorage : packedStorage? (readRecord C d) with
    | some storage =>
      obtain rfl := by simpa [readerStep, hstorage] using ht
      exact hs.indexing hstorage
    | none =>
      obtain rfl := hdigest (hs.loose hstorage)
      obtain rfl := by simpa [readerStep, hstorage] using ht
      exact ⟨_, rfl, rfl⟩
  | linkTesting =>
    obtain ⟨path, rfl⟩ := h
    obtain ⟨data, hmem⟩ := hop path rfl
    obtain rfl := by
      simpa [readerStep, hmem.plain.2.2, noSymlinkedParent_of_clean hclean hmem] using ht
    exact ⟨path, rfl⟩
  | probing =>
    obtain ⟨path, rfl⟩ := h
    obtain ⟨data, hmem⟩ := hop path rfl
    rcases hs.file_or_gone hmem with hfile | ⟨hgone, hpacked⟩
    · obtain rfl := by simpa [readerStep, hfile] using ht
      exact ⟨path, rfl⟩
    · obtain rfl := by simpa [readerStep, hgone] using ht
      exact hpacked
  | reading =>
    obtain ⟨path, rfl⟩ := h
    obtain ⟨data, hmem⟩ := hop path rfl
    rcases hs.file_or_gone hmem with hfile | ⟨hgone, hpacked⟩
    · obtain rfl := by simpa [readerStep, readFile, hfile] using ht
      exact ⟨_, rfl, hmem⟩
    · obtain rfl := by simpa [readerStep, readFile, hgone] using ht
      exact hpacked
  | rereading =>
    cases hstorage : packedStorage? (readRecord C d) with
    | some storage =>
      obtain rfl := by simpa [readerStep, hstorage] using ht
      exact hs.indexing hstorage
    | none => exact absurd (hs.loose hstorage) h
  | indexing storage => exact reading_indexing hop h ht
  | unpacking packName members =>
    obtain ⟨-, rfl, pack, text, hpacked⟩ := h
    obtain rfl := by simpa [readerStep, hpacked.readNamed_pack] using ht
    exact hpacked.holds.answer hop
  | finished result => cases ht

theorem readerWork_loosePc (op : ReadOp) : readerWork U op.loosePc < readerWork U .start := by
  cases op with
  | list | digest =>
    simp only [readerWork, ReadOp.loosePc, map_cons, map_nil, sum_cons, sum_nil, length_nil]
    omega
  | member path =>
    simp only [readerWork, ReadOp.loosePc]
    omega

/-- **A reader comes to its end**: it has finished, or can take a step that leaves it less
to do. -/
theorem readerStep_work {pc : ReaderPc} (hs : Settled U d) (hroot : Rooted U d)
    (h : Reading U op d pc) : (∃ result, pc = .finished result) ∨
      ∃ pc', readerStep C op d pc = some pc' ∧ readerWork U pc' < readerWork U pc := by
  cases pc with
  | finished result => exact .inl ⟨result, rfl⟩
  | start =>
    right
    have hloose : readerWork U op.loosePc < readerWork U .start := readerWork_loosePc op
    cases op with
    | list | digest =>
      simp only [readerStep]
      split
      · exact ⟨_, rfl, by simp only [readerWork]; omega⟩
      · exact ⟨_, rfl, hloose⟩
    | member path =>
      simp only [readerStep]
      split
      · exact ⟨_, rfl, by simp only [readerWork]; omega⟩
      · split
        · exact ⟨_, rfl, by simp only [readerWork]; omega⟩
        · exact ⟨_, rfl, hloose⟩
  | scanning stack found =>
    right
    cases stack with
    | nil =>
      cases op <;> exact ⟨_, rfl, by simp only [readerWork, length_insertionSort]; omega⟩
    | cons dir stack =>
      simp only [readerStep]
      split
      · exact ⟨_, rfl, by simp only [readerWork]; omega⟩
      · have hscan := walkWeight_scan hroot hs.member_keys (h.2.short dir (mem_cons_self ..))
        refine ⟨_, rfl, ?_⟩
        simp only [readerWork, map_append, sum_append, map_cons, sum_cons]
        omega
  | statting todo stack found =>
    right
    cases todo with
    | nil => exact ⟨_, rfl, by simp only [readerWork]; omega⟩
    | cons path todo =>
      simp only [readerStep]
      split
      · refine ⟨_, rfl, ?_⟩
        simp only [readerWork, length_append, length_cons, length_nil]
        omega
      · exact ⟨_, rfl, by simp only [readerWork]; omega⟩
      · cases op <;> exact ⟨_, rfl, by simp only [readerWork]; omega⟩
  | relisting loose | rereading =>
    right
    simp only [readerStep]
    split <;> exact ⟨_, rfl, by simp only [readerWork]; omega⟩
  | hashing todo shas =>
    right
    cases todo with
    | nil => exact ⟨_, rfl, by simp only [readerWork]; omega⟩
    | cons path todo =>
      simp only [readerStep]
      split <;> exact ⟨_, rfl, by simp only [readerWork, length_cons]; omega⟩
  | redigesting loose =>
    right
    simp only [readerStep]
    split
    · exact ⟨_, rfl, by simp only [readerWork]; omega⟩
    · cases loose <;> exact ⟨_, rfl, by simp only [readerWork]; omega⟩
  | linkTesting =>
    obtain ⟨path, rfl⟩ := h
    right
    simp only [readerStep]
    split <;> exact ⟨_, rfl, by simp only [readerWork]; omega⟩
  | probing | reading =>
    obtain ⟨path, rfl⟩ := h
    right
    simp only [readerStep]
    split <;> exact ⟨_, rfl, by simp only [readerWork]; omega⟩
  | indexing storage =>
    right
    simp only [readerStep]
    split
    · exact ⟨_, rfl, by simp only [readerWork]; omega⟩
    · cases op with
      | list | digest => exact ⟨_, rfl, by simp only [readerWork]; omega⟩
      | member path =>
        dsimp only
        split <;> exact ⟨_, rfl, by simp only [readerWork]; omega⟩
  | unpacking packName members =>
    right
    simp only [readerStep]
    split <;> exact ⟨_, rfl, by simp only [readerWork]; omega⟩

/-! ## Among the packer's steps -/

/-- The invariant of a reader among calls of the packer. -/
structure ReadingState (U : CommittedUnit C) (op : ReadOp) (s : ReadState) : Prop where
  survives : Survives U s.unit
  rooted : Rooted U s.unit.dir
  reading : Reading U op s.unit.dir s.reader

theorem readingState_initial {s : ReadState} (h : (readerMachine C U op).init s) :
    ReadingState U op s := by
  obtain ⟨hunit, hreader⟩ := h
  refine ⟨survives_initial hunit, fun path hkey _ => ?_, ?_⟩
  · rwa [hunit.1] at hkey
  · rw [hreader]
    trivial

theorem readingState_step {s t : ReadState} {e : ReadEvent}
    (hop : ∀ path, op = .member path → ∃ data, U.Member path data)
    (h : ReadingState U op s) (hg : ListingFindsFiles op s e)
    (ht : (readerMachine C U op).step s e = some t) : ReadingState U op t := by
  cases e with
  | packer e =>
    obtain ⟨unit, hstep, rfl⟩ := map_eq_some_iff.mp ht
    refine ⟨survives_step h.survives hstep, fun path hkey hslash => ?_, ?_⟩
    · have hbefore := nothingBelow_step hstep path hslash (AList.mem_keys.mpr hkey)
      exact h.rooted path (AList.mem_keys.mp hbefore) hslash
    · exact h.reading.packer (loose_of_step h.survives hstep)
        fun hp => packed_step h.survives hp hstep
  | reader =>
    obtain ⟨pc, hstep, rfl⟩ := map_eq_some_iff.mp ht
    refine ⟨h.survives, h.rooted, ?_⟩
    refine reading_step h.survives.tracks.settled h.survives.clean h.rooted hop ?_ h.reading hstep
    rintro path todo stack found hpc rfl
    simpa [ListingFindsFiles, hpc] using hg

end

namespace OneMember

def readStart : ReadState := { unit := start, reader := .start }

/-- A whole call of `pack_unit`. -/
def packEvents : List ReadEvent := .packer (.pack args) :: List.replicate 20 (.packer .advance)

/-- `pack_unit` runs after a reader's third step. -/
def listEvents : List ReadEvent :=
  List.replicate 3 .reader ++ packEvents ++ List.replicate 4 .reader

/-- `pack_unit` runs after a reader's second step, which lists the root. -/
def overtakenEvents : List ReadEvent := List.replicate 2 .reader ++ packEvents ++ [.reader]

def ended? : ReaderPc → Option (Except Fault Answer)
  | .finished result => some result
  | _ => none

/-- The reader has raised `FileNotFoundError`. -/
def missed : ReaderPc → Bool
  | .finished (.error .notFound) => true
  | _ => false

end OneMember

end Xtrax.Pack
