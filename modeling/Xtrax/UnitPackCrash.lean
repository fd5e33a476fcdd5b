import Xtrax.UnitPackPhases
import Xtrax.Utf8

/-! # Packing survives every stop

At every step of a call the unit is loose or packed.  The replacement of the record is
the one step from the first to the second, and a loose file is deleted only after it.
-/
namespace Xtrax.Pack

open AList List Option Interleaving

section
variable {C : Codec} (U : CommittedUnit C) {d d' : UnitDir} {pack text : Bytes}
  {members : List (String × Entry)} {path other : String} {record : UnitRecord} {pc pc' : PackPc}

/-! ## The invariant of a call -/

/-- The partial pack, or the pack, at `path` holds every member. -/
def Filled (d : UnitDir) (path : String) (record : UnitRecord) (members : List (String × Entry)) :
    Prop :=
  LooseDir U d ∧ record = U.record ∧
    ∃ pack, d.lookup path = some (.file pack) ∧ PackHolds U pack members

/-- Pack and index are in place, and `record` is to name them. -/
def Named (d : UnitDir) (record : UnitRecord) : Prop :=
  LooseDir U d ∧ ∃ pack members text, Indexed U d pack members text ∧
    record = storedRecord C U.record members (C.sha256 pack) text

/-- What holds of the directory, and of what the call has in its hands. -/
def Tracks (args : PackArgs) (d : UnitDir) : PackPc → Prop
  | .collecting record => LooseDir U d ∧ record = U.record
  | .opening record paths => LooseDir U d ∧ record = U.record ∧ paths = memberFiles U.dir
  | .packing record todo members offset =>
    LooseDir U d ∧ record = U.record ∧ members.map (·.1) ++ todo = memberFiles U.dir ∧
      ∃ pack, d.lookup partialFile = some (.file pack) ∧ offset = pack.length ∧
        Frames U pack members
  | .marking record members | .verifying record members | .moving record members =>
    Filled U d partialFile record members
  | .writingIndex record members packSha =>
    LooseDir U d ∧ record = U.record ∧ ∃ pack, d.lookup packFile = some (.file pack) ∧
      PackHolds U pack members ∧ packSha = C.sha256 pack
  | .replacingIndex record members packSha text =>
    LooseDir U d ∧ record = U.record ∧ (∃ pack, d.lookup packFile = some (.file pack) ∧
      PackHolds U pack members ∧ packSha = C.sha256 pack) ∧
      C.indexText { members := members } = some text ∧
      d.lookup (args.tmpPath packIndex) = some (.file text)
  | .writingRecord record => Named U d record
  | .replacingRecord => ∃ record text, Named U d record ∧ C.recordText record = some text ∧
      d.lookup (args.tmpPath unitRecord) = some (.file text)
  | .sweepVerifying _ record storage => ∃ pack members text, PackedDir U d pack members text ∧
      record.core = U.record.core ∧ storage = storageOf C members pack text
  | .comparing record members => record.core = U.record.core ∧
      ∃ pack text, PackedDir U d pack members text
  | .deleting record todo => record.core = U.record.core ∧
      (∃ pack members text, PackedDir U d pack members text) ∧
      ∀ path ∈ todo, isMemberName path = true
  | .unlocking (.ok record) | .finished (.ok record) =>
    Settled U d ∧ record.core = U.record.core
  | _ => Settled U d

/-- The invariant of every state. -/
structure Survives (s : State) : Prop where
  clean : Clean U s.dir
  tracks : Tracks U s.args s.dir s.pc

variable {U} {args : PackArgs}

theorem Tracks.settled {pc : PackPc} (h : Tracks U args d pc) : Settled U d := by
  cases pc with
  | collecting | opening | packing | marking | verifying | moving | writingIndex | replacingIndex
  | writingRecord => exact .inl h.1
  | replacingRecord =>
    obtain ⟨record, text, h, -⟩ := h
    exact .inl h.1
  | sweepVerifying =>
    obtain ⟨pack, members, text, h, -⟩ := h
    exact .inr ⟨pack, members, text, h⟩
  | comparing record members =>
    obtain ⟨-, pack, text, h⟩ := h
    exact .inr ⟨pack, members, text, h⟩
  | deleting => exact .inr h.2.1
  | unlocking result | finished result =>
    cases result with
    | ok record => exact h.1
    | error fault => exact h
  | _ => exact h

theorem tracks_leave_error {fault : Fault} (h : Settled U d) :
    Tracks U args d (args.leave (.error fault)) := by
  unfold PackArgs.leave
  split <;> exact h

theorem tracks_leave_ok (h : Settled U d) (hrecord : record.core = U.record.core) :
    Tracks U args d (args.leave (.ok record)) := by
  unfold PackArgs.leave
  split <;> exact ⟨h, hrecord⟩

/-! ## Steps -/

theorem replaceFile_eq_some {source target : String} (h : replaceFile d source target = some d') :
    ∃ node, d.lookup source = some node ∧ d' = (d.erase source).insert target node := by
  obtain ⟨node, hnode, rfl⟩ := map_eq_some_iff.mp h
  exact ⟨node, hnode, rfl⟩

theorem not_member_named : isMemberName unitRecord = false ∧ isMemberName packFile = false ∧
    isMemberName packIndex = false := by
  decide

theorem ne_of_member (hother : isMemberName other = false) (hpath : isMemberName path = true) :
    path ≠ other := by
  rintro rfl
  rw [hother] at hpath
  cases hpath

theorem tracks_packing {todo : List String} {offset : Nat} {frame : Bytes} {entry : Entry}
    (hclean : Clean U d) (h : Tracks U args d (.packing record (path :: todo) members offset))
    (hframe : packMember C args.level d path offset = .ok (frame, entry)) :
    Clean U (appendPartial d frame) ∧ Tracks U args (appendPartial d frame)
      (.packing record todo (members ++ [(path, entry)]) (offset + frame.length)) := by
  obtain ⟨hloose, hrecord, hnames, pack, hpart, rfl, hframes⟩ := h
  have happend : appendPartial d frame = d.insert partialFile (.file (pack ++ frame)) := by
    rw [appendPartial, hpart]
  rw [happend]
  refine ⟨hclean.insert, hloose.insert scratch_partialFile.1 scratch_partialFile.2.1, hrecord,
    by simpa using hnames, pack ++ frame, lookup_insert _, by simp, ?_⟩
  intro m hm
  rcases mem_append.mp hm with hm | hm
  · obtain ⟨data, hdata, hread, hsha⟩ := hframes m hm
    exact ⟨data, hdata, memberFromHandle_append frame hread, hsha⟩
  · obtain rfl := mem_singleton.mp hm
    obtain ⟨data, hdata, hread, hsha⟩ := memberFromHandle_packMember hframe
    refine ⟨data, ?_, hread, hsha⟩
    have hmem : path ∈ memberFiles U.dir := by
      rw [← hnames]
      exact mem_append_right _ (mem_cons_self ..)
    rw [← hdata]
    exact (hloose.loose path (mem_memberFiles.mp hmem).2).symm

theorem filled_appendPartial (frame : Bytes) (h : Filled U d partialFile record members) :
    Filled U (appendPartial d frame) partialFile record members := by
  obtain ⟨hloose, hrecord, pack, hpart, hholds⟩ := h
  have happend : appendPartial d frame = d.insert partialFile (.file (pack ++ frame)) := by
    rw [appendPartial, hpart]
  rw [happend]
  refine ⟨hloose.insert scratch_partialFile.1 scratch_partialFile.2.1, hrecord, pack ++ frame,
    lookup_insert _, hholds.names, fun m hm => ?_⟩
  obtain ⟨data, hdata, hread, hsha⟩ := hholds.frames m hm
  exact ⟨data, hdata, memberFromHandle_append frame hread, hsha⟩

theorem clean_appendPartial (frame : Bytes) (hclean : Clean U d) :
    Clean U (appendPartial d frame) := by
  unfold appendPartial
  split
  · exact hclean.insert
  · exact hclean

theorem tracks_moving (hclean : Clean U d) (h : Filled U d partialFile record members)
    (hmove : replaceFile d partialFile packFile = some d')
    (hread : readFile d partialFile = .ok pack) :
    Clean U d' ∧ Tracks U args d' (.writingIndex record members (C.sha256 pack)) := by
  obtain ⟨hloose, hrecord, pack', hpart, hholds⟩ := h
  obtain rfl : pack' = pack := by simpa [readFile, hpart] using hread
  obtain ⟨node, hnode, rfl⟩ := replaceFile_eq_some hmove
  obtain rfl : Node.file pack' = node := some.inj (hpart.symm.trans hnode)
  have herased := hloose.erase scratch_partialFile.1 scratch_partialFile.2.1
  exact ⟨hclean.erase.insert, herased.insert not_member_named.2.1 (by decide), hrecord, pack',
    lookup_insert _, hholds, rfl⟩

theorem tracks_replacingIndex {packSha : String} (hclean : Clean U d)
    (h : Tracks U args d (.replacingIndex record members packSha text))
    (hmove : replaceFile d (args.tmpPath packIndex) packIndex = some d') :
    Clean U d' ∧ Named U d' (storedRecord C record members packSha text) := by
  obtain ⟨hloose, rfl, ⟨pack, hpack, hholds, rfl⟩, hwritten, htmp⟩ := h
  obtain ⟨node, hnode, rfl⟩ := replaceFile_eq_some hmove
  obtain rfl : Node.file text = node := some.inj (htmp.symm.trans hnode)
  have hscratch : Scratch (args.tmpPath packIndex) := scratch_tmpPath args (by decide)
  have herased := hloose.erase hscratch.1 hscratch.2.1
  refine ⟨hclean.erase.insert, herased.insert not_member_named.2.2 (by decide), pack, members, text,
    ⟨hholds, ?_, lookup_insert _, hwritten⟩, rfl⟩
  rw [lookup_insert_ne (by decide), lookup_erase_ne hscratch.2.2.2.symm]
  exact hpack

/-- **Step 4**, the commit point: the record names the pack from here on. -/
theorem tracks_replacingRecord (hclean : Clean U d) (h : Tracks U args d .replacingRecord)
    (hmove : replaceFile d (args.tmpPath unitRecord) unitRecord = some d') :
    Clean U d' ∧ Settled U d' := by
  obtain ⟨record, text', ⟨hloose, pack, members, text, hindexed, rfl⟩, hwritten, htmp⟩ := h
  obtain ⟨node, hnode, rfl⟩ := replaceFile_eq_some hmove
  obtain rfl : Node.file text' = node := some.inj (htmp.symm.trans hnode)
  have hscratch : Scratch (args.tmpPath unitRecord) := scratch_tmpPath args (by decide)
  have hother : ∀ path, path ≠ unitRecord → path ≠ args.tmpPath unitRecord →
      ((d.erase (args.tmpPath unitRecord)).insert unitRecord (.file text')).lookup path =
        d.lookup path := by
    intro path hrecord htmp
    rw [lookup_insert_ne hrecord, lookup_erase_ne htmp]
  refine ⟨hclean.erase.insert, .inr ⟨pack, members, text, ⟨hindexed.holds, ?_, ?_,
    hindexed.written⟩, ?_, fun path hpath => .inl ?_⟩⟩
  · rw [hother _ (by decide) hscratch.2.2.2.symm]
    exact hindexed.packed
  · rw [hother _ (by decide) hscratch.2.2.1.symm]
    exact hindexed.indexed
  · unfold readRecord
    rw [lookup_insert]
    exact C.parseRecord_recordText _ _ hwritten
  · rw [hother _ (ne_of_member not_member_named.1 hpath) (ne_of_member hscratch.1 hpath)]
    exact hloose.loose path hpath

theorem readRecord_of_loadRecord (h : loadRecord C d = .ok record) :
    readRecord C d = some record := by
  unfold loadRecord at h
  cases hread : readRecord C d with
  | none => simp [hread] at h
  | some r => simpa [hread] using h

theorem tracks_sweepLoading {storage : Storage} (h : Settled U d)
    (hload : loadRecord C d = .ok record) (hstorage : packedStorage? (some record) = some storage) :
    ∃ pack members text, PackedDir U d pack members text ∧ record.core = U.record.core ∧
      storage = storageOf C members pack text := by
  have hread : readRecord C d = some record := readRecord_of_loadRecord hload
  rcases h with h | ⟨pack, members, text, h⟩
  · rw [← hread, h.not_packed] at hstorage
    cases hstorage
  · refine ⟨pack, members, text, h, ?_, ?_⟩
    · rw [h.record] at hread
      obtain rfl := some.inj hread
      rfl
    · rw [← hread, h.packed_storage] at hstorage
      exact (some.inj hstorage).symm

theorem tracks_sweepVerifying {verified : Bool} {members' : List (String × Entry)}
    (h : PackedDir U d pack members text)
    (hcheck : sweepCheck C d verified (storageOf C members pack text) = .ok members') :
    members' = members := by
  unfold sweepCheck at hcheck
  rw [h.verified] at hcheck
  cases verified with
  | true => simpa [bind, Except.bind, pure, Except.pure] using hcheck.symm
  | false =>
    simp only [bind, Except.bind, h.readNamed_pack, Bool.false_eq_true, if_false] at hcheck
    split at hcheck
    · cases hcheck
    · split at hcheck
      · cases hcheck
      · exact (Except.ok.inj hcheck).symm

theorem mem_of_looseCopies {todo : List String} (h : looseCopies C d members = .ok todo) :
    ∀ path ∈ todo, path ∈ members.map (·.1) := by
  induction members generalizing todo with
  | nil =>
    obtain rfl := Except.ok.inj h
    exact fun path hpath => hpath
  | cons m members ih =>
    unfold looseCopies at h
    split at h
    · cases h
    · split at h
      · exact fun path hpath => mem_cons_of_mem _ (ih h path hpath)
      · split at h
        · cases hrest : looseCopies C d members with
          | error fault => simp [hrest, Except.map] at h
          | ok rest =>
            obtain rfl := by simpa [hrest, Except.map] using h
            intro path hpath
            rcases mem_cons.mp hpath with rfl | hpath
            · exact mem_cons_self ..
            · exact mem_cons_of_mem _ (ih hrest path hpath)
        · cases h
      · cases h

theorem tracks_scratch {data : Bytes} {fault : Fault} (hclean : Clean U d) (h : Settled U d)
    (hother : Scratch other) : Clean U (d.insert other (.file data)) ∧
      Tracks U args (d.insert other (.file data)) (args.leave (.error fault)) :=
  ⟨hclean.insert, tracks_leave_error (h.insert hother)⟩

/-- **One step of a call** keeps the invariant. -/
theorem tracks_advance (hclean : Clean U d) (h : Tracks U args d pc)
    (ht : advance C args d pc = some (d', pc')) : Clean U d' ∧ Tracks U args d' pc' := by
  have hsettled := h.settled
  cases pc with
  | idle | finished | crashed => cases ht
  | locking =>
    obtain ⟨rfl, rfl⟩ := by simpa [advance] using ht
    split
    · exact ⟨hclean, hsettled⟩
    · exact ⟨hclean.insert, hsettled.insert scratch_packLock⟩
  | granting =>
    obtain ⟨rfl, rfl⟩ := by simpa [advance] using ht
    exact ⟨hclean, hsettled⟩
  | loading =>
    cases hload : loadRecord C d with
    | error fault =>
      obtain ⟨rfl, rfl⟩ := by simpa [advance, hload] using ht
      exact ⟨hclean, tracks_leave_error hsettled⟩
    | ok record =>
      cases hstorage : packedStorage? (some record) with
      | some storage =>
        obtain ⟨rfl, rfl⟩ := by simpa [advance, hload, hstorage] using ht
        exact ⟨hclean, hsettled⟩
      | none =>
        obtain ⟨rfl, rfl⟩ := by simpa [advance, hload, hstorage] using ht
        refine ⟨hclean, ?_⟩
        have hread : readRecord C d = some record := readRecord_of_loadRecord hload
        rcases hsettled with h | ⟨pack, members, text, h⟩
        · exact ⟨h, some.inj (hread.symm.trans h.record_read)⟩
        · rw [← hread, h.packed_storage] at hstorage
          cases hstorage
  | collecting record =>
    obtain ⟨hloose, rfl⟩ := h
    cases hcollect : collectLooseMembers d with
    | error fault =>
      obtain ⟨rfl, rfl⟩ := by simpa [advance, hcollect] using ht
      exact ⟨hclean, tracks_leave_error hsettled⟩
    | ok paths =>
      rw [hloose.collected hclean] at hcollect
      obtain rfl := Except.ok.inj hcollect
      by_cases hfew : (memberFiles U.dir).length < max args.minMembers 1
      · obtain ⟨rfl, rfl⟩ := by simpa only [advance, hloose.collected hclean, if_pos hfew,
          some.injEq, Prod.mk.injEq] using ht
        exact ⟨hclean, tracks_leave_ok hsettled rfl⟩
      · obtain ⟨rfl, rfl⟩ := by simpa only [advance, hloose.collected hclean, if_neg hfew,
          some.injEq, Prod.mk.injEq] using ht
        exact ⟨hclean, hloose, rfl, rfl⟩
  | opening record paths =>
    obtain ⟨hloose, rfl, rfl⟩ := h
    obtain ⟨rfl, rfl⟩ := by simpa [advance] using ht
    exact ⟨hclean.insert, hloose.insert scratch_partialFile.1 scratch_partialFile.2.1, rfl, rfl, [],
      lookup_insert _, rfl, fun m hm => by cases hm⟩
  | packing record todo members offset =>
    cases todo with
    | nil =>
      obtain ⟨hloose, rfl, hnames, pack, hpart, -, hframes⟩ := h
      obtain ⟨rfl, rfl⟩ := by simpa [advance] using ht
      exact ⟨hclean, hloose, rfl, pack, hpart, by simpa using hnames, hframes⟩
    | cons path todo =>
      cases hframe : packMember C args.level d path offset with
      | error fault =>
        obtain ⟨rfl, rfl⟩ := by simpa [advance, hframe] using ht
        exact ⟨hclean, hsettled⟩
      | ok framed =>
        obtain ⟨frame, entry⟩ := framed
        obtain ⟨rfl, rfl⟩ := by simpa [advance, hframe] using ht
        exact tracks_packing hclean h hframe
  | marking record members =>
    cases hframe : C.compress args.level (replicate 1024 0) with
    | none =>
      obtain ⟨rfl, rfl⟩ := by simpa only [advance, hframe, some.injEq, Prod.mk.injEq] using ht
      exact ⟨hclean, hsettled⟩
    | some frame =>
      obtain ⟨rfl, rfl⟩ := by simpa only [advance, hframe, some.injEq, Prod.mk.injEq] using ht
      exact ⟨clean_appendPartial frame hclean, filled_appendPartial frame h⟩
  | verifying record members =>
    cases hverify : verifyPartial C args d record members with
    | error fault =>
      obtain ⟨rfl, rfl⟩ := by simpa [advance, hverify] using ht
      exact ⟨hclean, hsettled⟩
    | ok _ =>
      obtain ⟨rfl, rfl⟩ := by simpa [advance, hverify] using ht
      exact ⟨hclean, h⟩
  | discarding fault =>
    obtain ⟨rfl, rfl⟩ := by simpa [advance] using ht
    exact ⟨hclean.erase, tracks_leave_error (hsettled.erase scratch_partialFile)⟩
  | moving record members =>
    cases hread : readFile d partialFile with
    | error fault =>
      obtain ⟨rfl, rfl⟩ := by simpa [advance, hread] using ht
      exact ⟨hclean, tracks_leave_error hsettled⟩
    | ok pack =>
      cases hmove : replaceFile d partialFile packFile with
      | none =>
        obtain ⟨rfl, rfl⟩ := by simpa [advance, hread, hmove] using ht
        exact ⟨hclean, tracks_leave_error hsettled⟩
      | some moved =>
        obtain ⟨rfl, rfl⟩ := by simpa [advance, hread, hmove] using ht
        exact tracks_moving hclean h hmove hread
  | writingIndex record members packSha =>
    obtain ⟨hloose, rfl, hpack⟩ := h
    cases htext : C.indexText { members := members } with
    | none =>
      obtain ⟨rfl, rfl⟩ := by simpa [advance, htext] using ht
      exact ⟨hclean, tracks_leave_error hsettled⟩
    | some text =>
      obtain ⟨rfl, rfl⟩ := by simpa [advance, htext] using ht
      have hscratch : Scratch (args.tmpPath packIndex) := scratch_tmpPath args (by decide)
      refine ⟨hclean.insert, hloose.insert hscratch.1 hscratch.2.1, rfl, ?_, htext, lookup_insert _⟩
      rwa [lookup_insert_ne hscratch.2.2.2.symm]
  | replacingIndex record members packSha text =>
    cases hmove : replaceFile d (args.tmpPath packIndex) packIndex with
    | none =>
      obtain ⟨rfl, rfl⟩ := by simpa [advance, hmove] using ht
      exact ⟨hclean, tracks_leave_error hsettled⟩
    | some moved =>
      obtain ⟨rfl, rfl⟩ := by simpa [advance, hmove] using ht
      exact tracks_replacingIndex hclean h hmove
  | writingRecord record =>
    obtain ⟨hloose, pack, members, text, hindexed, rfl⟩ := h
    cases htext : C.recordText (storedRecord C U.record members (C.sha256 pack) text) with
    | none =>
      obtain ⟨rfl, rfl⟩ := by simpa [advance, htext] using ht
      exact ⟨hclean, tracks_leave_error hsettled⟩
    | some rtext =>
      obtain ⟨rfl, rfl⟩ := by simpa [advance, htext] using ht
      have hscratch : Scratch (args.tmpPath unitRecord) := scratch_tmpPath args (by decide)
      refine ⟨hclean.insert, _, rtext, ⟨hloose.insert hscratch.1 hscratch.2.1, pack, members, text,
        ⟨hindexed.holds, ?_, ?_, hindexed.written⟩, rfl⟩, htext, lookup_insert _⟩
      · rw [lookup_insert_ne hscratch.2.2.2.symm]
        exact hindexed.packed
      · rw [lookup_insert_ne hscratch.2.2.1.symm]
        exact hindexed.indexed
  | replacingRecord =>
    cases hmove : replaceFile d (args.tmpPath unitRecord) unitRecord with
    | none =>
      obtain ⟨rfl, rfl⟩ := by simpa [advance, hmove] using ht
      exact ⟨hclean, tracks_leave_error hsettled⟩
    | some moved =>
      obtain ⟨rfl, rfl⟩ := by simpa [advance, hmove] using ht
      exact tracks_replacingRecord hclean h hmove
  | sweepLoading verified =>
    cases hload : loadRecord C d with
    | error fault =>
      obtain ⟨rfl, rfl⟩ := by simpa [advance, hload] using ht
      exact ⟨hclean, tracks_leave_error hsettled⟩
    | ok record =>
      cases hstorage : packedStorage? (some record) with
      | none =>
        obtain ⟨rfl, rfl⟩ := by simpa [advance, hload, hstorage] using ht
        refine ⟨hclean, tracks_leave_ok hsettled ?_⟩
        have hread : readRecord C d = some record := readRecord_of_loadRecord hload
        rcases hsettled with h | ⟨pack, members, text, h⟩
        · rw [h.record_read] at hread
          rw [some.inj hread]
        · rw [← hread, h.packed_storage] at hstorage
          cases hstorage
      | some storage =>
        obtain ⟨rfl, rfl⟩ := by simpa [advance, hload, hstorage] using ht
        exact ⟨hclean, tracks_sweepLoading hsettled hload hstorage⟩
  | sweepVerifying verified record storage =>
    obtain ⟨pack, members, text, hpacked, hrecord, rfl⟩ := h
    cases hcheck : sweepCheck C d verified (storageOf C members pack text) with
    | error fault =>
      obtain ⟨rfl, rfl⟩ := by simpa [advance, hcheck] using ht
      exact ⟨hclean, tracks_leave_error hsettled⟩
    | ok members' =>
      obtain ⟨rfl, rfl⟩ := by simpa [advance, hcheck] using ht
      obtain rfl := tracks_sweepVerifying hpacked hcheck
      exact ⟨hclean, hrecord, pack, text, hpacked⟩
  | comparing record members =>
    obtain ⟨hrecord, pack, text, hpacked⟩ := h
    cases hcopies : looseCopies C d members with
    | error fault =>
      obtain ⟨rfl, rfl⟩ := by simpa [advance, hcopies] using ht
      exact ⟨hclean, tracks_leave_error hsettled⟩
    | ok todo =>
      obtain ⟨rfl, rfl⟩ := by simpa [advance, hcopies] using ht
      refine ⟨hclean, hrecord, ⟨pack, members, text, hpacked⟩, fun path hpath => ?_⟩
      have hmem := mem_of_looseCopies hcopies path hpath
      rw [hpacked.holds.names] at hmem
      exact (mem_memberFiles.mp hmem).2
  | deleting record todo =>
    obtain ⟨hrecord, ⟨pack, members, text, hpacked⟩, htodo⟩ := h
    cases todo with
    | nil =>
      obtain ⟨rfl, rfl⟩ := by simpa [advance] using ht
      exact ⟨hclean, tracks_leave_ok hsettled hrecord⟩
    | cons path todo =>
      obtain ⟨rfl, rfl⟩ := by simpa [advance] using ht
      have hpath := htodo path (mem_cons_self ..)
      have hpacked' := hpacked.erase (ne_of_member not_member_named.1 hpath)
        (ne_of_member not_member_named.2.2 hpath) (ne_of_member not_member_named.2.1 hpath)
      exact ⟨hclean.erase, hrecord, ⟨pack, members, text, hpacked'⟩,
        fun p hp => htodo p (mem_cons_of_mem _ hp)⟩
  | unlocking result =>
    obtain ⟨rfl, rfl⟩ := by simpa [advance] using ht
    refine ⟨hclean.erase, ?_⟩
    cases result with
    | ok record => exact ⟨hsettled.erase scratch_packLock, h.2⟩
    | error fault => exact hsettled.erase scratch_packLock

theorem tracks_raiseAt (hclean : Clean U d) (h : Tracks U args d pc)
    (ht : raiseAt args d pc = some (d', pc')) : Clean U d' ∧ Tracks U args d' pc' := by
  have hsettled := h.settled
  cases pc with
  | idle | finished | crashed => cases ht
  | granting =>
    obtain ⟨rfl, rfl⟩ := by simpa [raiseAt] using ht
    exact ⟨hclean.erase, hsettled.erase scratch_packLock⟩
  | locking | opening | packing | marking | verifying | unlocking =>
    obtain ⟨rfl, rfl⟩ := by simpa [raiseAt] using ht
    exact ⟨hclean, hsettled⟩
  | _ =>
    obtain ⟨rfl, rfl⟩ := by simpa [raiseAt] using ht
    exact ⟨hclean, tracks_leave_error hsettled⟩

theorem tracks_tearAt {data : Bytes} (hclean : Clean U d) (h : Tracks U args d pc)
    (ht : tearAt args d data pc = some (d', pc')) : Clean U d' ∧ Tracks U args d' pc' := by
  have hsettled := h.settled
  cases pc with
  | packing | marking =>
    obtain ⟨rfl, rfl⟩ := by simpa [tearAt] using ht
    exact ⟨hclean.insert, hsettled.insert scratch_partialFile⟩
  | writingIndex | writingRecord =>
    obtain ⟨rfl, rfl⟩ := by simpa [tearAt] using ht
    exact tracks_scratch hclean hsettled (scratch_tmpPath args (by decide))
  | _ => cases ht

theorem survives_step {s t : State} {e : Event} (h : Survives U s)
    (ht : (machine C U).step s e = some t) : Survives U t := by
  cases e with
  | pack args =>
    by_cases hrest : s.pc.resting
    · obtain rfl := by simpa [machine, packStep, hrest] using ht
      refine ⟨h.clean, ?_⟩
      have := h.tracks.settled
      dsimp only
      split <;> exact this
    · simp [machine, packStep, hrest] at ht
  | sweep =>
    by_cases hrest : s.pc.resting
    · obtain rfl := by simpa [machine, packStep, hrest] using ht
      exact ⟨h.clean, h.tracks.settled⟩
    · simp [machine, packStep, hrest] at ht
  | advance =>
    obtain ⟨⟨d, pc⟩, hstep, rfl⟩ := map_eq_some_iff.mp ht
    obtain ⟨hclean, htracks⟩ := tracks_advance h.clean h.tracks hstep
    exact ⟨hclean, htracks⟩
  | fail =>
    obtain ⟨⟨d, pc⟩, hstep, rfl⟩ := map_eq_some_iff.mp ht
    obtain ⟨hclean, htracks⟩ := tracks_raiseAt h.clean h.tracks hstep
    exact ⟨hclean, htracks⟩
  | tear data =>
    obtain ⟨⟨d, pc⟩, hstep, rfl⟩ := map_eq_some_iff.mp ht
    obtain ⟨hclean, htracks⟩ := tracks_tearAt h.clean h.tracks hstep
    exact ⟨hclean, htracks⟩
  | crash =>
    by_cases hrest : s.pc.resting
    · simp [machine, packStep, hrest] at ht
    · obtain rfl := by simpa [machine, packStep, hrest] using ht
      exact ⟨h.clean, h.tracks.settled⟩

theorem survives_initial {s : State} (h : (machine C U).init s) : Survives U s := by
  obtain ⟨hdir, hpc⟩ := h
  refine ⟨fun path node hnode => .inr (hdir ▸ hnode), ?_⟩
  rw [hpc]
  exact .inl ⟨by rw [hdir], fun path _ => by rw [hdir]⟩

/-! ## Every stop -/

variable (U)

/-- The record names no pack, and every member is in place. -/
def LooseIntact (d : UnitDir) : Prop :=
  packedStorage? (readRecord C d) = none ∧
    ∀ path data, U.Member path data → d.lookup path = some (.file data)

/-- The record names a pack and an index, the pack verifies, and every member decodes to
its bytes. -/
def PackIntact (d : UnitDir) : Prop :=
  ∃ storage packName members pack, packedStorage? (readRecord C d) = some storage ∧
    verifiedMembers C d storage = .ok (packName, members) ∧ readNamed d packName = .ok pack ∧
    verifyPackMembers C pack members = .ok () ∧
    ∀ path data, U.Member path data →
      ∃ entry, entryOf? members path = some entry ∧ memberFromHandle C pack entry = .ok data

variable {U}

theorem Settled.intact (h : Settled U d) : LooseIntact U d ∨ PackIntact U d := by
  rcases h with h | ⟨pack, members, text, h⟩
  · exact .inl ⟨h.not_packed, fun path data hmem => (h.loose path hmem.1).trans hmem.2⟩
  · refine .inr ⟨_, packFile, members, pack, h.packed_storage, h.verified, h.readNamed_pack, ?_,
      fun path data hmem => h.holds.entry hmem⟩
    refine verifyPackMembers_ok fun m hm => ?_
    obtain ⟨data, -, hdata, -⟩ := h.holds.frames m hm
    exact ⟨data, hdata⟩

end

/-! ## A unit with one member -/

namespace OneMember

def checksum (b : Bytes) : String :=
  String.ofList (Nat.toDigits 10 (b.foldl (fun h x => (h * 257 + x.toNat) % 1000003) 1))

/-! ### Its JSON

Strings have nothing to escape here. -/

def quote (s : String) : List Char := '"' :: s.toList ++ ['"']

def field (colon : String) (f : String × List Char) : List Char := quote f.1 ++ colon.toList ++ f.2

def compact (fs : List (String × List Char)) : List Char :=
  '{' :: [','].intercalate (fs.map (field ":")) ++ ['}']

def newline (level : Nat) : List Char := '\n' :: List.replicate level ' '

/-- `_pretty`, without the last newline. -/
def pretty (level : Nat) (fs : List (String × List Char)) : List Char :=
  '{' :: [','].intercalate (fs.map fun f => newline (level + 1) ++ field ": " f) ++
    newline level ++ ['}']

def string (s : Option String) : List Char := (s.map quote).getD "null".toList

def object (text : Option String) : List Char := (text.getD "null").toList

/-- The fields of a record but for its digest and what comes after it, in order. -/
def coreFields (core : RecordCore) (digest : List (String × List Char)) : List (String × List Char) :=
  [("committed_at", string core.committedAt), ("content_digest", string core.contentDigest),
    ("env", object core.env), ("input_digest", string core.inputDigest),
    ("input_payload", object core.inputPayload), ("meta", object core.metaData)] ++ digest ++
    [("run_id", string core.runId)]

def storageFields (s : Storage) : List (String × List Char) :=
  [("codec", quote s.codec), ("format", quote s.format), ("index", quote s.index),
    ("index_sha256", quote s.indexSha256), ("n_members", s.nMembers.repr.toList),
    ("pack", quote s.pack), ("pack_sha256", quote s.packSha256), ("schema", quote s.schema)]

def recordJson (r : UnitRecord) : Bytes :=
  utf8 (pretty 0 (coreFields r.core [("record_digest", string r.recordDigest)] ++
    r.storage.toList.map fun s => ("storage", pretty 1 (storageFields s))) ++ ['\n'])

def entryFields (e : Entry) : List (String × List Char) :=
  [("header_length", e.headerLength.repr.toList), ("length", e.length.repr.toList),
    ("offset", e.offset.repr.toList), ("sha256", quote e.sha256), ("size", e.size.repr.toList)]

def indexJson (i : Index) : Bytes :=
  utf8 (pretty 0 [("codec", quote i.codec), ("format", quote i.format),
    ("members", pretty 1 (i.members.map fun m => (m.1, pretty 2 (entryFields m.2)))),
    ("packer", quote i.packer), ("schema", quote i.schema)] ++ ['\n'])

def pairsText (pairs : List (String × String)) : Bytes :=
  utf8 ('[' :: [','].intercalate (pairs.map fun p => '[' :: quote p.1 ++ ',' :: quote p.2 ++ [']']) ++
    [']'])

/-! ### A unit -/

def tarHeader (path : String) (_size : Nat) : Option Bytes :=
  if path.length ≤ 100 then
    some ((path.toList.map fun c => UInt8.ofNat c.toNat) ++ List.replicate (512 - path.length) 0)
  else none

def member : Bytes := [104, 105]

def block : Bytes := ((tarHeader "a" 2).getD []) ++ member ++ List.replicate 510 0

def contentDigest : String := checksum (pairsText [("a", checksum member)])

def core : RecordCore where
  inputDigest := some "i"
  inputPayload := some "{}"
  metaData := some "{}"
  contentDigest := some contentDigest
  runId := some ""
  env := some "{}"
  committedAt := some "2026-01-01T00:00:00Z"

def record : UnitRecord where
  core := core
  recordDigest := some (checksum (utf8 (compact (coreFields core []))))

def index : Index where
  members := [("a", { offset := 0, length := 1025, size := 2, sha256 := checksum member })]

def packedRecord : UnitRecord :=
  { record with
    storage := some
      { packSha256 := checksum ((1 :: block) ++ 1 :: List.replicate 1024 0)
        indexSha256 := checksum (indexJson index)
        nMembers := 1 } }

def parseRecord (text : Bytes) : Option UnitRecord :=
  [record, packedRecord].find? (recordJson · = text)

def parseIndex (text : Bytes) : Option Index := [index].find? (indexJson · = text)

/-- A codec that stores, and reads the texts of these two records and this index. -/
def codec : Codec where
  sha256 := checksum
  compress _ data := some (1 :: data)
  decompress
    | 1 :: data => some data
    | _ => none
  tarHeader := tarHeader
  pairsText := pairsText
  recordDigest core := checksum (utf8 (compact (coreFields core [])))
  recordText r := if parseRecord (recordJson r) = some r then some (recordJson r) else none
  parseRecord := parseRecord
  indexText i := if parseIndex (indexJson i) = some i then some (indexJson i) else none
  parseIndex := parseIndex
  decompress_compress level data frame h := by
    obtain rfl := Option.some.inj h
    rfl
  parseRecord_recordText r text h := by
    split at h
    · obtain rfl := Option.some.inj h
      assumption
    · cases h
  parseIndex_indexText i text _ h := by
    split at h
    · obtain rfl := Option.some.inj h
      assumption
    · cases h

def committed : CommittedUnit codec where
  dir := ⟨[⟨"unit.json", .file (recordJson record)⟩, ⟨"a", .file member⟩],
    by simp [List.nodupKeys_cons]⟩
  record := record
  contentDigest := contentDigest
  record_read := by decide +kernel
  record_ok := by decide +kernel
  not_packed := by decide
  digest_recorded := rfl
  digest_loose := by rfl
  plain := by decide
  no_file_above := by decide

def args : PackArgs where
  tag := "host.1"
  tag_plain := by decide

def start : State := { dir := committed.dir, args := args, pc := .idle }

/-- The first call dies between the pack's rename and its index; the second one
finishes. -/
def events : List Event :=
  .pack args :: List.replicate 10 .advance ++ [.crash, .pack args] ++ List.replicate 20 .advance

def returned? : PackPc → Option UnitRecord
  | .finished (.ok record) => some record
  | _ => none

end OneMember

end Xtrax.Pack
