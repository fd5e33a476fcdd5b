import Xtrax.UnitPackFrames

/-! # The two phases of a unit

A unit is either loose, with its record as committed and every member file in place
(`LooseDir`), or packed: its record names an index, the index the frames of a pack, and
every frame gives back a member's bytes (`PackedDir`).  In both the code's own readers
return what was committed.
-/
namespace Xtrax.Pack

open AList List

section
variable {C : Codec} (U : CommittedUnit C)

def CommittedUnit.Member (path : String) (data : Bytes) : Prop :=
  isMemberName path = true ∧ U.dir.lookup path = some (.file data)

/-- Everything in the directory is a file, or was there when the unit was committed. -/
def Clean (d : UnitDir) : Prop :=
  ∀ path node, d.lookup path = some node →
    (∃ data, node = .file data) ∨ U.dir.lookup path = some node

/-- The record is the committed one, and every member is in place. -/
structure LooseDir (d : UnitDir) : Prop where
  record : d.lookup unitRecord = U.dir.lookup unitRecord
  loose : ∀ path, isMemberName path = true → d.lookup path = U.dir.lookup path

/-- The entries of the members packed so far: their frames give back their bytes. -/
def Frames (pack : Bytes) (members : List (String × Entry)) : Prop :=
  ∀ m ∈ members, ∃ data, U.dir.lookup m.1 = some (.file data) ∧
    memberFromHandle C pack m.2 = .ok data ∧ m.2.sha256 = C.sha256 data

structure PackHolds (pack : Bytes) (members : List (String × Entry)) : Prop where
  names : members.map (·.1) = memberFiles U.dir
  frames : Frames U pack members

/-- The index is in place, and speaks of the pack in place. -/
structure Indexed (d : UnitDir) (pack : Bytes) (members : List (String × Entry)) (text : Bytes) :
    Prop where
  holds : PackHolds U pack members
  packed : d.lookup packFile = some (.file pack)
  indexed : d.lookup packIndex = some (.file text)
  written : C.indexText { members := members } = some text

/-- The record names the index and the pack; a loose member is untouched or deleted. -/
structure PackedDir (d : UnitDir) (pack : Bytes) (members : List (String × Entry))
    (text : Bytes) : Prop extends Indexed U d pack members text where
  record : readRecord C d = some (storedRecord C U.record members (C.sha256 pack) text)
  loose : ∀ path, isMemberName path = true →
    d.lookup path = U.dir.lookup path ∨ d.lookup path = none

def Settled (d : UnitDir) : Prop :=
  LooseDir U d ∨ ∃ pack members text, PackedDir U d pack members text

variable {U} {d d' : UnitDir} {pack text : Bytes} {members : List (String × Entry)}
  {path other : String} {node : Node}

/-! ### Frame conditions -/

theorem LooseDir.congr (h : LooseDir U d) (hrecord : d'.lookup unitRecord = d.lookup unitRecord)
    (hmember : ∀ path, isMemberName path = true → d'.lookup path = d.lookup path) :
    LooseDir U d' :=
  ⟨hrecord.trans h.record, fun path hpath => (hmember path hpath).trans (h.loose path hpath)⟩

theorem LooseDir.insert (h : LooseDir U d) (hother : isMemberName other = false)
    (hne : other ≠ unitRecord) : LooseDir U (d.insert other node) := by
  refine h.congr (lookup_insert_ne hne.symm) fun path hpath => lookup_insert_ne ?_
  rintro rfl
  rw [hother] at hpath
  cases hpath

theorem LooseDir.erase (h : LooseDir U d) (hother : isMemberName other = false)
    (hne : other ≠ unitRecord) : LooseDir U (d.erase other) := by
  refine h.congr (lookup_erase_ne hne.symm) fun path hpath => lookup_erase_ne ?_
  rintro rfl
  rw [hother] at hpath
  cases hpath

theorem readRecord_congr (h : d'.lookup unitRecord = d.lookup unitRecord) :
    readRecord C d' = readRecord C d := by
  unfold readRecord
  rw [h]

/-- What changes neither the named files nor brings a member back leaves a packed unit
packed. -/
theorem PackedDir.congr (h : PackedDir U d pack members text)
    (hpack : d'.lookup packFile = d.lookup packFile)
    (hindex : d'.lookup packIndex = d.lookup packIndex)
    (hrecord : d'.lookup unitRecord = d.lookup unitRecord)
    (hmember : ∀ path, isMemberName path = true →
      d'.lookup path = d.lookup path ∨ d'.lookup path = none) :
    PackedDir U d' pack members text where
  holds := h.holds
  packed := hpack.trans h.packed
  indexed := hindex.trans h.indexed
  written := h.written
  record := (readRecord_congr hrecord).trans h.record
  loose path hpath := by
    rcases hmember path hpath with hsame | hgone
    · rw [hsame]
      exact h.loose path hpath
    · exact .inr hgone

theorem PackedDir.insert (h : PackedDir U d pack members text) (hother : Scratch other) :
    PackedDir U (d.insert other node) pack members text := by
  obtain ⟨hname, hrecord, hindex, hpack⟩ := hother
  refine h.congr (lookup_insert_ne hpack.symm) (lookup_insert_ne hindex.symm)
    (lookup_insert_ne hrecord.symm) fun path hpath => .inl (lookup_insert_ne ?_)
  rintro rfl
  rw [hname] at hpath
  cases hpath

theorem PackedDir.erase (h : PackedDir U d pack members text) (hrecord : other ≠ unitRecord)
    (hindex : other ≠ packIndex) (hpack : other ≠ packFile) :
    PackedDir U (d.erase other) pack members text := by
  refine h.congr (lookup_erase_ne hpack.symm) (lookup_erase_ne hindex.symm)
    (lookup_erase_ne hrecord.symm) fun path _ => ?_
  by_cases hpath : path = other
  · subst hpath
    exact .inr (lookup_erase _ _)
  · exact .inl (lookup_erase_ne hpath)

theorem Settled.insert (h : Settled U d) (hother : Scratch other) :
    Settled U (d.insert other node) := by
  rcases h with h | ⟨pack, members, text, h⟩
  · exact .inl (h.insert hother.1 hother.2.1)
  · exact .inr ⟨pack, members, text, h.insert hother⟩

theorem Settled.erase (h : Settled U d) (hother : Scratch other) : Settled U (d.erase other) := by
  rcases h with h | ⟨pack, members, text, h⟩
  · exact .inl (h.erase hother.1 hother.2.1)
  · exact .inr ⟨pack, members, text, h.erase hother.2.1 hother.2.2.1 hother.2.2.2⟩

theorem Clean.insert {data : Bytes} (h : Clean U d) : Clean U (d.insert other (.file data)) := by
  intro path node hnode
  by_cases hpath : path = other
  · subst hpath
    rw [lookup_insert] at hnode
    exact .inl ⟨data, (Option.some.inj hnode).symm⟩
  · rw [lookup_insert_ne hpath] at hnode
    exact h path node hnode

theorem Clean.erase (h : Clean U d) : Clean U (d.erase other) := by
  intro path node hnode
  by_cases hpath : path = other
  · subst hpath
    rw [lookup_erase] at hnode
    cases hnode
  · rw [lookup_erase_ne hpath] at hnode
    exact h path node hnode

/-! ### What the phases say -/

theorem LooseDir.record_read (h : LooseDir U d) : readRecord C d = some U.record :=
  (readRecord_congr h.record).trans U.record_read

theorem LooseDir.not_packed (h : LooseDir U d) : packedStorage? (readRecord C d) = none := by
  rw [h.record_read]
  exact U.not_packed

theorem LooseDir.same_members (h : LooseDir U d) : memberFiles d = memberFiles U.dir := by
  refine memberFiles_congr fun path hpath => ?_
  rw [mem_keys_iff, mem_keys_iff, h.loose path hpath]

def storageOf (C : Codec) (members : List (String × Entry)) (pack text : Bytes) : Storage where
  packSha256 := C.sha256 pack
  indexSha256 := C.sha256 text
  nMembers := members.length

theorem PackedDir.packed_storage (h : PackedDir U d pack members text) :
    packedStorage? (readRecord C d) = some (storageOf C members pack text) := by
  rw [h.record]
  rfl

theorem CommittedUnit.collected (U : CommittedUnit C) :
    collectLooseMembers U.dir = .ok (memberFiles U.dir) ∧
      ∃ shas, hashFiles C U.dir (memberFiles U.dir) = .ok shas ∧
        digestOfMembers C shas = U.contentDigest := by
  have h := U.digest_loose
  unfold looseShas at h
  cases hcollect : collectLooseMembers U.dir with
  | error fault => simp [hcollect, bind, Except.bind, Except.map] at h
  | ok paths =>
    obtain rfl : memberFiles U.dir = paths := by
      unfold collectLooseMembers at hcollect
      split at hcollect
      · cases hcollect
      · exact Except.ok.inj hcollect
    refine ⟨rfl, ?_⟩
    rw [hcollect] at h
    cases hhash : hashFiles C U.dir (memberFiles U.dir) with
    | error fault => simp [hhash, bind, Except.bind, Except.map] at h
    | ok shas => exact ⟨shas, rfl, by simpa [hhash, bind, Except.bind, Except.map] using h⟩

theorem Clean.representable (hclean : Clean U d) (hnode : d.lookup path = some node) :
    notRepresentable path node = false := by
  rcases hclean path node hnode with ⟨data, rfl⟩ | hold
  · rfl
  · -- what is refused now was refused when the unit was committed
    have hcollected := U.collected.1
    unfold collectLooseMembers at hcollected
    split at hcollected
    · cases hcollected
    · rename_i hnone
      by_contra hbad
      exact hnone (any_eq_true.mpr ⟨⟨path, node⟩, mem_lookup_iff.mp hold, by simpa using hbad⟩)

theorem Clean.file_of_lookup (hclean : Clean U d) (hname : isMemberName path = true)
    (hnode : d.lookup path = some node) : ∃ data, node = .file data := by
  have hrep := hclean.representable hnode
  cases node with
  | file data => exact ⟨data, rfl⟩
  | symlink toDir =>
    cases toDir with
    | true => cases hrep
    | false =>
      rw [notRepresentable, hname] at hrep
      cases hrep
  | special =>
    rw [notRepresentable, hname] at hrep
    cases hrep

theorem LooseDir.collected (h : LooseDir U d) (hclean : Clean U d) :
    collectLooseMembers d = .ok (memberFiles U.dir) := by
  have hrefused : ¬ (d.entries.any fun e => notRepresentable e.1 e.2) = true := by
    intro hany
    obtain ⟨e, he, hbad⟩ := any_eq_true.mp hany
    rw [hclean.representable (mem_lookup_iff.mpr he)] at hbad
    cases hbad
  unfold collectLooseMembers
  rw [if_neg hrefused, h.same_members]

theorem hashFiles_congr {paths : List String} (h : ∀ path ∈ paths, d'.lookup path = d.lookup path) :
    hashFiles C d' paths = hashFiles C d paths := by
  induction paths with
  | nil => rfl
  | cons path paths ih =>
    have hpath := h path (mem_cons_self ..)
    have hrest := ih fun p hp => h p (mem_cons_of_mem _ hp)
    unfold hashFiles readFile
    rw [hpath, hrest]

theorem hashFiles_concat {paths : List String} {shas : List (String × String)} {data : Bytes}
    (h : hashFiles C d paths = .ok shas) (hfile : d.lookup path = some (.file data)) :
    hashFiles C d (paths ++ [path]) = .ok (shas ++ [(path, C.sha256 data)]) := by
  induction paths generalizing shas with
  | nil =>
    obtain rfl := Except.ok.inj h
    simp [hashFiles, readFile, hfile, bind, Except.bind, pure, Except.pure]
  | cons p paths ih =>
    simp only [hashFiles, bind, Except.bind] at h
    cases hread : readFile d p with
    | error fault => simp [hread] at h
    | ok data' =>
      cases hrest : hashFiles C d paths with
      | error fault => simp [hread, hrest] at h
      | ok rest =>
        obtain rfl := by simpa [hread, hrest, pure, Except.pure] using h
        simp [hashFiles, hread, ih hrest, bind, Except.bind, pure, Except.pure]

theorem LooseDir.digest (h : LooseDir U d) (hclean : Clean U d) :
    unitContentDigest C d = .ok U.contentDigest := by
  obtain ⟨-, shas, hshas, hdigest⟩ := U.collected
  have hhash : hashFiles C d (memberFiles U.dir) = .ok shas := by
    rw [← hshas]
    exact hashFiles_congr fun path hpath => h.loose path (mem_memberFiles.mp hpath).2
  unfold unitContentDigest looseShas
  rw [h.not_packed, h.collected hclean]
  simp [bind, Except.bind, hhash, pure, Except.pure, hdigest]

theorem PackHolds.plain (h : PackHolds U pack members) :
    ∀ m ∈ members, isPlainRelpath m.1 = true ∧ excludedNames.contains m.1 = false := by
  intro m hm
  have hmem : m.1 ∈ memberFiles U.dir := h.names ▸ mem_map_of_mem hm
  obtain ⟨hkey, hname⟩ := mem_memberFiles.mp hmem
  refine ⟨U.plain m.1 hkey, ?_⟩
  simp only [isMemberName, Bool.and_eq_true, Bool.not_eq_true'] at hname
  exact hname.2

theorem Indexed.parsed (h : Indexed U d pack members text) :
    C.parseIndex text = some { members := members } := by
  refine C.parseIndex_indexText _ _ ?_ h.written
  rw [h.holds.names]
  exact memberFiles_sorted

/-- **A packed unit verifies**: the index is the one the record names, and gives the
members. -/
theorem PackedDir.verified (h : PackedDir U d pack members text) :
    verifiedMembers C d (storageOf C members pack text) = .ok (packFile, members) := by
  have hnames : storageFiles (storageOf C members pack text) = .ok (packFile, packIndex) :=
    if_pos (show (isPlainRelpath packFile && decide ('/' ∉ packFile.toList) &&
      (isPlainRelpath packIndex && decide ('/' ∉ packIndex.toList))) = true by decide)
  have hread : readNamed d packIndex = .ok text := by
    unfold readNamed readFile
    rw [h.indexed]
  have hcheck : checkIndex C (storageOf C members pack text) text = .ok members := by
    have hall : (members.all fun m => isPlainRelpath m.1 && !excludedNames.contains m.1) = true := by
      refine all_eq_true.mpr fun m hm => ?_
      obtain ⟨hplain, hexcluded⟩ := h.holds.plain m hm
      rw [hplain, hexcluded]
      rfl
    simp only [checkIndex, storageOf, ne_eq, not_true_eq_false, if_false, h.parsed]
    rw [if_pos hall]
  have hformat : (storageOf C members pack text).format = packFormat := rfl
  unfold verifiedMembers
  rw [if_neg (not_not_intro hformat), hnames]
  simp [bind, Except.bind, hread, hcheck, pure, Except.pure]

theorem PackedDir.readNamed_pack (h : PackedDir U d pack members text) :
    readNamed d packFile = .ok pack := by
  unfold readNamed readFile
  rw [h.packed]

theorem hashFiles_frames (h : Frames U pack members) :
    hashFiles C U.dir (members.map (·.1)) = .ok (members.map fun m => (m.1, m.2.sha256)) := by
  induction members with
  | nil => rfl
  | cons m members ih =>
    obtain ⟨data, hdata, -, hsha⟩ := h m (mem_cons_self ..)
    have hrest := ih fun m' hm' => h m' (mem_cons_of_mem _ hm')
    simp [hashFiles, readFile, hdata, hrest, hsha, bind, Except.bind, pure, Except.pure]

theorem PackHolds.digest (h : PackHolds U pack members) :
    digestOfIndex C members = U.contentDigest := by
  obtain ⟨-, shas, hshas, hdigest⟩ := U.collected
  rw [← h.names, hashFiles_frames h.frames] at hshas
  rw [digestOfIndex, Except.ok.inj hshas, hdigest]

theorem PackedDir.digest (h : PackedDir U d pack members text) :
    unitContentDigest C d = .ok U.contentDigest := by
  have hverify : verifyPackMembers C pack members = .ok () :=
    verifyPackMembers_ok fun m hm => by
      obtain ⟨data, -, hdata, -⟩ := h.holds.frames m hm
      exact ⟨data, hdata⟩
  unfold unitContentDigest
  rw [h.packed_storage]
  simp only [packedDigest, h.verified, bind, Except.bind, h.readNamed_pack, hverify, pure,
    Except.pure, h.holds.digest]

theorem PackHolds.entry (h : PackHolds U pack members) {data : Bytes} (hmem : U.Member path data) :
    ∃ entry, entryOf? members path = some entry ∧ memberFromHandle C pack entry = .ok data := by
  have hin : path ∈ members.map (·.1) := by
    rw [h.names, mem_memberFiles, mem_keys_iff]
    exact ⟨⟨_, hmem.2⟩, hmem.1⟩
  obtain ⟨m, hm, rfl⟩ := mem_map.mp hin
  cases hfind : members.find? fun m' => m'.1 = m.1 with
  | none => simpa using find?_eq_none.mp hfind m hm
  | some m' =>
    have hname : m'.1 = m.1 := by simpa using find?_some hfind
    obtain ⟨data', hdata', hread, -⟩ := h.frames m' (mem_of_find?_eq_some hfind)
    rw [hname, hmem.2] at hdata'
    obtain rfl : data = data' := by simpa using hdata'
    exact ⟨m'.2, by simp [entryOf?, hfind], hread⟩

theorem CommittedUnit.Member.plain {data : Bytes} (h : U.Member path data) :
    isPlainRelpath path = true ∧ excludedNames.contains path = false ∧
      isTransient (baseName path) = false := by
  have hkey : path ∈ U.dir.keys := mem_keys_iff.mpr ⟨_, h.2⟩
  have hname := h.1
  simp only [isMemberName, Bool.and_eq_true, Bool.not_eq_true'] at hname
  exact ⟨U.plain path hkey, hname.2, hname.1⟩

theorem noSymlinkedParent_of_clean {data : Bytes} (hclean : Clean U d) (h : U.Member path data) :
    noSymlinkedParent d path = true := by
  refine all_eq_true.mpr fun parent hparent => ?_
  cases hnode : d.lookup parent with
  | none => rfl
  | some node =>
    rcases hclean parent node hnode with ⟨data', rfl⟩ | hold
    · rfl
    · have hkey : path ∈ U.dir.keys := mem_keys_iff.mpr ⟨_, h.2⟩
      exact absurd (mem_keys_iff.mpr ⟨_, hold⟩) (U.no_file_above path hkey parent hparent)

/-- **Every member reads as committed**, loose or packed. -/
theorem Settled.read (h : Settled U d) (hclean : Clean U d) {data : Bytes}
    (hmem : U.Member path data) : readUnitMember C d path = .ok data := by
  obtain ⟨hplain, hexcluded, htransient⟩ := hmem.plain
  have hnot : path ∉ excludedNames := by simpa using hexcluded
  rcases h with h | ⟨pack, members, text, h⟩
  · have hlookup : d.lookup path = some (.file data) := (h.loose path hmem.1).trans hmem.2
    simp [readUnitMember, hplain, hnot, h.not_packed, htransient,
      noSymlinkedParent_of_clean hclean hmem, hlookup]
  · obtain ⟨entry, hentry, hread⟩ := h.holds.entry hmem
    simp [readUnitMember, hplain, hnot, h.packed_storage, readPacked, h.verified, hentry,
      h.readNamed_pack, hread, bind, Except.bind]

end

end Xtrax.Pack
