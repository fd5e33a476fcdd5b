import Mathlib.Data.List.TakeWhile
import Xtrax.UnitPackMachine

/-! # Names, frames and the member set

What packing rests on.  Leftovers of a stopped call (the partial pack, a pack without
index, temporary files, the lock file) are under names that are never members, so the
member set of a directory depends on the files under members' names alone
(`memberFiles_congr`).  The frame written for a member gives back its bytes, and still
does when the pack grows (`memberFromHandle_append`).
-/
namespace Xtrax.Pack

open Except List

/-! ## Names that are no members -/

theorem isMemberName_tmpPath (args : PackArgs) {name : String} (hname : '/' ∉ name.toList) :
    isMemberName (args.tmpPath name) = false := by
  have hslash : ∀ c ∈ (args.tmpPath name).toList.reverse, c ≠ '/' := by
    intro c hc
    rintro rfl
    have htag := args.tag_plain
    simp [PackArgs.tmpPath, hname, htag] at hc
  have hbase : baseName (args.tmpPath name) = args.tmpPath name := by
    rw [baseName, takeWhile_eq_self_iff.mpr (by simpa using hslash), reverse_reverse,
      String.ofList_toList]
  have htransient : isTransient (args.tmpPath name) = true := by
    have hfront : ['.'] <+: (args.tmpPath name).toList := by simp [PackArgs.tmpPath]
    have hback : ".tmp".toList <:+ (args.tmpPath name).toList :=
      ⟨'.' :: name.toList ++ '.' :: args.tag.toList, by simp [PackArgs.tmpPath]⟩
    rw [isTransient, decide_eq_true hfront, decide_eq_true hback]
    rfl
  simp [isMemberName, hbase, htransient]

theorem tmpPath_ne (args : PackArgs) {name other : String} (hother : other.toList.head? ≠ some '.') :
    args.tmpPath name ≠ other := by
  rintro rfl
  exact hother (by simp [PackArgs.tmpPath])

/-- A path that is neither a member's nor named by a record. -/
def Scratch (path : String) : Prop :=
  isMemberName path = false ∧ path ≠ unitRecord ∧ path ≠ packIndex ∧ path ≠ packFile

instance (path : String) : Decidable (Scratch path) := inferInstanceAs (Decidable (_ ∧ _))

theorem scratch_partialFile : Scratch partialFile := by decide

theorem scratch_packLock : Scratch packLock := by decide

theorem scratch_tmpPath (args : PackArgs) {name : String} (hname : '/' ∉ name.toList) :
    Scratch (args.tmpPath name) :=
  ⟨isMemberName_tmpPath args hname, tmpPath_ne args (by decide), tmpPath_ne args (by decide),
    tmpPath_ne args (by decide)⟩

/-! ## Frames -/

section
variable {C : Codec} {d : UnitDir}

theorem memberFromHandle_append {pack : Bytes} {entry : Entry} {data : Bytes} (more : Bytes)
    (h : memberFromHandle C pack entry = .ok data) :
    memberFromHandle C (pack ++ more) entry = .ok data := by
  unfold memberFromHandle at h ⊢
  dsimp only at h ⊢
  by_cases hlen : ((pack.drop entry.offset).take entry.length).length = entry.length
  · have hframe : ((pack ++ more).drop entry.offset).take entry.length =
        (pack.drop entry.offset).take entry.length := by
      rw [length_take, length_drop] at hlen
      by_cases hzero : entry.length = 0
      · simp [hzero]
      · rw [drop_append_of_le_length (by omega), take_append_of_le_length (by
          rw [length_drop]
          omega)]
    rwa [hframe]
  · rw [if_pos hlen] at h
    cases h

theorem memberFromHandle_packMember {level : Int} {path : String} {pack frame : Bytes}
    {entry : Entry} (h : packMember C level d path pack.length = .ok (frame, entry)) :
    ∃ data, d.lookup path = some (.file data) ∧ memberFromHandle C (pack ++ frame) entry = .ok data ∧
      entry.sha256 = C.sha256 data := by
  unfold packMember readFile tarMemberBlock at h
  cases hnode : d.lookup path with
  | none => simp [hnode, bind, Except.bind] at h
  | some node =>
    cases node with
    | symlink | special => simp [hnode, bind, Except.bind] at h
    | file raw =>
      cases hheader : C.tarHeader path raw.length with
      | none => simp [hnode, hheader, bind, Except.bind] at h
      | some header =>
        cases hframe : C.compress level (header ++ raw ++
            replicate ((512 - raw.length % 512) % 512) 0) with
        | none => simp only [hnode, hheader, hframe, bind, Except.bind, reduceCtorEq] at h
        | some frame' =>
          obtain ⟨rfl, rfl⟩ := by
            simpa only [hnode, hheader, hframe, bind, Except.bind, ok.injEq, Prod.mk.injEq] using h
          refine ⟨raw, rfl, ?_, rfl⟩
          have hblock := C.decompress_compress _ _ _ hframe
          simp [memberFromHandle, hblock]

theorem verifyPackMembers_ok {pack : Bytes} {members : List (String × Entry)}
    (h : ∀ m ∈ members, ∃ data, memberFromHandle C pack m.2 = .ok data) :
    verifyPackMembers C pack members = .ok () := by
  induction members with
  | nil => rfl
  | cons m members ih =>
    obtain ⟨data, hdata⟩ := h m (mem_cons_self ..)
    have hrest := ih fun m' hm' => h m' (mem_cons_of_mem _ hm')
    simp [verifyPackMembers, hdata, hrest, bind, Except.bind]

/-! ## The member set -/

theorem mem_memberFiles {path : String} :
    path ∈ memberFiles d ↔ path ∈ d.keys ∧ isMemberName path = true := by
  rw [memberFiles, mem_insertionSort, mem_map]
  constructor
  · rintro ⟨e, he, rfl⟩
    obtain ⟨hmem, hname⟩ := mem_filter.mp he
    exact ⟨mem_map_of_mem hmem, hname⟩
  · rintro ⟨hkey, hname⟩
    obtain ⟨e, he, rfl⟩ := mem_map.mp hkey
    exact ⟨e, mem_filter.mpr ⟨he, hname⟩, rfl⟩

theorem nodup_memberFiles : (memberFiles d).Nodup := by
  refine (perm_insertionSort _ _).nodup_iff.mpr ?_
  exact (d.keys_nodup).sublist (filter_sublist.map _)

theorem memberFiles_sorted : (memberFiles d).Pairwise (· < ·) := by
  have hle : (memberFiles d).Pairwise (· ≤ ·) := pairwise_insertionSort _ _
  refine (List.Pairwise.and hle nodup_memberFiles).imp ?_
  rintro a b ⟨hab, hne⟩
  exact lt_of_le_of_ne hab hne

theorem memberFiles_congr {d' : UnitDir}
    (h : ∀ path, isMemberName path = true → (path ∈ d'.keys ↔ path ∈ d.keys)) :
    memberFiles d' = memberFiles d := by
  have hperm : (memberFiles d').Perm (memberFiles d) := by
    refine (perm_ext_iff_of_nodup nodup_memberFiles nodup_memberFiles).mpr fun path => ?_
    rw [mem_memberFiles, mem_memberFiles]
    exact and_congr_left (h path)
  exact hperm.eq_of_pairwise' (memberFiles_sorted.imp le_of_lt) (memberFiles_sorted.imp le_of_lt)

theorem mem_keys_iff {path : String} : path ∈ d.keys ↔ ∃ node, d.lookup path = some node := by
  rw [← AList.mem_keys, ← AList.lookup_isSome, Option.isSome_iff_exists]

end

end Xtrax.Pack
