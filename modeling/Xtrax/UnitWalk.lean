import Mathlib
import Xtrax.UnitPackPhases

/-! # Walking a unit directory by directory

`os.walk` lists one directory at a time, and files can go between two listings.  A
directory is its path with a slash at the end, the root the empty string.

What a walk has still to find below a directory is split by the directory's listing
into its files and what is below its subdirectories (`under_perm`), and what a walk has
still to do gets less with every listing (`walkWeight_scan`).
-/
namespace Xtrax.Pack

open List

/-- The path is in the directory or below it. -/
def Below (dir path : String) : Prop := dir.toList <+: path.toList

instance (dir path : String) : Decidable (Below dir path) :=
  inferInstanceAs (Decidable (_ <+: _))

/-- What follows the directory in the path. -/
def relative (dir path : String) : List Char := path.toList.drop dir.toList.length

def DirectlyIn (dir path : String) : Prop := Below dir path ∧ '/' ∉ relative dir path

instance (dir path : String) : Decidable (DirectlyIn dir path) :=
  inferInstanceAs (Decidable (_ ∧ _))

/-- The subdirectory of `dir` that the path is in. -/
def nextDir (dir path : String) : Option String :=
  if Below dir path ∧ '/' ∈ relative dir path then
    some (String.ofList (dir.toList ++ (relative dir path).takeWhile (· ≠ '/') ++ ['/']))
  else none

/-- The files in a directory that `collect_loose_members` looks at. -/
def filesAt (d : UnitDir) (dir : String) : List String :=
  d.keys.filter fun path => DirectlyIn dir path ∧ isMemberName path = true

/-- The subdirectories of a directory. -/
def subdirs (d : UnitDir) (dir : String) : List String :=
  (d.keys.filterMap (nextDir dir)).dedup

/-- A symlink to a directory is among the entries of `dir`. -/
def linkAt (d : UnitDir) (dir : String) : Bool :=
  d.entries.any fun e => DirectlyIn dir e.1 ∧ e.2 = .symlink true

variable {dir sub path : String}

theorem append_relative (h : Below dir path) : dir.toList ++ relative dir path = path.toList := by
  obtain ⟨rest, hrest⟩ := h
  rw [relative, ← hrest]
  simp

theorem takeWhile_append_slash {name rest : List Char} (h : '/' ∉ name) :
    (name ++ '/' :: rest).takeWhile (· ≠ '/') = name := by
  induction name with
  | nil => simp
  | cons c name ih =>
    have hc : c ≠ '/' := fun hc => h (hc ▸ mem_cons_self ..)
    have hname : '/' ∉ name := fun hm => h (mem_cons_of_mem _ hm)
    rw [cons_append, takeWhile_cons_of_pos (by simpa using hc), ih hname]

theorem not_mem_takeWhile_slash (l : List Char) : '/' ∉ l.takeWhile (· ≠ '/') := by
  intro hmem
  simpa using mem_takeWhile_imp hmem

theorem below_nextDir (h : nextDir dir path = some sub) : Below sub path := by
  unfold nextDir at h
  split at h
  · rename_i hif
    obtain ⟨hbelow, hslash⟩ := hif
    obtain rfl := Option.some.inj h
    have hsplit := takeWhile_append_dropWhile (p := fun c => decide (c ≠ '/'))
      (l := relative dir path)
    cases hdrop : (relative dir path).dropWhile fun c => decide (c ≠ '/') with
    | nil =>
      rw [hdrop, append_nil] at hsplit
      exact absurd (hsplit ▸ hslash) (not_mem_takeWhile_slash _)
    | cons c rest =>
      have hc : c = '/' := by
        have := head?_dropWhile_not (fun c => decide (c ≠ '/')) (relative dir path)
        rw [hdrop] at this
        simpa using this
      have hrelative : (relative dir path).takeWhile (fun c => decide (c ≠ '/')) ++ '/' :: rest =
          relative dir path := by
        rwa [hdrop, hc] at hsplit
      refine ⟨rest, ?_⟩
      calc _ = dir.toList ++ ((relative dir path).takeWhile (fun c => decide (c ≠ '/')) ++
            '/' :: rest) := by simp
        _ = path.toList := by rw [hrelative, append_relative hbelow]
  · cases h

theorem nextDir_of_below {other : String} (hother : nextDir dir other = some sub)
    (h : Below sub path) : nextDir dir path = some sub := by
  unfold nextDir at hother
  split at hother
  · obtain rfl := Option.some.inj hother
    obtain ⟨rest, hrest⟩ := h
    rw [String.toList_ofList] at hrest
    have hbelow : Below dir path := by
      refine ⟨(relative dir other).takeWhile (· ≠ '/') ++ '/' :: rest, ?_⟩
      rw [← hrest]
      simp
    have hrel : relative dir path = (relative dir other).takeWhile (· ≠ '/') ++ '/' :: rest := by
      rw [relative, ← hrest]
      simp
    unfold nextDir
    rw [if_pos ⟨hbelow, by rw [hrel]; simp⟩, hrel,
      takeWhile_append_slash (not_mem_takeWhile_slash _)]
  · cases hother

theorem below_of_nextDir (h : nextDir dir path = some sub) : Below dir path := by
  unfold nextDir at h
  split at h
  · rename_i hif
    exact hif.1
  · cases h

/-! ## What is still to be found -/

variable {C : Codec} (U : CommittedUnit C) {d : UnitDir}

/-- The members below a directory. -/
def under (dir : String) : List String := (memberFiles U.dir).filter fun path => Below dir path

variable {U}

theorem mem_under : path ∈ under U dir ↔ path ∈ memberFiles U.dir ∧ Below dir path := by
  simp [under]

theorem nodup_under : (under U dir).Nodup := nodup_memberFiles.filter _

theorem under_root : under U "" = memberFiles U.dir :=
  filter_eq_self.mpr fun path _ => by simp [Below]

theorem mem_keys_of_loose (h : LooseDir U d) (hname : isMemberName path = true) :
    path ∈ d.keys ↔ path ∈ U.dir.keys := by
  rw [mem_keys_iff, mem_keys_iff, h.loose path hname]

/-- **One listing**: the members below a directory are those listed in it and those
below its subdirectories. -/
theorem under_perm (h : LooseDir U d) (dir : String) :
    (filesAt d dir ++ (subdirs d dir).flatMap (under U)).Perm (under U dir) := by
  have hsub : ∀ sub ∈ subdirs d dir, ∃ other, nextDir dir other = some sub := by
    intro sub hmem
    obtain ⟨other, -, hother⟩ := mem_filterMap.mp (mem_dedup.mp hmem)
    exact ⟨other, hother⟩
  -- what is below a subdirectory is in that one subdirectory
  have hnext : ∀ sub ∈ subdirs d dir, ∀ path ∈ under U sub, nextDir dir path = some sub := by
    intro sub hmem path hpath
    obtain ⟨other, hother⟩ := hsub sub hmem
    exact nextDir_of_below hother (mem_under.mp hpath).2
  have hnodup : (filesAt d dir ++ (subdirs d dir).flatMap (under U)).Nodup := by
    refine nodup_append'.mpr ⟨d.keys_nodup.filter _, ?_, ?_⟩
    · refine nodup_flatMap.mpr ⟨fun sub _ => nodup_under, ?_⟩
      refine (nodup_dedup _).imp_of_mem fun {sub sub'} hmem hmem' hne => ?_
      intro path hpath hpath'
      have heq := (hnext sub hmem path hpath).symm.trans (hnext sub' hmem' path hpath')
      exact hne (Option.some.inj heq)
    · intro path hfile hbelow
      obtain ⟨sub, hmem, hpath⟩ := mem_flatMap.mp hbelow
      have hdirect := (of_decide_eq_true (mem_filter.mp hfile).2).1
      have hin := hnext sub hmem path hpath
      unfold nextDir at hin
      rw [if_neg fun hif => hdirect.2 hif.2] at hin
      cases hin
  refine (perm_ext_iff_of_nodup hnodup nodup_under).mpr fun path => ?_
  rw [mem_append, mem_under]
  constructor
  · rintro (hfile | hbelow)
    · obtain ⟨hkey, hif⟩ := mem_filter.mp hfile
      obtain ⟨hdirect, hname⟩ := of_decide_eq_true hif
      exact ⟨mem_memberFiles.mpr ⟨(mem_keys_of_loose h hname).mp hkey, hname⟩, hdirect.1⟩
    · obtain ⟨sub, hmem, hpath⟩ := mem_flatMap.mp hbelow
      exact ⟨(mem_under.mp hpath).1, below_of_nextDir (hnext sub hmem path hpath)⟩
  · rintro ⟨hmem, hbelow⟩
    obtain ⟨hkeyU, hname⟩ := mem_memberFiles.mp hmem
    have hkey := (mem_keys_of_loose h hname).mpr hkeyU
    by_cases hslash : '/' ∈ relative dir path
    · right
      cases hin : nextDir dir path with
      | none => simp [nextDir, hbelow, hslash] at hin
      | some sub =>
        refine mem_flatMap.mpr ⟨sub, mem_dedup.mpr ?_, ?_⟩
        · exact mem_filterMap.mpr ⟨path, hkey, hin⟩
        · exact mem_under.mpr ⟨hmem, below_nextDir hin⟩
    · exact .inl (mem_filter.mpr ⟨hkey, decide_eq_true ⟨⟨hbelow, hslash⟩, hname⟩⟩)

/-! ## The walk ends -/

variable (U) in
def pathBound : Nat := (U.dir.keys.map fun path => path.toList.length).sum

/-- What a walk does below a directory, at most `n` levels deep: two steps for each
directory and two for each file in it. -/
def walkSize (d : UnitDir) : Nat → String → Nat
  | 0, _ => 0
  | n + 1, dir => 2 + 2 * (filesAt d dir).length + ((subdirs d dir).map (walkSize d n)).sum

variable (U) in
def walkWeight (dir : String) : Nat := walkSize U.dir (pathBound U + 1 - dir.toList.length) dir

variable (U) in
/-- Below the root there is only what was there when the unit was committed. -/
def Rooted (d : UnitDir) : Prop := ∀ path ∈ d.keys, '/' ∈ path.toList → path ∈ U.dir.keys

theorem length_le_pathBound (h : path ∈ U.dir.keys) : path.toList.length ≤ pathBound U :=
  le_sum_of_mem (mem_map_of_mem h)

theorem slash_of_nextDir (h : nextDir dir path = some sub) : '/' ∈ path.toList := by
  unfold nextDir at h
  split at h
  · rename_i hif
    exact mem_of_mem_drop hif.2
  · cases h

theorem length_lt_nextDir (h : nextDir dir path = some sub) :
    dir.toList.length < sub.toList.length := by
  unfold nextDir at h
  split at h
  · obtain rfl := Option.some.inj h
    simp
  · cases h

theorem mem_subdirs : sub ∈ subdirs d dir ↔ ∃ path ∈ d.keys, nextDir dir path = some sub := by
  simp [subdirs]

theorem subdirs_subset (h : Rooted U d) : subdirs d dir ⊆ subdirs U.dir dir := by
  intro sub hsub
  obtain ⟨path, hkey, hnext⟩ := mem_subdirs.mp hsub
  exact mem_subdirs.mpr ⟨path, h path hkey (slash_of_nextDir hnext), hnext⟩

theorem length_subdir_le (h : Rooted U d) (hsub : sub ∈ subdirs d dir) :
    sub.toList.length ≤ pathBound U := by
  obtain ⟨path, hkey, hnext⟩ := mem_subdirs.mp (subdirs_subset h hsub)
  exact (below_nextDir hnext).length_le.trans (length_le_pathBound hkey)

theorem walkSize_mono {n m : Nat} (hnm : n ≤ m) (dir : String) :
    walkSize d n dir ≤ walkSize d m dir := by
  induction n generalizing m dir with
  | zero => exact Nat.zero_le _
  | succ n ih =>
    obtain ⟨m, rfl⟩ : ∃ k, m = k + 1 := ⟨m - 1, by omega⟩
    have hsum := sum_le_sum (l := subdirs d dir) fun sub _ => ih (show n ≤ m by omega) sub
    simp only [walkSize]
    omega

/-- **Listing a directory** leaves less of the walk to do. -/
theorem walkWeight_scan (hroot : Rooted U d)
    (hnamed : ∀ path ∈ d.keys, isMemberName path = true → path ∈ U.dir.keys)
    (hdir : dir.toList.length ≤ pathBound U) :
    2 + 2 * (filesAt d dir).length + ((subdirs d dir).map (walkWeight U)).sum ≤
      walkWeight U dir := by
  obtain ⟨k, hk⟩ : ∃ k, pathBound U + 1 - dir.toList.length = k + 1 :=
    ⟨pathBound U - dir.toList.length, by omega⟩
  have hfiles : (filesAt d dir).length ≤ (filesAt U.dir dir).length := by
    refine (subperm_of_subset (d.keys_nodup.filter _) fun path hpath => ?_).length_le
    obtain ⟨hkey, hif⟩ := mem_filter.mp hpath
    exact mem_filter.mpr ⟨hnamed path hkey (of_decide_eq_true hif).2, hif⟩
  have hsubs : ((subdirs d dir).map (walkSize U.dir k)).sum ≤
      ((subdirs U.dir dir).map (walkSize U.dir k)).sum := by
    have hnodup : (subdirs d dir).Nodup := nodup_dedup _
    obtain ⟨l, hperm, hsublist⟩ := subperm_of_subset hnodup (subdirs_subset hroot)
    rw [← (hperm.map (walkSize U.dir k)).sum_eq]
    exact (hsublist.map _).sum_le_sum fun _ _ => Nat.zero_le _
  have hlevel : ((subdirs d dir).map (walkWeight U)).sum ≤
      ((subdirs d dir).map (walkSize U.dir k)).sum := by
    refine sum_le_sum fun sub hsub => walkSize_mono ?_ sub
    obtain ⟨path, -, hnext⟩ := mem_subdirs.mp hsub
    have := length_lt_nextDir hnext
    omega
  rw [walkWeight, hk, walkSize]
  omega

end Xtrax.Pack
