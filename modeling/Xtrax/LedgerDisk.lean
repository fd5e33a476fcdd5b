import Xtrax.Ledger

/-! # Directories and disks of a ledger

What each file-system operation of `Ledger` does to a listing, to the rows a
reader sees, and to the well-formedness of a disk.  A disk is well formed when its
listings name each file once, sealed files are listed in the order they were
written, and a new inode is in no directory yet.
-/
namespace Xtrax.Ledger

open List

open LastWins

namespace Dir
variable {dir : Dir} {n i : Nat}

theorem mem_remove {e : Nat × Nat} : e ∈ dir.remove n ↔ e ∈ dir ∧ e.1 ≠ n := by simp [remove]

theorem mem_set {e : Nat × Nat} : e ∈ dir.set n i ↔ e = (n, i) ∨ e ∈ dir ∧ e.1 ≠ n := by
  simp only [set, mem_orderedInsert, mem_remove]

theorem mem_of_ino? (h : dir.ino? n = some i) : (n, i) ∈ dir := by
  obtain ⟨e, he, rfl⟩ := Option.map_eq_some_iff.mp h
  obtain rfl : e.1 = n := by simpa using find?_some he
  exact mem_of_find?_eq_some he

theorem ino?_of_mem (hnd : dir.names.Nodup) (h : (n, i) ∈ dir) : dir.ino? n = some i := by
  induction dir with
  | nil => cases h
  | cons e dir ih =>
    obtain ⟨hne, hnd⟩ := nodup_cons.mp hnd
    rcases mem_cons.mp h with rfl | h
    · simp [ino?]
    · have hen : e.1 ≠ n := by
        intro hen
        exact hne (mem_map.mpr ⟨(n, i), h, hen.symm⟩)
      have := ih hnd h
      simpa [ino?, find?_cons, hen] using this

theorem ino?_eq_none_iff : dir.ino? n = none ↔ n ∉ dir.names := by
  rw [ino?, Option.map_eq_none_iff, List.find?_eq_none, names, List.mem_map]
  simp only [decide_eq_true_eq, not_exists, not_and]

theorem remove_eq_self (h : n ∉ dir.names) : dir.remove n = dir := by
  refine filter_eq_self.mpr fun e he => ?_
  have : e.1 ≠ n := fun hen => h (hen ▸ mem_map_of_mem he)
  simpa using this

theorem names_remove : (dir.remove n).names = dir.names.filter (· ≠ n) := by
  simp only [names, remove, List.filter_map]
  rfl

theorem set_split (h : n ∉ dir.names) :
    ∃ front back, dir = front ++ back ∧ dir.set n i = front ++ (n, i) :: back := by
  rw [set, remove_eq_self h]
  exact ⟨_, _, (takeWhile_append_dropWhile).symm, orderedInsert_eq_take_drop ..⟩

theorem nodup_set (hnd : dir.names.Nodup) : (dir.set n i).names.Nodup := by
  have hperm : (dir.set n i).names.Perm (n :: (dir.remove n).names) :=
    (perm_orderedInsert _ _ _).map _
  refine hperm.nodup_iff.mpr (nodup_cons.mpr ⟨?_, ?_⟩)
  · simp [names_remove]
  · rw [names_remove]
    exact hnd.filter _

theorem nodup_remove (hnd : dir.names.Nodup) : (dir.remove n).names.Nodup := by
  rw [names_remove]
  exact hnd.filter _

theorem remove_append_cons (front back : Dir) (hnd : (front ++ (n, i) :: back).names.Nodup) :
    Dir.remove (front ++ (n, i) :: back) n = front ++ back := by
  have hn : n ∉ front.names ++ back.names := by
    have hperm : (front ++ (n, i) :: back).names.Perm (n :: (front.names ++ back.names)) := by
      simp [names]
    exact (nodup_cons.mp (hperm.nodup_iff.mp hnd)).1
  rw [mem_append, not_or] at hn
  have hfront := remove_eq_self hn.1
  have hback := remove_eq_self hn.2
  simp only [remove] at hfront hback ⊢
  rw [filter_append, filter_cons_of_neg (by simp), hfront, hback]

end Dir

namespace Disk
variable {d d' : Disk} {row : RunLedgerRecord} {sources : List Source} {s : Source}

/-- The inodes of all three directories. -/
def files (d : Disk) : List Nat :=
  d.sealed.map (·.2) ++ d.segments.map (·.2) ++ d.archive.map (·.2)

theorem mem_files {i : Nat} :
    i ∈ d.files ↔ (∃ n, (n, i) ∈ d.sealed) ∨ (∃ n, (n, i) ∈ d.segments) ∨
      ∃ s, (s, i) ∈ d.archive := by
  simp [files]

/-- Every listing names a file once, and `next` is new. -/
structure Named (d : Disk) : Prop where
  sealed_nodup : d.sealed.names.Nodup
  segments_nodup : d.segments.names.Nodup
  archive_nodup : (d.archive.map (·.1)).Nodup
  files_lt : ∀ i ∈ d.files, i < d.next

/-- Sealed files, moreover, are listed in the order they were written. -/
structure WF (d : Disk) : Prop extends Named d where
  sealed_sorted : d.sealed.names.Pairwise (· < ·)

theorem wf_empty : empty.WF := by
  constructor
  · constructor <;> simp [empty, Dir.names, files]
  · simp [empty, Dir.names]

theorem Named.sealed_lt (h : d.Named) : ∀ e ∈ d.sealed, e.2 < d.next :=
  fun e he => h.files_lt _ (mem_files.mpr (.inl ⟨e.1, he⟩))

theorem Named.segments_lt (h : d.Named) : ∀ e ∈ d.segments, e.2 < d.next :=
  fun e he => h.files_lt _ (mem_files.mpr (.inr (.inl ⟨e.1, he⟩)))

theorem lt_nextIndex {existing : List Nat} (h : existing.Pairwise (· < ·)) :
    ∀ n ∈ existing, n < nextIndex existing := by
  intro n hn
  cases hlast : existing.getLast? with
  | none =>
    rw [getLast?_eq_none_iff.mp hlast] at hn
    cases hn
  | some m =>
    have hnext : nextIndex existing = m + 1 := by simp only [nextIndex, hlast]
    obtain ⟨front, rfl⟩ := getLast?_eq_some_iff.mp hlast
    rw [hnext]
    rcases mem_append.mp hn with hn | hn
    · have := (pairwise_append.mp h).2.2 n hn m (mem_singleton_self m)
      omega
    · have := mem_singleton.mp hn
      omega

theorem WF.nextIndex_notMem (h : d.WF) : nextIndex d.sealed.names ∉ d.sealed.names :=
  fun hmem => Nat.lt_irrefl _ (lt_nextIndex h.sealed_sorted _ hmem)

/-! ## Rows -/

@[simp] theorem rows_nil : d.rows [] = [] := rfl

@[simp] theorem rows_cons (e : Nat × Nat) (dir : Dir) :
    d.rows (e :: dir) = d.lines e.2 ++ d.rows dir := by
  simp [rows]

@[simp] theorem rows_append (dir₁ dir₂ : Dir) :
    d.rows (dir₁ ++ dir₂) = d.rows dir₁ ++ d.rows dir₂ := by
  simp [rows]

theorem mem_rows {dir : Dir} : row ∈ d.rows dir ↔ ∃ e ∈ dir, row ∈ d.lines e.2 := by simp [rows]

theorem rows_congr {dir : Dir} (h : ∀ e ∈ dir, d'.lines e.2 = d.lines e.2) :
    d'.rows dir = d.rows dir := by
  refine flatMap_congr fun e he => h e he

theorem findRun_eq (runId : String) :
    d.findRun runId = lastFor RunLedgerRecord.runId runId d.iterRows := by
  unfold findRun
  induction d.iterRows using reverseRecOn with
  | nil => rfl
  | append_singleton rows row ih =>
    rw [foldl_append, lastFor_concat, ← ih]
    rfl

/-! ## Moves -/

theorem move_eq_some (h : d.move s = some d') :
    ∃ i, d.ino? s = some i ∧ d' = (d.unlink s).putArchive s i := by
  obtain ⟨i, hi, rfl⟩ := Option.map_eq_some_iff.mp h
  exact ⟨i, hi, rfl⟩

@[simp] theorem unlink_lines (s : Source) : (d.unlink s).lines = d.lines := by cases s <;> rfl

@[simp] theorem unlink_next (s : Source) : (d.unlink s).next = d.next := by cases s <;> rfl

@[simp] theorem unlink_archive (s : Source) : (d.unlink s).archive = d.archive := by cases s <;> rfl

theorem unlink_sealed (s : Source) :
    (d.unlink s).sealed = d.sealed.filter fun e => Source.sealed e.1 ≠ s := by
  cases s with
  | sealed n => simp [unlink, Dir.remove]
  | segment n => simp [unlink]

theorem unlink_segments (s : Source) :
    (d.unlink s).segments = d.segments.filter fun e => Source.segment e.1 ≠ s := by
  cases s with
  | sealed n => simp [unlink]
  | segment n => simp [unlink, Dir.remove]

theorem moveAll_live (h : d.moveAll sources = some d') :
    d'.sealed = d.sealed.filter (fun e => Source.sealed e.1 ∉ sources) ∧
      d'.segments = d.segments.filter (fun e => Source.segment e.1 ∉ sources) ∧
      d'.lines = d.lines ∧ d'.next = d.next := by
  induction sources generalizing d with
  | nil =>
    obtain rfl : d = d' := by simpa [moveAll] using h
    simp
  | cons s sources ih =>
    simp only [moveAll, List.foldlM_cons] at h
    obtain ⟨d₁, h₁, h⟩ := Option.bind_eq_some_iff.mp h
    obtain ⟨i, hi, rfl⟩ := move_eq_some h₁
    obtain ⟨hsealed, hsegments, hlines, hnext⟩ := ih h
    refine ⟨?_, ?_, ?_, ?_⟩
    · rw [hsealed, putArchive, unlink_sealed, List.filter_filter]
      exact List.filter_congr fun e _ => by simp [not_or, Bool.and_comm]
    · rw [hsegments, putArchive, unlink_segments, List.filter_filter]
      exact List.filter_congr fun e _ => by simp [not_or, Bool.and_comm]
    · rw [hlines, putArchive, unlink_lines]
    · rw [hnext, putArchive, unlink_next]

theorem files_move (h : d.move s = some d') : ∀ i ∈ d'.files, i ∈ d.files := by
  obtain ⟨j, hj, rfl⟩ := move_eq_some h
  intro i hi
  rcases mem_files.mp hi with ⟨n, hn⟩ | ⟨n, hn⟩ | ⟨a, ha⟩
  · rw [putArchive, unlink_sealed] at hn
    exact mem_files.mpr (.inl ⟨n, (mem_filter.mp hn).1⟩)
  · rw [putArchive, unlink_segments] at hn
    exact mem_files.mpr (.inr (.inl ⟨n, (mem_filter.mp hn).1⟩))
  · rcases mem_cons.mp ha with hsi | hold
    · obtain rfl : i = j := (Prod.ext_iff.mp hsi).2
      cases s with
      | sealed n => exact mem_files.mpr (.inl ⟨n, Dir.mem_of_ino? hj⟩)
      | segment n => exact mem_files.mpr (.inr (.inl ⟨n, Dir.mem_of_ino? hj⟩))
    · rw [unlink_archive] at hold
      exact mem_files.mpr (.inr (.inr ⟨a, (mem_filter.mp hold).1⟩))

theorem named_move (h : d.Named) (hd' : d.move s = some d') : d'.Named := by
  have hfiles := files_move hd'
  obtain ⟨j, hj, rfl⟩ := move_eq_some hd'
  refine
    { sealed_nodup := ?_
      segments_nodup := ?_
      archive_nodup := ?_
      files_lt := fun i hi => by simpa [putArchive] using h.files_lt i (hfiles i hi) }
  · rw [putArchive, unlink_sealed]
    exact h.sealed_nodup.sublist (filter_sublist.map _)
  · rw [putArchive, unlink_segments]
    exact h.segments_nodup.sublist (filter_sublist.map _)
  · refine nodup_cons.mpr ⟨?_, ?_⟩
    · simp
    · rw [unlink_archive]
      exact h.archive_nodup.sublist (filter_sublist.map _)

theorem named_moveAll (h : d.Named) (hd' : d.moveAll sources = some d') : d'.Named := by
  induction sources generalizing d with
  | nil =>
    obtain rfl : d = d' := by simpa [moveAll] using hd'
    exact h
  | cons s sources ih =>
    simp only [moveAll, foldlM_cons] at hd'
    obtain ⟨d₁, h₁, hd'⟩ := Option.bind_eq_some_iff.mp hd'
    exact ih (named_move h h₁) hd'

theorem moveAll_archive (h : d.moveAll sources = some d') :
    ∀ e ∈ d'.archive, e ∈ d.archive ∨
      e.1 ∈ sources ∧ ∃ e' ∈ d.sealed ++ d.segments, e'.2 = e.2 := by
  induction sources generalizing d with
  | nil =>
    obtain rfl : d = d' := by simpa [moveAll] using h
    exact fun e he => .inl he
  | cons s sources ih =>
    simp only [moveAll, foldlM_cons] at h
    obtain ⟨d₁, h₁, h⟩ := Option.bind_eq_some_iff.mp h
    obtain ⟨i, hi, rfl⟩ := move_eq_some h₁
    intro e he
    rcases ih h e he with harchive | ⟨hsource, e', he', hino⟩
    · rcases mem_cons.mp harchive with rfl | hold
      · refine .inr ⟨mem_cons_self .., ?_⟩
        cases s with
        | sealed n => exact ⟨_, mem_append_left _ (Dir.mem_of_ino? hi), rfl⟩
        | segment n => exact ⟨_, mem_append_right _ (Dir.mem_of_ino? hi), rfl⟩
      · exact .inl (by simpa using (mem_filter.mp hold).1)
    · refine .inr ⟨mem_cons_of_mem _ hsource, e', ?_, hino⟩
      rcases mem_append.mp he' with he' | he'
      · rw [putArchive, unlink_sealed] at he'
        exact mem_append_left _ (mem_filter.mp he').1
      · rw [putArchive, unlink_segments] at he'
        exact mem_append_right _ (mem_filter.mp he').1

/-! ## The rows kept anywhere -/

/-- Some file of `sealed/`, `segments/` or `archive/` has the row. -/
def Holds (d : Disk) (row : RunLedgerRecord) : Prop := ∃ i ∈ d.files, row ∈ d.lines i

instance (d : Disk) (row : RunLedgerRecord) : Decidable (d.Holds row) :=
  inferInstanceAs (Decidable (∃ i ∈ d.files, _))

theorem holds_move (hnd : d.Named) (hfree : s ∉ d.archive.map (·.1)) (h : d.move s = some d')
    (hrow : d.Holds row) : d'.Holds row := by
  obtain ⟨i, hi, rfl⟩ := move_eq_some h
  obtain ⟨j, hj, hline⟩ := hrow
  refine ⟨j, ?_, by simpa [putArchive] using hline⟩
  have harchive : ((d.unlink s).putArchive s i).archive = (s, i) :: d.archive := by
    simp only [putArchive, unlink_archive]
    congr 1
    exact filter_eq_self.mpr fun e he => by simpa using fun hes => hfree (mem_map.mpr ⟨e, he, hes⟩)
  rw [mem_files, harchive]
  rcases mem_files.mp hj with ⟨n, hn⟩ | ⟨n, hn⟩ | ⟨a, ha⟩
  · by_cases hs : Source.sealed n = s
    · subst hs
      have := Dir.ino?_of_mem hnd.sealed_nodup hn
      rw [show d.ino? (.sealed n) = some j from this] at hi
      cases hi
      exact .inr (.inr ⟨_, mem_cons_self ..⟩)
    · refine .inl ⟨n, ?_⟩
      rw [putArchive, unlink_sealed]
      exact mem_filter.mpr ⟨hn, by simpa using hs⟩
  · by_cases hs : Source.segment n = s
    · subst hs
      have := Dir.ino?_of_mem hnd.segments_nodup hn
      rw [show d.ino? (.segment n) = some j from this] at hi
      cases hi
      exact .inr (.inr ⟨_, mem_cons_self ..⟩)
    · refine .inr (.inl ⟨n, ?_⟩)
      rw [putArchive, unlink_segments]
      exact mem_filter.mpr ⟨hn, by simpa using hs⟩
  · exact .inr (.inr ⟨a, mem_cons_of_mem _ ha⟩)

theorem holds_moveAll (hnd : d.Named) (hsources : sources.Nodup)
    (hfree : ∀ s ∈ sources, s ∉ d.archive.map (·.1)) (h : d.moveAll sources = some d')
    (hrow : d.Holds row) : d'.Holds row := by
  induction sources generalizing d with
  | nil =>
    obtain rfl : d = d' := by simpa [moveAll] using h
    exact hrow
  | cons s sources ih =>
    simp only [moveAll, foldlM_cons] at h
    obtain ⟨d₁, h₁, h⟩ := Option.bind_eq_some_iff.mp h
    obtain ⟨hs, hsources⟩ := nodup_cons.mp hsources
    have hrow₁ := holds_move hnd (hfree s (mem_cons_self ..)) h₁ hrow
    have hnd₁ := named_move hnd h₁
    obtain ⟨i, hi, rfl⟩ := move_eq_some h₁
    refine ih hnd₁ hsources (fun s' hs' hmem => ?_) h hrow₁
    obtain ⟨e, he, rfl⟩ := mem_map.mp hmem
    rcases mem_cons.mp he with rfl | hold
    · exact hs hs'
    · refine hfree e.1 (mem_cons_of_mem _ hs') (mem_map_of_mem ?_)
      simpa using (mem_filter.mp hold).1

/-! ## The sealed file -/

theorem files_writeSealed (n : Nat) (kept : List RunLedgerRecord) :
    ∀ i ∈ (d.writeSealed n kept).files, i ∈ d.files ∨ i = d.next := by
  intro i hi
  rcases mem_files.mp hi with ⟨m, hm⟩ | ⟨m, hm⟩ | ⟨a, ha⟩
  · rcases Dir.mem_set.mp hm with hnew | ⟨hm, _⟩
    · exact .inr (Prod.ext_iff.mp hnew).2
    · exact .inl (mem_files.mpr (.inl ⟨m, hm⟩))
  · exact .inl (mem_files.mpr (.inr (.inl ⟨m, hm⟩)))
  · exact .inl (mem_files.mpr (.inr (.inr ⟨a, ha⟩)))

theorem named_writeSealed (h : d.Named) (n : Nat) (kept : List RunLedgerRecord) :
    (d.writeSealed n kept).Named where
  sealed_nodup := Dir.nodup_set h.sealed_nodup
  segments_nodup := h.segments_nodup
  archive_nodup := h.archive_nodup
  files_lt i hi := by
    rcases files_writeSealed n kept i hi with hold | rfl
    · exact Nat.lt_succ_of_lt (h.files_lt i hold)
    · exact Nat.lt_succ_self _

theorem lines_writeSealed (n : Nat) (kept : List RunLedgerRecord) {i : Nat} (hi : i < d.next) :
    (d.writeSealed n kept).lines i = d.lines i :=
  Function.update_of_ne (Nat.ne_of_lt hi) _ _

/-! ## Appending -/

theorem ino_openAppend (n : Nat) : (n, (d.openAppend n).1) ∈ (d.openAppend n).2.segments := by
  unfold openAppend
  cases hi : d.segments.ino? n with
  | some i => exact Dir.mem_of_ino? hi
  | none => exact Dir.mem_set.mpr (.inl rfl)

@[simp] theorem openAppend_sealed (n : Nat) : (d.openAppend n).2.sealed = d.sealed := by
  unfold openAppend
  split <;> rfl

@[simp] theorem openAppend_archive (n : Nat) : (d.openAppend n).2.archive = d.archive := by
  unfold openAppend
  split <;> rfl

theorem files_openAppend (n : Nat) :
    ∀ i ∈ (d.openAppend n).2.files, i ∈ d.files ∨
      i = d.next ∧ (d.openAppend n).2.lines i = [] ∧ d.next < (d.openAppend n).2.next := by
  unfold openAppend
  cases hi : d.segments.ino? n with
  | some i => exact fun i hi => .inl hi
  | none =>
    intro i hi
    rcases mem_files.mp hi with ⟨m, hm⟩ | ⟨m, hm⟩ | ⟨a, ha⟩
    · exact .inl (mem_files.mpr (.inl ⟨m, hm⟩))
    · rcases Dir.mem_set.mp hm with hnew | ⟨hm, _⟩
      · obtain rfl : i = d.next := (Prod.ext_iff.mp hnew).2
        exact .inr ⟨rfl, by simp, Nat.lt_succ_self _⟩
      · exact .inl (mem_files.mpr (.inr (.inl ⟨m, hm⟩)))
    · exact .inl (mem_files.mpr (.inr (.inr ⟨a, ha⟩)))

theorem next_openAppend (n : Nat) : d.next ≤ (d.openAppend n).2.next := by
  unfold openAppend
  split
  · exact Nat.le_refl _
  · exact Nat.le_succ _

theorem lines_openAppend (n : Nat) {i : Nat} (hi : i < d.next) :
    (d.openAppend n).2.lines i = d.lines i := by
  unfold openAppend
  split
  · rfl
  · exact Function.update_of_ne (Nat.ne_of_lt hi) _ _

theorem named_openAppend (h : d.Named) (n : Nat) : (d.openAppend n).2.Named where
  sealed_nodup := by simpa using h.sealed_nodup
  segments_nodup := by
    unfold openAppend
    split
    · exact h.segments_nodup
    · exact Dir.nodup_set h.segments_nodup
  archive_nodup := by simpa using h.archive_nodup
  files_lt i hi := by
    rcases files_openAppend n i hi with hold | ⟨rfl, -, hlt⟩
    · exact Nat.lt_of_lt_of_le (h.files_lt i hold) (next_openAppend n)
    · exact hlt

theorem wf_openAppend (h : d.WF) (n : Nat) : (d.openAppend n).2.WF :=
  { named_openAppend h.toNamed n with sealed_sorted := by simpa using h.sealed_sorted }

theorem holds_openAppend (h : d.Named) (n : Nat) (hrow : d.Holds row) :
    (d.openAppend n).2.Holds row := by
  unfold openAppend
  cases hi : d.segments.ino? n with
  | some i => exact hrow
  | none =>
    obtain ⟨j, hj, hline⟩ := hrow
    have hne : j ≠ d.next := Nat.ne_of_lt (h.files_lt j hj)
    refine ⟨j, ?_, by simpa [Function.update_of_ne hne] using hline⟩
    rw [mem_files] at hj ⊢
    refine hj.imp_right (Or.imp_left ?_)
    rintro ⟨m, hm⟩
    refine ⟨m, Dir.mem_set.mpr (.inr ⟨hm, ?_⟩)⟩
    rintro rfl
    exact Dir.ino?_eq_none_iff.mp hi (mem_map_of_mem hm)

theorem named_append (h : d.Named) (i : Nat) (row : RunLedgerRecord) : (d.append i row).Named :=
  ⟨h.sealed_nodup, h.segments_nodup, h.archive_nodup, h.files_lt⟩

theorem wf_append (h : d.WF) (i : Nat) (row : RunLedgerRecord) : (d.append i row).WF :=
  ⟨named_append h.toNamed i row, h.sealed_sorted⟩

theorem append_holds (i : Nat) (row : RunLedgerRecord) (hi : i ∈ d.files) :
    (d.append i row).Holds row :=
  ⟨i, hi, by simp [append]⟩

theorem holds_append (i : Nat) (row : RunLedgerRecord) {row' : RunLedgerRecord}
    (hrow : d.Holds row') : (d.append i row).Holds row' := by
  obtain ⟨j, hj, hline⟩ := hrow
  refine ⟨j, hj, ?_⟩
  by_cases hji : j = i
  · subst hji
    simp [append, hline]
  · simpa [append, Function.update_of_ne hji] using hline

theorem mem_lines_append {i j : Nat} {r row : RunLedgerRecord} :
    r ∈ (d.append i row).lines j ↔ r ∈ d.lines j ∨ j = i ∧ r = row := by
  by_cases hj : j = i
  · subst hj
    simp [append]
  · simp [append, hj]

theorem close_eq (lineBytes : RunLedgerRecord → Nat) (row : RunLedgerRecord) :
    d.close lineBytes row = (d.openAppend (d.activeSegment lineBytes)).2.append
      (d.openAppend (d.activeSegment lineBytes)).1 row := rfl

end Disk
end Xtrax.Ledger
