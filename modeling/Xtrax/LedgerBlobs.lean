import Xtrax.LedgerMachine

/-! # Blob collection among runs and passes

The collection at the end of a pass deletes the blobs that no row names: it scans the
rows of all three directories and deletes what the scan did not see.

A row escapes the scan when its run, or another pass, has it and has not written it yet,
and when it is put into a file the scan has already read.  `SparesBlobs` is the condition
on the runs: nothing of either kind names the blob at an unlink.

The invariant `Covered` follows every readable row through the scan of a pass, path by
path.  A file that another pass moves away goes to `archive/`, which is listed last.
-/
namespace Xtrax.Ledger

open Disk List Option Interleaving

/-! ## The store -/

theorem findBlob_eq_some {blobs : List Blob} {d : String} {b : Blob}
    (h : findBlob blobs d = some b) : b.1 = d ∧ b ∈ blobs := by
  refine ⟨?_, by simpa using find?_some h⟩
  have := mem_of_find?_eq_some h
  rcases mem_map.mp this with ⟨suffix, -, rfl⟩
  rfl

theorem stored_of_findBlob {blobs : List Blob} {d : String} (h : (findBlob blobs d).isSome) :
    Stored blobs d := by
  obtain ⟨b, hb⟩ := isSome_iff_exists.mp h
  obtain ⟨rfl, hmem⟩ := findBlob_eq_some hb
  exact ⟨b.2, hmem⟩

theorem stored_store {blobs : List Blob} {d d' : String} (suffix : Suffix) (h : Stored blobs d) :
    Stored ((d', suffix) :: blobs.erase (d', suffix)) d := by
  obtain ⟨suffix', hmem⟩ := h
  refine ⟨suffix', ?_⟩
  by_cases he : (d, suffix') = (d', suffix)
  · exact he ▸ mem_cons_self ..
  · exact mem_cons_of_mem _ ((mem_erase_of_ne he).mpr hmem)

theorem stored_unlink {blobs : List Blob} {blob : Blob} {d : String} (hne : blob.1 ≠ d)
    (h : Stored blobs d) : Stored (blobs.filter (· ≠ blob)) d := by
  obtain ⟨suffix, hmem⟩ := h
  refine ⟨suffix, mem_filter.mpr ⟨hmem, ?_⟩⟩
  have : (d, suffix) ≠ blob := fun he => hne (by rw [← he])
  simpa using this

/-- Every artifact the row says is stored in full is in the store. -/
def Backed (blobs : List Blob) (row : RunLedgerRecord) : Prop :=
  ∀ d ∈ row.fullDigests, Stored blobs d

theorem backed_mono {blobs blobs' : List Blob} (hb : ∀ d, Stored blobs d → Stored blobs' d)
    {row : RunLedgerRecord} (h : Backed blobs row) : Backed blobs' row :=
  fun d hd => hb d (h d hd)

theorem backed_unlink {blobs : List Blob} {blob : Blob} {row : RunLedgerRecord}
    (hne : blob.1 ∉ row.fullDigests) (h : Backed blobs row) :
    Backed (blobs.filter (· ≠ blob)) row := by
  intro d hd
  refine stored_unlink ?_ (h d hd)
  rintro rfl
  exact hne hd

/-! ## Rows behind a path -/

/-- The directory a path is in. -/
def ScanFile.dir : ScanFile → Scan
  | live (.sealed _) => .sealed
  | live (.segment _) => .segments
  | archived _ => .archive

/-- The file at the path has the row. -/
def Readable (d : Disk) (path : ScanFile) (row : RunLedgerRecord) : Prop :=
  ∃ i, scanIno? d path = some i ∧ row ∈ d.lines i

variable {d d' : Disk} {path : ScanFile} {row row' : RunLedgerRecord} {i n : Nat}

theorem mem_archive_of_scanIno? {src : Source} (h : scanIno? d (.archived src) = some i) :
    (src, i) ∈ d.archive := by
  obtain ⟨e, he, rfl⟩ := map_eq_some_iff.mp h
  obtain rfl : e.1 = src := by simpa using find?_some he
  exact mem_of_find?_eq_some he

theorem scanIno?_of_mem_archive {src : Source} (hnd : d.Named) (h : (src, i) ∈ d.archive) :
    scanIno? d (.archived src) = some i := by
  rw [scanIno?, map_eq_some_iff]
  obtain ⟨e, he⟩ : ∃ e, d.archive.find? (fun e => e.1 = src) = some e :=
    isSome_iff_exists.mp (find?_isSome.mpr ⟨_, h, by simp⟩)
  have hsrc : e.1 = src := by simpa using find?_some he
  have hmem := mem_of_find?_eq_some he
  have : e = (src, i) := inj_on_of_nodup_map hnd.archive_nodup hmem h hsrc
  exact ⟨e, he, by rw [this]⟩

theorem mem_scanFiles (h : scanIno? d path = some i) : path ∈ scanFiles d path.dir := by
  cases path with
  | live src =>
    cases src with
    | sealed m =>
      exact mem_map.mpr ⟨m, mem_map.mpr ⟨_, Dir.mem_of_ino? h, rfl⟩, rfl⟩
    | segment m =>
      exact mem_map.mpr ⟨m, mem_map.mpr ⟨_, Dir.mem_of_ino? h, rfl⟩, rfl⟩
  | archived src => exact mem_map.mpr ⟨_, mem_archive_of_scanIno? h, rfl⟩

theorem dir_of_mem_scanFiles {dir : Scan} (h : path ∈ scanFiles d dir) : path.dir = dir := by
  cases dir <;>
  · obtain ⟨_, -, rfl⟩ := mem_map.mp h
    rfl

theorem mem_files_of_scanIno? (h : scanIno? d path = some i) : i ∈ d.files := by
  rw [mem_files]
  cases path with
  | live src =>
    cases src with
    | sealed m => exact .inl ⟨m, Dir.mem_of_ino? h⟩
    | segment m => exact .inr (.inl ⟨m, Dir.mem_of_ino? h⟩)
  | archived src => exact .inr (.inr ⟨src, mem_archive_of_scanIno? h⟩)

theorem holds_iff_readable (hnd : d.Named) : d.Holds row ↔ ∃ path, Readable d path row := by
  constructor
  · rintro ⟨i, hi, hrow⟩
    rcases mem_files.mp hi with ⟨m, hm⟩ | ⟨m, hm⟩ | ⟨src, hsrc⟩
    · exact ⟨.live (.sealed m), i, Dir.ino?_of_mem hnd.sealed_nodup hm, hrow⟩
    · exact ⟨.live (.segment m), i, Dir.ino?_of_mem hnd.segments_nodup hm, hrow⟩
    · exact ⟨.archived src, i, scanIno?_of_mem_archive hnd hsrc, hrow⟩
  · rintro ⟨path, i, hi, hrow⟩
    exact ⟨i, mem_files_of_scanIno? hi, hrow⟩

/-! What each file-system operation makes readable. -/

theorem readable_openAppend (hnd : d.Named) (n : Nat) (h : Readable (d.openAppend n).2 path row) :
    Readable d path row := by
  obtain ⟨i, hi, hrow⟩ := h
  -- the file is not the new one, which is empty
  have hold : i ∈ d.files := by
    rcases files_openAppend n i (mem_files_of_scanIno? hi) with hold | ⟨-, hempty, -⟩
    · exact hold
    · rw [hempty] at hrow
      cases hrow
  rw [lines_openAppend n (hnd.files_lt i hold)] at hrow
  refine ⟨i, ?_, hrow⟩
  cases path with
  | live src =>
    cases src with
    | sealed m =>
      rw [scanIno?, ino?, openAppend_sealed] at hi
      exact hi
    | segment m =>
      have hmem := Dir.mem_of_ino? hi
      unfold openAppend at hmem
      cases hino : d.segments.ino? n with
      | some j => exact Dir.ino?_of_mem hnd.segments_nodup (by simpa [hino] using hmem)
      | none =>
        rw [hino] at hmem
        rcases Dir.mem_set.mp hmem with hnew | ⟨hmem, -⟩
        · obtain rfl : i = d.next := (Prod.ext_iff.mp hnew).2
          exact absurd (hnd.files_lt _ hold) (Nat.lt_irrefl _)
        · exact Dir.ino?_of_mem hnd.segments_nodup hmem
  | archived src =>
    rw [scanIno?, openAppend_archive] at hi
    exact hi

theorem readable_append (h : Readable (d.append i row) path row') :
    Readable d path row' ∨ row' = row := by
  obtain ⟨j, hj, hline⟩ := h
  have hino : scanIno? (d.append i row) path = scanIno? d path := by
    cases path with
    | live src => cases src <;> rfl
    | archived src => rfl
  rw [hino] at hj
  rcases mem_lines_append.mp hline with hold | ⟨-, hnew⟩
  · exact .inl ⟨j, hj, hold⟩
  · exact .inr hnew

theorem readable_writeSealed (hnd : d.Named) {kept : List RunLedgerRecord}
    (h : Readable (d.writeSealed n kept) path row) : Readable d path row ∨ row ∈ kept := by
  obtain ⟨i, hi, hrow⟩ := h
  by_cases hnew : i = d.next
  · subst hnew
    exact .inr (by simpa [writeSealed] using hrow)
  · have hold : i ∈ d.files :=
      (files_writeSealed n kept i (mem_files_of_scanIno? hi)).resolve_right hnew
    rw [lines_writeSealed n kept (hnd.files_lt i hold)] at hrow
    refine .inl ⟨i, ?_, hrow⟩
    cases path with
    | live src =>
      cases src with
      | sealed m =>
        rcases Dir.mem_set.mp (Dir.mem_of_ino? hi) with he | ⟨hmem, -⟩
        · exact absurd (Prod.ext_iff.mp he).2 hnew
        · exact Dir.ino?_of_mem hnd.sealed_nodup hmem
      | segment m => exact hi
    | archived src => exact hi

theorem readable_move (hnd : d.Named) {src : Source} (hd' : d.move src = some d')
    (h : Readable d' path row) :
    Readable d path row ∨ path = .archived src ∧ Readable d (.live src) row := by
  obtain ⟨j, hj, rfl⟩ := move_eq_some hd'
  obtain ⟨i, hi, hrow⟩ := h
  replace hrow : row ∈ d.lines i := by simpa [putArchive] using hrow
  cases path with
  | live src' =>
    refine .inl ⟨i, ?_, hrow⟩
    cases src' with
    | sealed m =>
      have hmem := Dir.mem_of_ino? hi
      rw [putArchive, unlink_sealed] at hmem
      exact Dir.ino?_of_mem hnd.sealed_nodup (mem_filter.mp hmem).1
    | segment m =>
      have hmem := Dir.mem_of_ino? hi
      rw [putArchive, unlink_segments] at hmem
      exact Dir.ino?_of_mem hnd.segments_nodup (mem_filter.mp hmem).1
  | archived src' =>
    rcases mem_cons.mp (mem_archive_of_scanIno? hi) with he | hold
    · have hij : i = j := (Prod.ext_iff.mp he).2
      exact .inr ⟨congrArg _ (Prod.ext_iff.mp he).1, j, hj, hij ▸ hrow⟩
    · rw [unlink_archive] at hold
      exact .inl ⟨i, scanIno?_of_mem_archive hnd (mem_filter.mp hold).1, hrow⟩

/-! ## Runs and passes -/

variable {P Q : Type}

/-- Every row in `segments/`, `sealed/` or `archive/` is backed. -/
def Complete (s : State P Q) : Prop := ∀ row, s.disk.Holds row → Backed s.blobs row

/-- The rows a pass has read and not put into its sealed file yet. -/
def State.inHand (s : State P Q) (q : Q) : List RunLedgerRecord :=
  match s.pass q with
  | .reading _ rows | .relisting rows | .resealing rows _ | .writing rows _ _ => rows
  | .replacing existing _ => (s.tmp (Disk.nextIndex existing)).getD []
  | _ => []

/-- The rows put into a file since `q` began its reference scan. -/
def State.recent (s : State P Q) (q : Q) : List RunLedgerRecord :=
  s.entered.drop (s.scanStart q)

/-- A pass unlinks a blob only when no run holds it without having written its row, and no row
that names it is with a pass or was put into a file since the scan began. -/
def SparesBlobs (s : State P Q) : Event P Q → Prop
  | .pass q =>
    match s.pass q with
    | .unlinking blob _ _ => (∀ p, blob.1 ∉ (s.run p).inFlight) ∧
        (∀ q', ∀ row ∈ s.inHand q', blob.1 ∉ row.fullDigests) ∧
        ∀ row ∈ s.recent q, blob.1 ∉ row.fullDigests
    | _ => True
  | _ => True

instance [Fintype P] [Fintype Q] (s : State P Q) : ∀ e, Decidable (SparesBlobs s e)
  | .pass q => by
    unfold SparesBlobs
    dsimp only
    split <;> infer_instance
  | .run _ _ | .stop _ => .isTrue trivial

/-- How far a scan has got with a row at a path. -/
def Scanned (pc : PassPc) (recent : List RunLedgerRecord) (path : ScanFile)
    (row : RunLedgerRecord) : Prop :=
  match pc with
  | .scanning dirs referenced =>
    path.dir ∈ dirs ∨ row ∈ recent ∨ ∀ x ∈ row.fullDigests, x ∈ referenced
  | .scanReading todo dirs referenced =>
    (path ∈ todo ∨ path.dir ∈ dirs) ∨ row ∈ recent ∨ ∀ x ∈ row.fullDigests, x ∈ referenced
  | .listingBlobs referenced | .deleting _ referenced | .stating _ _ referenced
  | .refinding _ _ referenced | .unlinking _ _ referenced =>
    row ∈ recent ∨ ∀ x ∈ row.fullDigests, x ∈ referenced
  | _ => True

/-- The directories a scan has before it are the last ones of the list. -/
def Ordered : PassPc → Prop
  | .scanning dirs _ => dirs <:+ [.sealed, .segments, .archive]
  | .scanReading todo dirs _ =>
    ∃ dir, dir :: dirs <:+ [.sealed, .segments, .archive] ∧ ∀ path ∈ todo, path.dir = dir
  | _ => True

/-- A digest about to be deleted is not referenced. -/
def Unreferenced : PassPc → Prop
  | .stating blob _ referenced | .unlinking blob _ referenced => blob.1 ∉ referenced
  | .refinding sha256 _ referenced => sha256 ∉ referenced
  | _ => True

/-- The invariant: everything that is or may become readable is backed, and the scan
of a pass accounts for every row that was not put in place since it began. -/
structure Covered (s : State P Q) : Prop where
  named : s.disk.Named
  readable : ∀ path row, Readable s.disk path row → Backed s.blobs row
  inFlight : ∀ p, ∀ d ∈ (s.run p).inFlight, Stored s.blobs d
  inHand : ∀ q, ∀ row ∈ s.inHand q, Backed s.blobs row
  ordered : ∀ q, Ordered (s.pass q)
  scanStart_le : ∀ q, (s.pass q).collecting → s.scanStart q ≤ s.entered.length
  scanned : ∀ q path row, Readable s.disk path row → Scanned (s.pass q) (s.recent q) path row
  unreferenced : ∀ q, Unreferenced (s.pass q)

theorem Covered.complete {s : State P Q} (h : Covered s) : Complete s := by
  intro row hrow
  obtain ⟨path, hread⟩ := (holds_iff_readable h.named).mp hrow
  exact h.readable path row hread

variable {s : State P Q} {pc : PassPc} {recent recent' : List RunLedgerRecord}

theorem scanned_of_not_collecting (h : pc.collecting = false) : Scanned pc recent path row := by
  cases pc with
  | scanning | scanReading | listingBlobs | deleting | stating | refinding | unlinking => cases h
  | _ => trivial

theorem scanned_of_recent (h : row ∈ recent) : Scanned pc recent path row := by
  cases pc with
  | scanning | scanReading => exact .inr (.inl h)
  | listingBlobs | deleting | stating | refinding | unlinking => exact .inl h
  | _ => trivial

theorem scanned_mono (hrecent : ∀ r ∈ recent, r ∈ recent') (h : Scanned pc recent path row) :
    Scanned pc recent' path row := by
  cases pc with
  | scanning | scanReading => exact h.imp_right (Or.imp_left (hrecent row))
  | listingBlobs | deleting | stating | refinding | unlinking => exact h.imp_left (hrecent row)
  | _ => trivial

/-- Of a suffix of the scan's list, either `archive/` is still to come or it is over. -/
theorem archive_mem_of_suffix {dirs : List Scan}
    (h : dirs <:+ [.sealed, .segments, .archive]) : dirs = [] ∨ Scan.archive ∈ dirs := by
  obtain ⟨front, hfront⟩ := h
  rcases eq_nil_or_concat dirs with hnil | ⟨dirs, last, rfl⟩
  · exact .inl hnil
  · have hlast : last = .archive := by
      have := congrArg getLast? hfront
      simpa [← append_assoc] using this
    exact .inr (by simp [hlast])

theorem scanned_archived {src : Source} (hordered : Ordered pc)
    (h : Scanned pc recent (.live src) row) : Scanned pc recent (.archived src) row := by
  have hlive : (ScanFile.live src).dir ≠ .archive := by cases src <;> simp [ScanFile.dir]
  cases pc with
  | scanning dirs referenced =>
    rcases archive_mem_of_suffix hordered with rfl | harchive
    · exact .inr (h.resolve_left (not_mem_nil))
    · exact .inl harchive
  | scanReading todo dirs referenced =>
    obtain ⟨dir, hsuffix, htodo⟩ := hordered
    rcases archive_mem_of_suffix hsuffix with hnil | harchive
    · cases hnil
    · rcases mem_cons.mp harchive with rfl | harchive
      · -- `archive/` is being read: no live path is still to be
        have hdirs : dirs = [] := by
          rcases archive_mem_of_suffix ((suffix_cons _ _).trans hsuffix) with h | h
          · exact h
          · have hnodup : (Scan.archive :: dirs).Nodup :=
              List.Nodup.sublist hsuffix.sublist (by decide)
            exact absurd h (nodup_cons.mp hnodup).1
        subst hdirs
        refine .inr (h.resolve_left ?_)
        rintro (hmem | hmem)
        · exact hlive (htodo _ hmem)
        · cases hmem
      · exact .inl (.inr harchive)
  | listingBlobs | deleting | stating | refinding | unlinking => exact h
  | _ => trivial

/-! ## What a step changes -/

theorem covered_enter (h : Covered s) {tmp : Nat → Option (List RunLedgerRecord)}
    {log new : List RunLedgerRecord} (hd' : d'.Named)
    (hread : ∀ path row, Readable d' path row →
      Readable s.disk path row ∨ (∃ src, path = .archived src ∧ Readable s.disk (.live src) row) ∨
        row ∈ new)
    (hnew : ∀ row ∈ new, Backed s.blobs row)
    (htmp : ∀ n kept, tmp n = some kept → s.tmp n = some kept ∨ ∀ row ∈ kept, Backed s.blobs row) :
    Covered { s with disk := d', tmp := tmp, log := log, entered := s.entered ++ new } where
  named := hd'
  readable path row hrow := by
    rcases hread path row hrow with hold | ⟨src, -, hold⟩ | hmem
    · exact h.readable path row hold
    · exact h.readable _ row hold
    · exact hnew row hmem
  inFlight := h.inFlight
  inHand q row hrow := by
    have hold := h.inHand q row
    cases hpc : s.pass q with
    | replacing existing segments =>
      simp only [State.inHand, hpc] at hrow hold
      cases hkept : tmp (nextIndex existing) with
      | none => simp [hkept] at hrow
      | some kept =>
        have hmem : row ∈ kept := by simpa [hkept] using hrow
        rcases htmp _ _ hkept with hsame | hbacked
        · exact hold (by simpa [hsame] using hmem)
        · exact hbacked row hmem
    | _ =>
      simp only [State.inHand, hpc] at hrow hold
      exact hold hrow
  ordered := h.ordered
  scanStart_le q hq := by
    have := h.scanStart_le q hq
    simp only [length_append]
    omega
  scanned q path row hrow := by
    by_cases hq : (s.pass q).collecting
    · have hrecent : ({ s with disk := d', tmp := tmp, log := log, entered := s.entered ++ new } :
          State P Q).recent q = s.recent q ++ new :=
        drop_append_of_le_length (h.scanStart_le q hq)
      rw [hrecent]
      have hmono : ∀ r ∈ s.recent q, r ∈ s.recent q ++ new := fun r => mem_append_left _
      rcases hread path row hrow with hold | ⟨src, rfl, hold⟩ | hmem
      · exact scanned_mono hmono (h.scanned q path row hold)
      · exact scanned_mono hmono (scanned_archived (h.ordered q) (h.scanned q _ row hold))
      · exact scanned_of_recent (mem_append_right _ hmem)
    · exact scanned_of_not_collecting (by simpa using hq)
  unreferenced := h.unreferenced

section
variable [DecidableEq P]

theorem covered_gotoRun (h : Covered s) {p : P} {c : RunPc} {blobs : List Blob}
    {lock : Nat → Option P} (hblobs : ∀ d, Stored s.blobs d → Stored blobs d)
    (hc : ∀ d ∈ c.inFlight, Stored blobs d) :
    Covered (({ s with blobs := blobs, lock := lock } : State P Q).gotoRun p c) where
  named := h.named
  readable path row hrow := backed_mono hblobs (h.readable path row hrow)
  inFlight q d hd := by
    by_cases hqp : q = p
    · subst hqp
      rw [gotoRun_self] at hd
      exact hc d hd
    · rw [gotoRun_ne _ c hqp] at hd
      exact hblobs d (h.inFlight q d hd)
  inHand q row hrow := backed_mono hblobs (h.inHand q row hrow)
  ordered := h.ordered
  scanStart_le := h.scanStart_le
  scanned := h.scanned
  unreferenced := h.unreferenced

theorem covered_runStep {lineBytes : RunLedgerRecord → Nat} {t : State P Q} {p : P} {act : RunAct}
    (h : Covered s) (ht : runStep lineBytes s p act = some t) : Covered t := by
  have hheld : ∀ {c : RunPc}, s.run p = c → ∀ d ∈ c.inFlight, Stored s.blobs d :=
    fun hpc d hd => h.inFlight p d (by rwa [hpc])
  cases runStep_cases ht with
  | found held sha256 hpc hfound =>
    refine covered_gotoRun h (fun _ => id) fun d hd => ?_
    rcases mem_cons.mp hd with rfl | hd
    · exact stored_of_findBlob hfound
    · exact hheld hpc d hd
  | stored held sha256 suffix hpc =>
    refine covered_gotoRun h (fun d => stored_store suffix) fun d hd => ?_
    rcases mem_cons.mp hd with rfl | hd
    · exact ⟨suffix, mem_cons_self ..⟩
    · exact stored_store suffix (hheld hpc d hd)
  | missing held sha256 hpc | storeFailed held sha256 hpc | locked row i hpc =>
    exact covered_gotoRun h (fun _ => id) fun d hd => hheld hpc d hd
  | chosen held row hpc hfull =>
    exact covered_gotoRun h (fun _ => id) fun d hd => hheld hpc d (hfull d hd)
  | opened row n hpc =>
    have hopened : Covered { s with disk := (s.disk.openAppend n).2, entered := s.entered ++ [] } :=
      covered_enter h (named_openAppend h.named n)
        (fun _ _ hr => .inl (readable_openAppend h.named n hr)) (fun _ hr => by cases hr)
        (fun _ _ => .inl)
    rw [append_nil] at hopened
    exact covered_gotoRun hopened (fun _ => id) fun d hd => hheld hpc d hd
  | wrote row i hpc =>
    refine covered_gotoRun (covered_enter h (named_append h.named i row) (fun _ r hr => ?_)
      (fun r hr => ?_) (fun _ _ => .inl)) (fun _ => id) fun d hd => by cases hd
    · exact (readable_append hr).imp_right fun hrow => .inr (mem_singleton.mpr hrow)
    · obtain rfl := mem_singleton.mp hr
      exact hheld hpc
  | unlocked row i hpc => exact covered_gotoRun h (fun _ => id) fun d hd => by cases hd
  | crashed => exact covered_gotoRun h (fun _ => id) fun d hd => by cases hd

end

section
variable [DecidableEq Q]

theorem inHand_gotoPass_ne {q q' : Q} (c : PassPc) (hq : q' ≠ q) :
    (s.gotoPass q c).inHand q' = s.inHand q' := by
  simp only [State.inHand, gotoPass_ne s c hq]
  rfl

theorem covered_gotoPass (h : Covered s) {q : Q} {c : PassPc}
    (hhand : ∀ row ∈ (s.gotoPass q c).inHand q, Backed s.blobs row) (hordered : Ordered c)
    (hle : c.collecting → s.scanStart q ≤ s.entered.length)
    (hscanned : ∀ path row, Readable s.disk path row → Scanned c (s.recent q) path row)
    (hunref : Unreferenced c) : Covered (s.gotoPass q c) where
  named := h.named
  readable := h.readable
  inFlight := h.inFlight
  inHand q' row hrow := by
    by_cases hq : q' = q
    · subst hq
      exact hhand row hrow
    · rw [inHand_gotoPass_ne c hq] at hrow
      exact h.inHand q' row hrow
  ordered q' := by
    by_cases hq : q' = q
    · subst hq
      rwa [gotoPass_self]
    · rw [gotoPass_ne s c hq]
      exact h.ordered q'
  scanStart_le q' hcol := by
    by_cases hq : q' = q
    · subst hq
      rw [gotoPass_self] at hcol
      exact hle hcol
    · rw [gotoPass_ne s c hq] at hcol
      exact h.scanStart_le q' hcol
  scanned q' := by
    by_cases hq : q' = q
    · subst hq
      rw [gotoPass_self]
      exact hscanned
    · rw [gotoPass_ne s c hq]
      exact h.scanned q'
  unreferenced q' := by
    by_cases hq : q' = q
    · subst hq
      rwa [gotoPass_self]
    · rw [gotoPass_ne s c hq]
      exact h.unreferenced q'

theorem covered_goto (h : Covered s) {q : Q} {c : PassPc} (hc : c.collecting = false)
    (hhand : ∀ row ∈ (s.gotoPass q c).inHand q, Backed s.blobs row) : Covered (s.gotoPass q c) := by
  refine covered_gotoPass h hhand ?_ (fun hcol => ?_) (fun _ _ _ => scanned_of_not_collecting hc) ?_
  · cases c with
    | scanning | scanReading => cases hc
    | _ => trivial
  · rw [hc] at hcol
    cases hcol
  · cases c with
    | stating | unlinking | refinding => cases hc
    | _ => trivial

theorem covered_collect (h : Covered s) {q : Q} {c : PassPc} (hpc : (s.pass q).collecting)
    (hc : c.collecting) (hordered : Ordered c)
    (hscanned : ∀ path row, Readable s.disk path row → Scanned c (s.recent q) path row)
    (hunref : Unreferenced c) : Covered (s.gotoPass q c) := by
  refine covered_gotoPass h (fun row hrow => ?_) hordered (fun _ => h.scanStart_le q hpc) hscanned
    hunref
  simp only [State.inHand, gotoPass_self] at hrow
  cases c with
  | reading | relisting | resealing | writing | replacing => cases hc
  | _ => cases hrow

theorem covered_end (h : Covered s) {q : Q} {c : PassPc} (hc : c = .done ∨ c = .raised) :
    Covered (s.gotoPass q c) := by
  refine covered_goto h (by rcases hc with rfl | rfl <;> rfl) fun row hrow => ?_
  rw [State.inHand, gotoPass_self] at hrow
  rcases hc with rfl | rfl <;> cases hrow

theorem covered_scan (h : Covered s) {q : Q} (hpc : (s.pass q).collecting = false) :
    Covered (({ s with scanStart := Function.update s.scanStart q s.entered.length } :
      State P Q).gotoPass q (.scanning [.sealed, .segments, .archive] [])) := by
  have hstart : Covered
      { s with scanStart := Function.update s.scanStart q s.entered.length } := by
    refine
      { named := h.named
        readable := h.readable
        inFlight := h.inFlight
        inHand := h.inHand
        ordered := h.ordered
        scanStart_le := fun q' hcol => ?_
        scanned := fun q' path row hrow => ?_
        unreferenced := h.unreferenced }
    all_goals
      have hq : q' ≠ q ∨ (s.pass q').collecting = false := by
        by_cases hq : q' = q
        · exact .inr (hq ▸ hpc)
        · exact .inl hq
    · rcases hq with hq | hq
      · simpa only [Function.update_of_ne hq] using h.scanStart_le q' hcol
      · rw [hq] at hcol
        cases hcol
    · rcases hq with hq | hq
      · simpa only [State.recent, Function.update_of_ne hq] using h.scanned q' path row hrow
      · exact scanned_of_not_collecting hq
  refine covered_gotoPass hstart (fun row hrow => ?_) suffix_rfl (fun _ => ?_)
    (fun path row _ => .inl ?_) trivial
  · simp only [State.inHand, gotoPass_self] at hrow
    cases hrow
  · simp
  · cases path.dir <;> decide

omit [DecidableEq Q] in
theorem covered_unlink (h : Covered s) {q : Q} {blob : Blob} {todo referenced : List String}
    (hpc : s.pass q = .unlinking blob todo referenced)
    (hspare : SparesBlobs s (.pass q)) :
    Covered { s with blobs := s.blobs.filter (· ≠ blob) } := by
  obtain ⟨hruns, hhands, hrecent⟩ := by simpa only [SparesBlobs, hpc] using hspare
  have hunref : blob.1 ∉ referenced := by simpa only [Unreferenced, hpc] using h.unreferenced q
  refine
    { named := h.named
      readable := fun path row hrow => ?_
      inFlight := fun p d hd => ?_
      inHand := fun q' row hrow => backed_unlink (hhands q' row hrow) (h.inHand q' row hrow)
      ordered := h.ordered
      scanStart_le := h.scanStart_le
      scanned := h.scanned
      unreferenced := h.unreferenced }
  · refine backed_unlink ?_ (h.readable path row hrow)
    have hscan := h.scanned q path row hrow
    rw [hpc] at hscan
    rcases hscan with hnew | hreferenced
    · exact hrecent row hnew
    · exact fun hmem => hunref (hreferenced _ hmem)
  · refine stored_unlink ?_ (h.inFlight p d hd)
    rintro rfl
    exact hruns p hd

theorem covered_passStep {args : CompactArgs} {t : State P Q} {q : Q} (h : Covered s)
    (hspare : SparesBlobs s (.pass q)) (ht : passStep args s q = some t) : Covered t := by
  -- what the pass has in its hands, and how far its scan has got
  have hheld := h.inHand q
  have hscan := h.scanned q
  have hordered := h.ordered q
  have hunref := h.unreferenced q
  cases hpc : s.pass q with
  | ready =>
    by_cases hdue : args.due s.disk
    · obtain rfl := by simpa [passStep, hpc, hdue] using ht
      exact covered_goto h rfl fun row hrow => by simp [State.inHand] at hrow
    · obtain rfl := by simpa [passStep, hpc, hdue] using ht
      exact covered_end h (.inl rfl)
  | listing sealed =>
    obtain rfl := by simpa [passStep, hpc] using ht
    exact covered_goto h rfl fun row hrow => by simp [State.inHand] at hrow
  | reading todo rows =>
    simp only [State.inHand, hpc] at hheld
    cases todo with
    | nil =>
      obtain rfl := by simpa [passStep, hpc] using ht
      refine covered_goto h rfl fun row hrow => hheld row ?_
      simpa [State.inHand] using hrow
    | cons src todo =>
      cases hi : s.disk.ino? src with
      | none =>
        obtain rfl := by simpa [passStep, hpc, hi] using ht
        exact covered_end h (.inr rfl)
      | some i =>
        obtain rfl := by simpa [passStep, hpc, hi] using ht
        refine covered_goto h rfl fun row hrow => ?_
        simp only [State.inHand, gotoPass_self] at hrow
        rcases mem_append.mp hrow with hold | hline
        · exact hheld row hold
        · exact h.readable (.live src) row ⟨i, hi, hline⟩
  | relisting rows =>
    simp only [State.inHand, hpc] at hheld
    by_cases hdry : args.dryRun
    · obtain rfl := by simpa [passStep, hpc, hdry] using ht
      exact covered_end h (.inl rfl)
    · obtain rfl := by simpa [passStep, hpc, hdry] using ht
      refine covered_goto h rfl fun row hrow => hheld row ?_
      simp only [State.inHand, gotoPass_self] at hrow
      exact LastWins.mem_of_lastFor (LastWins.mem_keepLast.mp hrow)
  | resealing kept segments =>
    simp only [State.inHand, hpc] at hheld
    obtain rfl := by simpa [passStep, hpc] using ht
    refine covered_goto h rfl fun row hrow => hheld row ?_
    simpa [State.inHand] using hrow
  | writing kept existing segments =>
    simp only [State.inHand, hpc] at hheld
    obtain rfl := by simpa [passStep, hpc] using ht
    have hwritten : Covered { s with
        tmp := Function.update s.tmp (nextIndex existing) (some kept)
        entered := s.entered ++ [] } := by
      refine covered_enter h h.named (fun _ _ => .inl) (fun _ hr => by cases hr) fun n kept' hn => ?_
      by_cases hne : n = nextIndex existing
      · subst hne
        obtain rfl : kept = kept' := by simpa using hn
        exact .inr hheld
      · exact .inl (by simpa [hne] using hn)
    rw [append_nil] at hwritten
    refine covered_goto hwritten rfl fun row hrow => hheld row ?_
    simpa [State.inHand, State.gotoPass] using hrow
  | replacing existing segments =>
    simp only [State.inHand, hpc] at hheld
    cases hkept : s.tmp (nextIndex existing) with
    | none =>
      obtain rfl := by simpa [passStep, hpc, hkept] using ht
      exact covered_end h (.inr rfl)
    | some kept =>
      obtain rfl := by simpa [passStep, hpc, hkept] using ht
      simp only [hkept, getD_some] at hheld
      refine covered_goto (covered_enter h (named_writeSealed h.named _ kept)
        (fun path row hr => ?_) hheld fun n kept' hn => ?_) rfl fun row hrow => ?_
      · exact (readable_writeSealed h.named hr).imp_right .inr
      · by_cases hne : n = nextIndex existing
        · subst hne
          simp at hn
        · exact .inl (by simpa [hne] using hn)
      · simp [State.inHand] at hrow
  | moving todo =>
    cases todo with
    | nil =>
      by_cases hgc : args.gcBlobs
      · obtain rfl := by simpa [passStep, hpc, hgc] using ht
        exact covered_scan h (by rw [hpc]; rfl)
      · obtain rfl := by simpa [passStep, hpc, hgc] using ht
        exact covered_end h (.inl rfl)
    | cons src todo =>
      cases hmove : s.disk.move src with
      | none =>
        obtain rfl := by simpa [passStep, hpc, hmove] using ht
        exact covered_end h (.inr rfl)
      | some d =>
        obtain rfl := by simpa [passStep, hpc, hmove] using ht
        have hmoved : Covered { s with disk := d, entered := s.entered ++ [] } :=
          covered_enter h (named_move h.named hmove)
            (fun path row hr => (readable_move h.named hmove hr).imp_right
              fun hsrc => .inl ⟨src, hsrc⟩) (fun _ hr => by cases hr) (fun _ _ => .inl)
        rw [append_nil] at hmoved
        exact covered_goto hmoved rfl fun row hrow => by simp [State.inHand] at hrow
  | scanning dirs referenced =>
    rw [hpc] at hscan hordered
    cases dirs with
    | nil =>
      obtain rfl := by simpa [passStep, hpc] using ht
      refine covered_collect h (by rw [hpc]; rfl) rfl trivial (fun path row hr => ?_) trivial
      exact (hscan path row hr).resolve_left not_mem_nil
    | cons dir dirs =>
      obtain rfl := by simpa [passStep, hpc] using ht
      refine covered_collect h (by rw [hpc]; rfl) rfl
        ⟨dir, hordered, fun path hpath => dir_of_mem_scanFiles hpath⟩ (fun path row hr => ?_) trivial
      refine (hscan path row hr).imp_left fun hdir => ?_
      rcases mem_cons.mp hdir with hlisted | hlater
      · obtain ⟨i, hi, -⟩ := hr
        exact .inl (hlisted ▸ mem_scanFiles hi)
      · exact .inr hlater
  | scanReading todo dirs referenced =>
    rw [hpc] at hscan hordered
    obtain ⟨dir, hsuffix, htodo⟩ := hordered
    cases todo with
    | nil =>
      obtain rfl := by simpa [passStep, hpc] using ht
      refine covered_collect h (by rw [hpc]; rfl) rfl ((suffix_cons _ _).trans hsuffix)
        (fun path row hr => ?_) trivial
      exact (hscan path row hr).imp_left fun hleft => hleft.resolve_left not_mem_nil
    | cons file todo =>
      cases hi : scanIno? s.disk file with
      | none =>
        obtain rfl := by simpa [passStep, hpc, hi] using ht
        exact covered_end h (.inr rfl)
      | some i =>
        obtain rfl := by simpa [passStep, hpc, hi] using ht
        refine covered_collect h (by rw [hpc]; rfl) rfl
          ⟨dir, hsuffix, fun path hpath => htodo path (mem_cons_of_mem _ hpath)⟩
          (fun path row hr => ?_) trivial
        rcases hscan path row hr with (hmem | hlater) | hnew | hreferenced
        · rcases mem_cons.mp hmem with rfl | hmem
          · -- the file is read now: the digests of its rows become referenced
            obtain ⟨j, hj, hline⟩ := hr
            obtain rfl : i = j := some.inj (hi.symm.trans hj)
            refine .inr (.inr fun x hx => mem_append_right _ ?_)
            exact mem_flatMap.mpr ⟨row, hline, row.fullDigests_subset x hx⟩
          · exact .inl (.inl hmem)
        · exact .inl (.inr hlater)
        · exact .inr (.inl hnew)
        · exact .inr (.inr fun x hx => mem_append_left _ (hreferenced x hx))
  | listingBlobs referenced =>
    rw [hpc] at hscan
    obtain rfl := by simpa [passStep, hpc] using ht
    exact covered_collect h (by rw [hpc]; rfl) rfl trivial hscan trivial
  | deleting todo referenced =>
    rw [hpc] at hscan
    have hcol : (s.pass q).collecting := by rw [hpc]; rfl
    cases todo with
    | nil =>
      obtain rfl := by simpa [passStep, hpc] using ht
      exact covered_end h (.inl rfl)
    | cons sha256 todo =>
      by_cases href : sha256 ∈ referenced
      · obtain rfl := by simpa [passStep, hpc, href] using ht
        exact covered_collect h hcol rfl trivial hscan trivial
      · by_cases hlen : sha256.length = 64
        · cases hfind : findBlob s.blobs sha256 with
          | none =>
            obtain rfl := by simpa [passStep, hpc, href, hlen, hfind] using ht
            exact covered_collect h hcol rfl trivial hscan href
          | some blob =>
            obtain rfl := by simpa [passStep, hpc, href, hlen, hfind] using ht
            refine covered_collect h hcol rfl trivial hscan ?_
            rwa [Unreferenced, (findBlob_eq_some hfind).1]
        · obtain rfl := by simpa [passStep, hpc, href, hlen] using ht
          exact covered_end h (.inr rfl)
  | stating blob todo referenced =>
    rw [hpc] at hscan hunref
    by_cases hmem : blob ∈ s.blobs
    · obtain rfl := by simpa [passStep, hpc, hmem] using ht
      exact covered_collect h (by rw [hpc]; rfl) rfl trivial hscan hunref
    · obtain rfl := by simpa [passStep, hpc, hmem] using ht
      exact covered_end h (.inr rfl)
  | refinding sha256 todo referenced =>
    rw [hpc] at hscan hunref
    cases hfind : findBlob s.blobs sha256 with
    | none =>
      obtain rfl := by simpa [passStep, hpc, hfind] using ht
      exact covered_collect h (by rw [hpc]; rfl) rfl trivial hscan trivial
    | some blob =>
      obtain rfl := by simpa [passStep, hpc, hfind] using ht
      refine covered_collect h (by rw [hpc]; rfl) rfl trivial hscan ?_
      rwa [Unreferenced, (findBlob_eq_some hfind).1]
  | unlinking blob todo referenced =>
    rw [hpc] at hscan
    by_cases hmem : blob ∈ s.blobs
    · obtain rfl := by simpa only [passStep, hpc, if_pos hmem, some.injEq] using ht
      exact covered_collect (c := .deleting todo referenced) (covered_unlink h hpc hspare)
        (by rw [hpc]; rfl) rfl trivial hscan trivial
    · obtain rfl := by simpa [passStep, hpc, hmem] using ht
      exact covered_end h (.inr rfl)
  | done | raised => simp [passStep, hpc] at ht

end

/-! ## Runs -/

section
variable [DecidableEq P] [DecidableEq Q] {lineBytes : RunLedgerRecord → Nat} {args : Q → CompactArgs}

/-- Runs and passes on a ledger root whose rows are backed. -/
def backedMachine (lineBytes : RunLedgerRecord → Nat) (args : Q → CompactArgs) :
    Machine (State P Q) (Event P Q) :=
  { machine lineBytes args with init := fun s => Initial s ∧ Complete s }

theorem covered_step {t : State P Q} {e : Event P Q} (h : Covered s) (hspare : SparesBlobs s e)
    (ht : (backedMachine lineBytes args).step s e = some t) : Covered t := by
  cases e with
  | run p act => exact covered_runStep h ht
  | pass q => exact covered_passStep h hspare ht
  | stop q =>
    by_cases hpc : (s.pass q).underWay
    · obtain rfl := by simpa [backedMachine, machine, hpc] using ht
      exact covered_end h (.inr rfl)
    · simp [backedMachine, machine, hpc] at ht

omit [DecidableEq P] [DecidableEq Q] in
theorem covered_initial (h : Initial s) (hcomplete : Complete s) : Covered s where
  named := h.wf.toNamed
  readable path row hr := hcomplete row ((holds_iff_readable h.wf.toNamed).mpr ⟨path, hr⟩)
  inFlight p d hd := by
    rw [h.run] at hd
    cases hd
  inHand q row hrow := by
    simp only [State.inHand, h.pass] at hrow
    cases hrow
  ordered q := by
    rw [h.pass]
    trivial
  scanStart_le q hcol := by
    rw [h.pass] at hcol
    cases hcol
  scanned q path row _ := by
    rw [h.pass]
    trivial
  unreferenced q := by
    rw [h.pass]
    trivial

/-- **Blob collection is safe.**  In a run whose unlinks all spare what runs and
passes hold and what was put in place since the scan began, every artifact a row
says is stored in full is in the store, at every moment. -/
theorem blob_present {s : State P Q} (hr : (backedMachine lineBytes args).Reaches SparesBlobs s)
    (row : RunLedgerRecord) (hrow : s.disk.Holds row) (ref : IRRef) (href : ref ∈ row.ir)
    (hfull : ref.mode = .full) : Stored s.blobs ref.sha256 := by
  have h : Covered s := hr.invariant (I := Covered)
    (fun _ (h : Initial _ ∧ Complete _) => covered_initial h.1 h.2) fun _ _ _ => covered_step
  refine h.complete row hrow ref.sha256 ?_
  exact List.mem_map_of_mem (List.mem_filter.mpr ⟨href, by simpa using hfull⟩)

end

/-- An artifact with the digest `cc…c`, stored in full. -/
def captured (c : Char) : IRRef where
  kind := "jaxpr"
  sha256 := String.ofList (List.replicate 64 c)
  bytes := 1
  sha256_length := fun _ => by simp

theorem start_backed {P Q : Type} [DecidableEq P] [DecidableEq Q]
    (lineBytes : RunLedgerRecord → Nat) (args : Q → CompactArgs) :
    (backedMachine (P := P) lineBytes args).init (start P Q) := by
  refine ⟨start_initial P Q, ?_⟩
  rintro row ⟨i, hi, -⟩
  simp [start, empty, files] at hi

/-- `compact_ledger(force=True)`. -/
def collecting : Unit → CompactArgs := fun _ => { force := true }

/-- The artifact of a run that closed stays, that of a run that died goes. -/
theorem blob_present_after_collection :
    ∃ s : State (Fin 2) Unit, (backedMachine (fun _ => 500) collecting).Reaches SparesBlobs s ∧
      s.blobs.length = 1 ∧ Stored s.blobs (captured 'a').sha256 := by
  have hr : ∃ s, (backedMachine (fun _ => 500) collecting).run (start (Fin 2) Unit)
      ([.run 0 (.put (captured 'a').sha256), .run 0 (.store .gz),
        .run 1 (.put (captured 'b').sha256), .run 1 (.store .gz), .run 1 .crash] ++
        closing 0 { runId := "a", kind := "train", ir := [captured 'a'] } ++
        List.replicate 25 (.pass ())) = some s ∧ s.blobs.length = 1 ∧
      s.disk.Holds { runId := "a", kind := "train", ir := [captured 'a'] } :=
    ⟨_, rfl, by decide, by decide⟩
  obtain ⟨s, hrun, hlength, hrow⟩ := hr
  have hreach := Machine.reaches_of_allowed (G := SparesBlobs)
    (start_backed (fun _ => 500) collecting) (by decide) hrun
  exact ⟨s, hreach, hlength, blob_present hreach _ hrow (captured 'a')
    (List.mem_singleton_self _) rfl⟩

/-- The run has stored its blob when the pass scans and deletes; it closes its row
afterwards. -/
theorem blob_deleted :
    ∃ s : State (Fin 2) Unit, (backedMachine (fun _ => 500) collecting).Reachable s ∧
      s.disk.Holds { runId := "a", kind := "train", ir := [captured 'a'] } ∧
      (captured 'a').mode = .full ∧ ¬ Stored s.blobs (captured 'a').sha256 := by
  have hr : ∃ s, (backedMachine (fun _ => 500) collecting).run (start (Fin 2) Unit)
      ([.run 0 (.put (captured 'a').sha256), .run 0 (.store .gz)] ++ List.replicate 22 (.pass ()) ++
        closing 0 { runId := "a", kind := "train", ir := [captured 'a'] }) = some s ∧
      s.disk.Holds { runId := "a", kind := "train", ir := [captured 'a'] } ∧ s.blobs = [] :=
    ⟨_, rfl, by decide, rfl⟩
  obtain ⟨s, hrun, hrow, hblobs⟩ := hr
  refine ⟨s, Machine.reachable_of_run (start_backed _ _) hrun, hrow, rfl, ?_⟩
  rintro ⟨suffix, hmem⟩
  rw [hblobs] at hmem
  cases hmem

end Xtrax.Ledger
