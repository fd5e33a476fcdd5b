import Xtrax.LedgerDisk

/-! # `find_run` across a compaction pass

A pass replaces the rows of a ledger by the last row of each `(run_id, kind)`, in
first-seen order, and then takes the files it read away, one after the other.  A
reader that comes in between sees the new sealed file somewhere in the listing of
the files still to be moved (`Moving`), and those are a suffix of what there was.

So what `find_run` returns at a stop is the run's last row or the row `_dedup` put
last (`find_run_preserved_iff`).
-/
namespace Xtrax.Ledger

open List

open LastWins

/-- The kind of the run's last row is the one of its kinds that appeared last. -/
def LastKindSeenLast (rows : List RunLedgerRecord) (runId : String) : Prop :=
  let kinds := (rows.filter fun row => row.runId = runId).map RunLedgerRecord.kind
  (firstSeen kinds).getLast? = kinds.getLast?

instance (rows : List RunLedgerRecord) (runId : String) : Decidable (LastKindSeenLast rows runId) :=
  inferInstanceAs (Decidable (_ = _))

/-- `find_run(run_id)` gives the same row at every stop of a pass, and after a pass
that returned, as before it. -/
def KeepsLookup (args : CompactArgs) (d : Disk) (runId : String) : Prop :=
  (∀ d' ∈ compactStops args d, d'.findRun runId = d.findRun runId) ∧
    ∀ d', compactLedger args d = some d' → d'.findRun runId = d.findRun runId

theorem lastFor_dedup_iff (rows : List RunLedgerRecord) (runId : String) :
    lastFor RunLedgerRecord.runId runId (dedup rows) = lastFor RunLedgerRecord.runId runId rows ↔
      LastKindSeenLast rows runId := by
  have hkeys : (rows.filter fun row => row.runId = runId).map RunLedgerRecord.key =
      ((rows.filter fun row => row.runId = runId).map RunLedgerRecord.kind).map
        fun kind => (runId, kind) := by
    rw [map_map]
    refine map_congr_left fun row hrow => ?_
    have : row.runId = runId := by simpa using (mem_filter.mp hrow).2
    simp [RunLedgerRecord.key, this]
  have hinj : Function.Injective fun kind : String => (runId, kind) := fun a b h => by simpa using h
  have hiff : lastFor RunLedgerRecord.runId runId (dedup rows) =
        lastFor RunLedgerRecord.runId runId rows ↔
      (firstSeen ((rows.filter fun row => row.runId = runId).map RunLedgerRecord.key)).getLast? =
        ((rows.filter fun row => row.runId = runId).map RunLedgerRecord.key).getLast? :=
    lastFor_group_keepLast_iff RunLedgerRecord.key Prod.fst runId rows
  rw [hiff, hkeys, firstSeen_map hinj, getLast?_map, getLast?_map]
  exact (Option.map_injective hinj).eq_iff

namespace Disk
variable {d d' : Disk} {front back : Dir}

/-- In the middle of the moves of a pass over `d` the new sealed file stands between `front` and
`back`, and what is left of the files that were read is a suffix of them. -/
structure Moving (d d' : Disk) (front back : Dir) : Prop where
  sealed_eq : d'.sealed = front ++ (nextIndex d.sealed.names, d.next) :: back
  sealed_nodup : d'.sealed.names.Nodup
  segments_nodup : d'.segments.names.Nodup
  lines_eq : d'.lines = Function.update d.lines d.next (dedup d.iterRows)
  old : ∀ e ∈ front ++ back ++ d'.segments, e.2 ≠ d.next
  suffix : d.rows (front ++ back) ++ d.rows d'.segments <:+ d.iterRows

theorem Moving.iterRows_eq (h : Moving d d' front back) :
    d'.iterRows = d.rows front ++ dedup d.iterRows ++ (d.rows back ++ d.rows d'.segments) := by
  have hold : ∀ dir : Dir, (∀ e ∈ dir, e ∈ front ++ back ++ d'.segments) →
      d'.rows dir = d.rows dir := fun dir hdir => rows_congr fun e he => by
    rw [h.lines_eq, Function.update_of_ne (h.old e (hdir e he))]
  have hnew : d'.lines d.next = dedup d.iterRows := by rw [h.lines_eq, Function.update_self]
  rw [iterRows, h.sealed_eq, rows_append, rows_cons, hnew, hold front (by simp +contextual),
    hold back (by simp +contextual), hold d'.segments (by simp +contextual)]
  simp only [append_assoc]

theorem moving_replaced (h : d.WF) : ∃ front back, Moving d d.replaced front back ∧
    moves d.sealed.names d.segments.names =
      moves (front ++ back).names d.replaced.segments.names := by
  obtain ⟨front, back, hd, hset⟩ := Dir.set_split (i := d.next) h.nextIndex_notMem
  refine ⟨front, back, ?_, by rw [← hd]; rfl⟩
  refine
    { sealed_eq := hset
      sealed_nodup := Dir.nodup_set h.sealed_nodup
      segments_nodup := h.segments_nodup
      lines_eq := rfl
      old := fun e he => ?_
      suffix := by rw [← hd]; exact suffix_rfl }
  rw [← hd] at he
  rcases mem_append.mp he with he | he
  · exact Nat.ne_of_lt (h.sealed_lt e he)
  · exact Nat.ne_of_lt (h.segments_lt e he)

theorem Moving.remove_sealed (h : Moving d d' front back) {n ino : Nat} {front₁ back₁ : Dir}
    (hremove : d'.sealed.remove n = front₁ ++ (nextIndex d.sealed.names, d.next) :: back₁)
    (hold : front₁ ++ back₁ ++ d'.segments ⊆ front ++ back ++ d'.segments)
    (hsuffix : d.rows (front₁ ++ back₁) ++ d.rows d'.segments <:+ d.iterRows) :
    Moving d ((d'.unlink (.sealed n)).putArchive (.sealed n) ino) front₁ back₁ where
  sealed_eq := hremove
  sealed_nodup := Dir.nodup_remove h.sealed_nodup
  segments_nodup := h.segments_nodup
  lines_eq := h.lines_eq
  old e he := h.old e (hold he)
  suffix := hsuffix

theorem Moving.move (h : Moving d d' front back) {s : Source} {rest : List Source}
    (htodo : moves (front ++ back).names d'.segments.names = s :: rest) :
    ∃ d₁ front₁ back₁, d'.move s = some d₁ ∧ Moving d d₁ front₁ back₁ ∧
      rest = moves (front₁ ++ back₁).names d₁.segments.names := by
  have hnd := h.sealed_nodup
  rw [h.sealed_eq] at hnd
  cases front with
  | cons e front =>
    obtain ⟨rfl, rfl⟩ : Source.sealed e.1 = s ∧ _ = rest := by simpa [moves, Dir.names] using htodo
    have hino : d'.sealed.ino? e.1 = some e.2 :=
      Dir.ino?_of_mem h.sealed_nodup (by rw [h.sealed_eq]; simp)
    have hremove : d'.sealed.remove e.1 = front ++ (nextIndex d.sealed.names, d.next) :: back := by
      rw [h.sealed_eq]
      exact Dir.remove_append_cons [] _ hnd
    refine ⟨_, front, back, by rw [Disk.move, ino?, hino]; rfl, ?_, by simp [moves, Dir.names,
      putArchive, unlink]⟩
    exact h.remove_sealed hremove (fun e' he' => mem_cons_of_mem _ he')
      ((suffix_append (d.lines e.2) _).trans (by simpa [append_assoc] using h.suffix))
  | nil =>
    cases back with
    | cons e back =>
      obtain ⟨rfl, rfl⟩ : Source.sealed e.1 = s ∧ _ = rest := by
        simpa [moves, Dir.names] using htodo
      have hino : d'.sealed.ino? e.1 = some e.2 :=
        Dir.ino?_of_mem h.sealed_nodup (by rw [h.sealed_eq]; simp)
      have hremove : d'.sealed.remove e.1 = (nextIndex d.sealed.names, d.next) :: back := by
        rw [h.sealed_eq]
        exact Dir.remove_append_cons [(nextIndex d.sealed.names, d.next)] _ hnd
      refine ⟨_, [], back, by rw [Disk.move, ino?, hino]; rfl, ?_, by simp [moves, Dir.names,
        putArchive, unlink]⟩
      exact h.remove_sealed hremove (fun e' he' => mem_cons_of_mem _ he')
        ((suffix_append (d.lines e.2) _).trans (by simpa [append_assoc] using h.suffix))
    | nil =>
      cases hsegs : d'.segments with
      | nil => simp [moves, Dir.names, hsegs] at htodo
      | cons e segs =>
        obtain ⟨rfl, rfl⟩ : Source.segment e.1 = s ∧ _ = rest := by
          simpa [moves, Dir.names, hsegs] using htodo
        have hino : d'.segments.ino? e.1 = some e.2 :=
          Dir.ino?_of_mem h.segments_nodup (by rw [hsegs]; simp)
        have hremove : d'.segments.remove e.1 = segs := by
          have hnd := h.segments_nodup
          rw [hsegs] at hnd ⊢
          exact Dir.remove_append_cons [] _ hnd
        have hsegments : ((d'.unlink (.segment e.1)).putArchive (.segment e.1) e.2).segments =
            segs := hremove
        refine ⟨_, [], [], by rw [Disk.move, ino?, hino]; rfl, ?_, by rw [hsegments]; simp [moves,
          Dir.names]⟩
        refine
          { sealed_eq := h.sealed_eq
            sealed_nodup := h.sealed_nodup
            segments_nodup := Dir.nodup_remove h.segments_nodup
            lines_eq := h.lines_eq
            old := fun e' he' => h.old e' ?_
            suffix := (suffix_append (d.lines e.2) _).trans ?_ }
        · rw [hsegments] at he'
          rw [hsegs]
          exact mem_cons_of_mem _ he'
        · rw [hsegments]
          simpa [hsegs] using h.suffix

theorem Moving.stops (h : Moving d d' front back) {todo : List Source}
    (htodo : moves (front ++ back).names d'.segments.names = todo) :
    ∀ d'' ∈ d'.moveStops todo, ∃ front' back', Moving d d'' front' back' := by
  induction todo generalizing d' front back with
  | nil =>
    intro d'' hd''
    obtain rfl := mem_singleton.mp hd''
    exact ⟨front, back, h⟩
  | cons s rest ih =>
    obtain ⟨d₁, front₁, back₁, hmove, h₁, hrest⟩ := h.move htodo
    intro d'' hd''
    simp only [moveStops, hmove, Option.map_some, Option.getD_some, mem_cons] at hd''
    rcases hd'' with rfl | hd''
    · exact ⟨front, back, h⟩
    · exact ih h₁ hrest.symm d'' hd''

theorem Moving.moveAll (h : Moving d d' front back) {todo : List Source}
    (htodo : moves (front ++ back).names d'.segments.names = todo) :
    ∃ d'', d'.moveAll todo = some d'' ∧ d'' ∈ d'.moveStops todo ∧
      d''.iterRows = dedup d.iterRows := by
  induction todo generalizing d' front back with
  | nil =>
    obtain ⟨hfront, hback, hsegs⟩ : front = [] ∧ back = [] ∧ d'.segments = [] := by
      simpa [moves, Dir.names] using htodo
    refine ⟨d', rfl, mem_singleton_self d', ?_⟩
    rw [h.iterRows_eq, hfront, hback, hsegs]
    simp
  | cons s rest ih =>
    obtain ⟨d₁, front₁, back₁, hmove, h₁, hrest⟩ := h.move htodo
    obtain ⟨d'', hall, hstop, hrows⟩ := ih h₁ hrest.symm
    refine ⟨d'', ?_, ?_, hrows⟩
    · simpa [Disk.moveAll, foldlM_cons, hmove] using hall
    · simp [moveStops, hmove, hstop]

end Disk

/-- **Compaction keeps the lookup of a run** at every stop and after its end if and
only if it returns early, or the kind of the run's last row is the one of its kinds
that appeared last. -/
theorem find_run_preserved_iff (args : CompactArgs) (d : Disk) (hd : d.WF) (runId : String) :
    KeepsLookup args d runId ↔ (args.rewrites d → LastKindSeenLast d.iterRows runId) := by
  by_cases hrw : args.rewrites d
  · obtain ⟨front, back, hmoving, htodo⟩ := Disk.moving_replaced hd
    obtain ⟨last, hlast, hstop, hrows⟩ := hmoving.moveAll htodo.symm
    simp only [KeepsLookup, compactStops, compactLedger, hrw, if_true, true_implies,
      Disk.findRun_eq]
    rw [← lastFor_dedup_iff]
    constructor
    · rintro ⟨-, hend⟩
      have := hend last hlast
      rwa [hrows] at this
    · intro hkeep
      have hall : ∀ d' ∈ d.replaced.moveStops (Disk.moves d.sealed.names d.segments.names),
          lastFor RunLedgerRecord.runId runId d'.iterRows =
            lastFor RunLedgerRecord.runId runId d.iterRows := by
        intro d' hd'
        obtain ⟨front', back', h'⟩ := hmoving.stops htodo.symm d' hd'
        rw [h'.iterRows_eq]
        refine lastFor_insert_short ?_ hkeep
        rw [← List.append_assoc, ← Disk.rows_append]
        exact h'.suffix
      refine ⟨fun d' hd' => ?_, fun d' hd' => ?_⟩
      · rcases List.mem_cons.mp hd' with rfl | hd'
        · rfl
        · exact hall d' hd'
      · rw [hlast] at hd'
        obtain rfl := Option.some.inj hd'
        exact hall last hstop
  · simp [KeepsLookup, compactStops, compactLedger, hrw]

/-- One segment with these rows. -/
def oneSegment (rows : List RunLedgerRecord) : Disk where
  sealed := []
  segments := [(1, 0)]
  archive := []
  lines := fun _ => rows
  next := 1

theorem oneSegment_wf (rows : List RunLedgerRecord) : (oneSegment rows).WF := by
  constructor
  · constructor <;> simp [oneSegment, Dir.names, Disk.files]
  · simp [oneSegment, Dir.names]

/-- A run that trained and was evaluated keeps its evaluation row. -/
theorem find_run_preserved_train_eval :
    KeepsLookup { force := true }
      (oneSegment [{ runId := "r", kind := "train" }, { runId := "r", kind := "eval" }]) "r" :=
  (find_run_preserved_iff _ _ (oneSegment_wf _) _).mpr (by decide)

/-- A run that trained, was evaluated and was resumed: its last row is the second
training row, and after a pass `find_run` returns the evaluation row. -/
theorem find_run_not_preserved : ∃ d : Disk, d.WF ∧ ¬ KeepsLookup { force := true } d "r" := by
  refine ⟨oneSegment [{ runId := "r", kind := "train", provenance := "first" },
    { runId := "r", kind := "eval" }, { runId := "r", kind := "train", provenance := "resumed" }],
    oneSegment_wf _, fun h => ?_⟩
  exact absurd (h.2 _ rfl) (by decide)

end Xtrax.Ledger
