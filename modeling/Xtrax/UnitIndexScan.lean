import Xtrax.UnitIndexFrames

/-! # Reading the index while it changes

`_scan` lists `segments/`, `sealed/` and `rebuilt/`, reads file after file, and lists
`sealed/` again.  It starts over when a file has vanished or a sealed file has appeared.
Between any two of its steps writers, passes and rebuilds do what they like.

A row that was there before is either in a segment that is still in place when the scan ends,
and then the scan has listed and read it, or in a sealed file, and then that file was listed,
or it is new and the scan starts over (`Tracks`).
-/
namespace Xtrax.UnitIndex

open Function List Option Covering Interleaving

/-- A file that a scan lists.  The files of `rebuilt/` are numbered. -/
inductive ListedFile
  | segment (writerId : String)
  | sealed (name : Nat)
  | rebuilt (k : Nat)
  deriving DecidableEq, Repr

/-- `_read_bytes`; `none` stands for `FileNotFoundError`. -/
def Disk.read (d : Disk) : ListedFile → Option Bytes
  | .segment writerId => (d.segments.lookup writerId).map fun i => (d.inode i).data
  | .sealed name => (d.sealed.lookup name).map fun i => (d.inode i).data
  | .rebuilt k => d.rebuilt.reverse[k]?

inductive ScanPc
  | idle
  | listingSegments (attempt : Nat)
  | listingSealed (attempt : Nat) (segments : List String)
  | listingRebuilt (attempt : Nat) (segments : List String) (sealed : List Nat)
  | reading (attempt : Nat) (sealedBefore : List Nat) (todo : List ListedFile)
      (parsed : List (ListedFile × Parsed))
  | relisting (attempt : Nat) (sealedBefore : List Nat) (parsed : List (ListedFile × Parsed))
  | returned (parsed : List (ListedFile × Parsed))
  /-- `UnitIndexError`, or another exception of a listing or a read. -/
  | raised

def maxRescans : Nat := 9

def retry (attempt : Nat) : ScanPc :=
  if attempt + 1 < maxRescans then .listingSegments (attempt + 1) else .raised

/-- The index, a scan of it, and the rows whose append had returned when it began. -/
structure ScanState (Q : Type) where
  sys : State Q
  before : List IndexRow
  scan : ScanPc

inductive ScanEvent (Q : Type)
  | sys (e : Event Q)
  | begin
  | scan
  | fails

section
variable (O : Outside)

def scanStep (d : Disk) : ScanPc → Option ScanPc
  | .listingSegments attempt => some (.listingSealed attempt d.listSegments)
  | .listingSealed attempt segments => some (.listingRebuilt attempt segments d.listSealed)
  | .listingRebuilt attempt segments sealed =>
    let rebuilt := List.range d.rebuilt.length
    some (.reading attempt sealed
      (segments.map .segment ++ sealed.map .sealed ++ rebuilt.map .rebuilt) [])
  | .reading attempt sealedBefore [] parsed => some (.relisting attempt sealedBefore parsed)
  | .reading attempt sealedBefore (f :: todo) parsed =>
    match d.read f with
    | none => some (retry attempt)
    | some data => some (.reading attempt sealedBefore todo (parsed ++ [(f, parse O data)]))
  | .relisting attempt sealedBefore parsed =>
    if d.listSealed ⊆ sealedBefore then some (.returned parsed) else some (retry attempt)
  | .idle | .returned _ | .raised => none

variable {Q : Type} [DecidableEq Q]

/-- A scan among the writers, the passes and the rebuilds of an index. -/
def scanMachine (args : Q → CompactArgs) : Machine (ScanState Q) (ScanEvent Q) where
  init s := Initial args s.sys ∧ s.before = [] ∧ s.scan = .idle
  step s
    | .sys e => ((machine O args).step s.sys e).map fun sys => { s with sys := sys }
    | .begin =>
      match s.scan with
      | .idle => some { s with before := s.sys.returned, scan := .listingSegments 0 }
      | _ => none
    | .scan => (scanStep O s.sys.disk s.scan).map fun pc => { s with scan := pc }
    | .fails => some { s with scan := .raised }

/-- No writer id is used again while a pass relies on the segment of that name. -/
def ScanNotReopened (s : ScanState Q) : ScanEvent Q → Prop
  | .sys e => NotReopened s.sys e
  | _ => True

instance [Fintype Q] (s : ScanState Q) : DecidablePred (ScanNotReopened s)
  | .sys _ => inferInstanceAs (Decidable (NotReopened ..))
  | .begin | .scan | .fails => .isTrue trivial

end

/-! ## Where a row is -/

section
variable {O : Outside} {held held' : Held} {d d' : Disk} {r : IndexRow} {p p' : String → Prop}
  {parsed : List (ListedFile × Parsed)} {sealedBefore : List Nat}

/-- A sealed file has held the row's place, or the row is in a segment that `p` says. -/
def Located (O : Outside) (held : Held) (d : Disk) (r : IndexRow) (p : String → Prop) : Prop :=
  (∃ n, r.place ∈ held n) ∨
    ∃ id i text, d.segments.lookup id = some i ∧ O.rowText r = some text ∧
      Written (d.inode i).data text ∧ p id

theorem Located.mono (h : Located O held d r p)
    (hp : ∀ id i text, d.segments.lookup id = some i → O.rowText r = some text →
      Written (d.inode i).data text → p id → p' id) : Located O held d r p' := by
  rcases h with hheld | ⟨id, i, text, hi, htext, hwritten, hid⟩
  · exact .inl hheld
  · exact .inr ⟨id, i, text, hi, htext, hwritten, hp id i text hi htext hwritten hid⟩

theorem Located.later (h : Located O held d r p) (hsafe : Safe O held d)
    (hgrows : ∀ n, held n ⊆ held' n) (hframed : Framed O held' d d') :
    Located O held' d' r p := by
  rcases h with ⟨n, hn⟩ | ⟨id, i, text, hi, htext, hwritten, hid⟩
  · exact .inl ⟨n, hgrows n hn⟩
  · rcases hframed.segments id i hi with hi' | hcovered
    · obtain ⟨chunk, hchunk⟩ := hframed.grows i (hsafe.allocated id i hi)
      exact .inr ⟨id, i, text, hi', htext, by rw [hchunk]; exact hwritten.append chunk, hid⟩
    · exact .inl (hcovered r.place (hwritten.holds htext))

/-- A listed segment is still to be read, or it was read with the row in it. -/
def SegmentRead (r : IndexRow) (todo : List ListedFile) (parsed : List (ListedFile × Parsed))
    (id : String) : Prop :=
  .segment id ∈ todo ∨ ∃ x, (ListedFile.segment id, x) ∈ parsed ∧ (r.accepted = true → r ∈ x.rows)

/-- Listed sealed files are still to be read, or were read as they are. -/
def SealedRead (O : Outside) (d : Disk) (sealedBefore : List Nat) (todo : List ListedFile)
    (parsed : List (ListedFile × Parsed)) : Prop :=
  ∀ m ∈ sealedBefore, .sealed m ∈ todo ∨
    ∃ x, (ListedFile.sealed m, x) ∈ parsed ∧ Placed d m ∧
      ∀ i, d.sealed.lookup m = some i → x = parse O (d.inode i).data

theorem SealedRead.later {todo : List ListedFile} (h : SealedRead O d sealedBefore todo parsed)
    (hsafe : Safe O held d) (hlater : Later O held held' d d') (hframed : Framed O held' d d') :
    SealedRead O d' sealedBefore todo parsed := by
  intro m hm
  rcases h m hm with htodo | ⟨x, hx, hplaced, hcontent⟩
  · exact .inl htodo
  · refine .inr ⟨x, hx, (hlater.placed m hplaced).1, fun i hi => ?_⟩
    have hold := hframed.sealed m i hplaced hi
    rw [(hlater.still i (hsafe.sealed m i hold).2.1).2]
    exact hcontent i hold

/-- The result has a row of the place of every row that readers accept. -/
def Complete (before : List IndexRow) (parsed : List (ListedFile × Parsed)) : Prop :=
  ∀ r ∈ before, r.accepted = true → ∃ e ∈ parsed, ∃ r' ∈ e.2.rows, r'.place = r.place

/-- What holds of a scan wherever it is. -/
def Tracks (O : Outside) (held : Held) (d : Disk) (before : List IndexRow) : ScanPc → Prop
  | .idle | .raised => True
  | .listingSegments _ => ∀ r ∈ before, Located O held d r fun _ => True
  | .listingSealed _ segments | .listingRebuilt _ segments _ =>
    ∀ r ∈ before, Located O held d r (· ∈ segments)
  | .reading _ sealedBefore todo parsed =>
    (∀ r ∈ before, Located O held d r (SegmentRead r todo parsed)) ∧
      SealedRead O d sealedBefore todo parsed
  | .relisting _ sealedBefore parsed =>
    (∀ r ∈ before, Located O held d r (SegmentRead r [] parsed)) ∧
      SealedRead O d sealedBefore [] parsed
  | .returned parsed => Complete before parsed

variable {before : List IndexRow} {pc pc' : ScanPc}

theorem Tracks.later (h : Tracks O held d before pc) (hsafe : Safe O held d)
    (hlater : Later O held held' d d') (hframed : Framed O held' d d') :
    Tracks O held' d' before pc := by
  cases pc with
  | idle | raised | returned parsed => exact h
  | listingSegments attempt | listingSealed attempt segments
  | listingRebuilt attempt segments sealed =>
    exact fun r hr => (h r hr).later hsafe hlater.grows hframed
  | reading attempt sealedBefore todo parsed | relisting attempt sealedBefore parsed =>
    exact ⟨fun r hr => (h.1 r hr).later hsafe hlater.grows hframed, h.2.later hsafe hlater hframed⟩

theorem tracks_retry {q : IndexRow → String → Prop}
    (h : ∀ r ∈ before, Located O held d r (q r)) (attempt : Nat) :
    Tracks O held d before (retry attempt) := by
  unfold retry
  split
  · exact fun r hr => (h r hr).mono fun _ _ _ _ _ _ _ => trivial
  · trivial

theorem mem_listSegments {id : String} {i : Nat} (h : d.segments.lookup id = some i) :
    id ∈ d.listSegments :=
  (mem_insertionSort _).mpr (AList.lookup_isSome.mp (by rw [h]; rfl))

theorem mem_listSealed {n : Nat} : n ∈ d.listSealed ↔ n ∈ d.sealed := mem_insertionSort _

theorem tracks_read {f : ListedFile} {todo : List ListedFile} {data : Bytes} (hsafe : Safe O held d)
    (hlocated : ∀ r ∈ before, Located O held d r (SegmentRead r (f :: todo) parsed))
    (hsealed : SealedRead O d sealedBefore (f :: todo) parsed) (hdata : d.read f = some data)
    (attempt : Nat) :
    Tracks O held d before
      (.reading attempt sealedBefore todo (parsed ++ [(f, parse O data)])) := by
  refine ⟨fun r hr => (hlocated r hr).mono fun id i text hi htext hwritten hid => ?_, fun m hm => ?_⟩
  · rcases hid with hid | ⟨x, hx, hrow⟩
    · rcases mem_cons.mp hid with rfl | hid
      · -- the segment of the row
        have hread : (d.inode i).data = data := by simpa [Disk.read, hi] using hdata
        refine .inr ⟨parse O data, mem_append_right _ (mem_singleton_self _), ?_⟩
        intro hacc
        rw [← hread]
        exact hwritten.mem_rows htext hacc
      · exact .inl hid
    · exact .inr ⟨x, mem_append_left _ hx, hrow⟩
  · rcases hsealed m hm with htodo | ⟨x, hx, hplaced, hcontent⟩
    · rcases mem_cons.mp htodo with rfl | htodo
      · obtain ⟨i, hi, hread⟩ := map_eq_some_iff.mp hdata
        refine .inr ⟨parse O data, mem_append_right _ (mem_singleton_self _),
          (hsafe.sealed m i hi).1, fun j hj => ?_⟩
        rw [hi] at hj
        obtain rfl := some.inj hj
        rw [hread]
      · exact .inl htodo
    · exact .inr ⟨x, mem_append_left _ hx, hplaced, hcontent⟩

/-- **Nothing new in `sealed/`**: the scan is complete. -/
theorem complete_of_relisted (hsafe : Safe O held d) (haccepted : SealedRows O Accepted d)
    (hlocated : ∀ r ∈ before, Located O held d r (SegmentRead r [] parsed))
    (hsealed : SealedRead O d sealedBefore [] parsed) (hlist : d.listSealed ⊆ sealedBefore) :
    Complete before parsed := by
  intro r hr hacc
  rcases hlocated r hr with ⟨n, hn⟩ | ⟨id, i, text, hi, htext, hwritten, hid⟩
  · -- a sealed file that is there covers the place
    obtain ⟨m, hm, -, hplace⟩ := hsafe.covered n r.place hn
    obtain ⟨i, hi⟩ := isSome_iff_exists.mp (AList.lookup_isSome.mpr hm)
    have hholds : Holds O (d.inode i).data r.place := (hsafe.sealed m i hi).2.2 hplace
    obtain ⟨r', hr', hsame⟩ := (haccepted m i hi).place (fun _ h => h) hholds
    rcases hsealed m (hlist (mem_listSealed.mpr hm)) with htodo | ⟨x, hx, -, hcontent⟩
    · exact (not_mem_nil htodo).elim
    · refine ⟨_, hx, r', ?_, hsame⟩
      rwa [hcontent i hi]
  · rcases hid with htodo | ⟨x, hx, hrow⟩
    · exact (not_mem_nil htodo).elim
    · exact ⟨_, hx, r, hrow hacc, rfl⟩

theorem tracks_scanStep (h : Tracks O held d before pc) (hsafe : Safe O held d)
    (haccepted : SealedRows O Accepted d) (ht : scanStep O d pc = some pc') :
    Tracks O held d before pc' := by
  cases pc with
  | idle | returned | raised => cases ht
  | listingSegments attempt =>
    obtain rfl := some.inj ht
    exact fun r hr => (h r hr).mono fun id i _ hi _ _ _ => mem_listSegments hi
  | listingSealed attempt segments =>
    obtain rfl := some.inj ht
    exact h
  | listingRebuilt attempt segments sealed =>
    obtain rfl := some.inj ht
    refine ⟨fun r hr => (h r hr).mono fun id i _ _ _ _ hid => .inl ?_, fun m hm => .inl ?_⟩
    · exact mem_append_left _ (mem_append_left _ (mem_map_of_mem hid))
    · exact mem_append_left _ (mem_append_right _ (mem_map_of_mem hm))
  | reading attempt sealedBefore todo parsed =>
    obtain ⟨hlocated, hsealed⟩ := h
    cases todo with
    | nil =>
      obtain rfl := some.inj ht
      exact ⟨hlocated, hsealed⟩
    | cons f todo =>
      rw [scanStep] at ht
      split at ht
      · obtain rfl := some.inj ht
        exact tracks_retry hlocated attempt
      · rename_i data hdata
        obtain rfl := some.inj ht
        exact tracks_read hsafe hlocated hsealed hdata attempt
  | relisting attempt sealedBefore parsed =>
    obtain ⟨hlocated, hsealed⟩ := h
    rw [scanStep] at ht
    split at ht
    · rename_i hlist
      obtain rfl := some.inj ht
      exact complete_of_relisted hsafe haccepted hlocated hsealed hlist
    · obtain rfl := some.inj ht
      exact tracks_retry hlocated attempt

end

/-! ## Runs -/

section
variable {O : Outside} {Q : Type} [DecidableEq Q] {passArgs : Q → CompactArgs} {e : Event Q}

variable (O) in
structure ScanInvariant (held : Held) (s : ScanState Q) : Prop where
  safe : Safe O held s.sys.disk
  knows : ∀ q, Knows O held s.sys.disk (s.sys.pass q)
  returned : Returned O held s.sys.disk s.sys.returned
  accepted : SealedRows O Accepted s.sys.disk
  carries : ∀ q, (s.sys.pass q).Carries O Accepted s.sys.disk
  tracks : Tracks O held s.sys.disk s.before s.scan

theorem scanInvariant_initial {s : ScanState Q} (h : (scanMachine O passArgs).init s) :
    ∃ held, ScanInvariant O held s := by
  obtain ⟨hinit, hbefore, hscan⟩ := h
  obtain ⟨held, hsafe, hknows, hreturned⟩ := invariant_initial (O := O) hinit
  refine ⟨held, hsafe, hknows, hreturned, fun n i hi => ?_, fun q => ?_, ?_⟩
  · rw [hinit.sealed] at hi
    cases hi
  · rw [hinit.pass q]
    trivial
  · rw [hscan]
    trivial

omit [DecidableEq Q] in
theorem sealed_writerStep {d d' : Disk} {w : Writer} {rows : List IndexRow}
    (ht : writerStep O d w e = some (d', rows)) : d'.sealed = d.sealed := by
  unfold writerStep at ht
  dsimp only at ht
  split at ht
  all_goals repeat' split at ht
  all_goals first
    | (obtain ⟨rfl, -⟩ := Prod.mk.inj (some.inj ht)
       rfl)
    | cases ht

theorem sealed_step {s t : State Q} (ht : (machine O passArgs).step s e = some t) :
    (t.disk.sealed = s.disk.sealed ∧ ∀ q, t.pass q = s.pass q ∨ t.pass q = .stopped) ∨
      ∃ q a pc, passStep O (passArgs q) a s.disk (s.pass q) = some (t.disk, pc) ∧
        t.pass = update s.pass q pc ∧ t.returned = s.returned := by
  cases step_cases ht with
  | writer _ _ hstep => exact .inl ⟨sealed_writerStep hstep, fun _ => .inl rfl⟩
  | openSegment | rebuild => exact .inl ⟨rfl, fun _ => .inl rfl⟩
  | @compact q a _ pc hstep => exact .inr ⟨q, a, pc, hstep, rfl, rfl⟩
  | stop q =>
    refine .inl ⟨rfl, fun q' => ?_⟩
    show update s.pass q .stopped q' = _ ∨ update s.pass q .stopped q' = _
    by_cases hq : q' = q
    · rw [hq, update_self]
      exact .inr rfl
    · rw [update_of_ne hq]
      exact .inl rfl

/-- **One event of the others.** -/
theorem ScanInvariant.others {held : Held} {s : ScanState Q} (h : ScanInvariant O held s)
    {sys : State Q} (hg : NotReopened s.sys e) (ht : (machine O passArgs).step s.sys e = some sys) :
    ∃ held', ScanInvariant O held' { s with sys := sys } := by
  obtain ⟨held', hcarried, hknows, hreturned⟩ :=
    step_carried h.safe h.knows h.returned hg ht
  have hlater := hcarried.toLater
  have hframed := framed_step h.knows hlater.grows ht
  have hold : ∀ q, (s.sys.pass q).Carries O Accepted sys.disk := fun q =>
    (h.carries q).later (h.knows q) hlater
  refine ⟨held', hcarried.safe, hknows, hreturned, ?_, ?_, h.tracks.later h.safe hlater hframed⟩
  · show SealedRows O Accepted sys.disk
    rcases sealed_step ht with ⟨hsealed, -⟩ | ⟨q, a, pc, hstep, -⟩
    · exact h.accepted.of_same h.safe hlater fun n i hi => by rwa [← hsealed]
    · exact sealedRows_passStep h.accepted h.safe hlater (h.carries q) hstep
  · intro q
    show (sys.pass q).Carries O Accepted sys.disk
    rcases sealed_step ht with ⟨-, hpass⟩ | ⟨q', a, pc, hstep, hpass, -⟩
    · rcases hpass q with hsame | hstopped
      · rw [hsame]
        exact hold q
      · rw [hstopped]
        trivial
    · rw [hpass]
      by_cases hq : q = q'
      · rw [hq, update_self]
        exact carries_passStep (fun _ _ _ => readRows_accepted _) (h.carries q') hstep
      · rw [update_of_ne hq]
        exact hold q

theorem scanInvariant_step {held : Held} {s t : ScanState Q} (h : ScanInvariant O held s)
    {e : ScanEvent Q} (hg : ScanNotReopened s e)
    (ht : (scanMachine O passArgs).step s e = some t) : ∃ held', ScanInvariant O held' t := by
  cases e with
  | sys e =>
    obtain ⟨sys, hstep, rfl⟩ := map_eq_some_iff.mp ht
    exact h.others hg hstep
  | begin =>
    have ht : (match s.scan with
      | .idle => some { s with before := s.sys.returned, scan := .listingSegments 0 }
      | _ => none) = some t := ht
    split at ht
    · obtain rfl := some.inj ht
      refine ⟨held, { h with tracks := fun r hr => ?_ }⟩
      rcases h.returned r hr with ⟨id, i, text, hi, htext, hwritten⟩ | hheld
      · exact .inr ⟨id, i, text, hi, htext, hwritten, trivial⟩
      · exact .inl hheld
    · cases ht
  | scan =>
    obtain ⟨pc, hstep, rfl⟩ := map_eq_some_iff.mp ht
    exact ⟨held, { h with tracks := tracks_scanStep h.tracks h.safe h.accepted hstep }⟩
  | fails =>
    obtain rfl := some.inj ht
    exact ⟨held, { h with tracks := trivial }⟩

/-- **A scan that returns is complete.**  Whatever writers, passes and rebuilds do meanwhile:
as long as no writer id is used again while a pass relies on the segment of that name, the
result has a row of the place of every accepted row whose append had returned before. -/
theorem scan_complete {s : ScanState Q} {parsed : List (ListedFile × Parsed)}
    (hr : (scanMachine O passArgs).Reaches ScanNotReopened s) (hpc : s.scan = .returned parsed) :
    Complete s.before parsed := by
  have h : ∃ held, ScanInvariant O held s := by
    refine hr.invariant (I := fun s => ∃ held, ScanInvariant O held s)
      (fun _ h => scanInvariant_initial h) ?_
    rintro s e t ⟨held, h⟩ hg ht
    exact scanInvariant_step h hg ht
  obtain ⟨held, h⟩ := h
  have htracks := h.tracks
  rwa [hpc] at htracks

def ScanPc.rows : ScanPc → List IndexRow
  | .returned parsed => parsed.flatMap fun e => e.2.rows
  | _ => []

def ScanPc.isReturned : ScanPc → Bool
  | .returned _ => true
  | _ => false

theorem ScanPc.isReturned_iff {pc : ScanPc} :
    pc.isReturned = true ↔ ∃ parsed, pc = .returned parsed := by
  cases pc with
  | returned parsed => exact ⟨fun _ => ⟨parsed, rfl⟩, fun _ => rfl⟩
  | _ => exact ⟨fun h => (Bool.false_ne_true h).elim, fun ⟨_, h⟩ => by cases h⟩

end

namespace Reopened

def scanStart : ScanState (Fin 2) where
  sys := start
  before := []
  scan := .idle

def others (es : List (Event (Fin 2))) : List (ScanEvent (Fin 2)) := es.map .sys

/-- A scan lists the segments, and the one that is there is archived before it is read. -/
def vanishedEvents : List (ScanEvent (Fin 2)) :=
  others (appendOne 0 first ++ [.close 0, .write 0 17 0, .finish 0]) ++ [.begin, .scan] ++
    others (go 0 26) ++ List.replicate 9 .scan

/-- A scan of an index whose last row has been moved away. -/
def misledEvents : List (ScanEvent (Fin 2)) :=
  others overtakenEvents ++ [.begin] ++ List.replicate 6 .scan

theorem scan_complete_vanished :
    ∃ s parsed, (scanMachine outside passArgs).Reaches ScanNotReopened s ∧
      s.scan = .returned parsed ∧ first ∈ s.before ∧ s.sys.disk.segments.keys = [] ∧
      Complete s.before parsed := by
  have hr : ((scanMachine outside passArgs).run scanStart vanishedEvents).map
      (fun s => (s.scan.isReturned, decide (first ∈ s.before), s.sys.disk.segments.keys)) =
        some (true, true, []) := by
    decide +kernel
  obtain ⟨s, hrun, hs⟩ := Option.map_eq_some_iff.mp hr
  simp only [Prod.mk.injEq] at hs
  obtain ⟨hscan, hbefore, hkeys⟩ := hs
  obtain ⟨parsed, hparsed⟩ := ScanPc.isReturned_iff.mp hscan
  have hreach := Machine.reaches_of_allowed (M := scanMachine outside passArgs)
    (G := ScanNotReopened) ⟨initial_start, rfl, rfl⟩ (by decide +kernel) hrun
  exact ⟨s, parsed, hreach, hparsed, of_decide_eq_true hbefore, hkeys, scan_complete hreach hparsed⟩

/-- **A scan misses a row when a writer id is used again.** -/
theorem scan_misses_row :
    ∃ s parsed, (scanMachine outside passArgs).Reachable s ∧ s.scan = .returned parsed ∧
      ∃ r ∈ s.before, ∀ e ∈ parsed, ∀ r' ∈ e.2.rows, r'.place ≠ r.place := by
  have hr : ((scanMachine outside passArgs).run scanStart misledEvents).map
      (fun s => (s.scan.isReturned, decide (second ∈ s.before),
        decide (∀ r ∈ s.scan.rows, r.place ≠ second.place))) = some (true, true, true) := by
    decide +kernel
  obtain ⟨s, hrun, hs⟩ := Option.map_eq_some_iff.mp hr
  simp only [Prod.mk.injEq] at hs
  obtain ⟨hscan, hbefore, hmissing⟩ := hs
  obtain ⟨parsed, hparsed⟩ := ScanPc.isReturned_iff.mp hscan
  have hinit : (scanMachine outside passArgs).init scanStart := ⟨initial_start, rfl, rfl⟩
  refine ⟨s, parsed, Machine.reachable_of_run hinit hrun, hparsed, second,
    of_decide_eq_true hbefore, fun e he r' hr' => of_decide_eq_true hmissing r' ?_⟩
  rw [hparsed]
  exact List.mem_flatMap.mpr ⟨e, he, hr'⟩

end Reopened

end Xtrax.UnitIndex
