import Xtrax.UnitIndexJson
import Xtrax.UnitIndexLookup

/-! # Lookups and compaction

Any content of an index root, then any number of passes, step after step.  No place that has
a row is lost (`Kept.seen`), and no row comes up that was not there (`Kept.segments`,
`Kept.sealed`).  A pass keeps the last row of a place, and a lookup asks the adapters that the
rows name: its answers stay of the same kind as long as the rows of a place name one adapter.
-/
namespace Xtrax.UnitIndex

open Function AList List Option Covering Interleaving FirstSeen

section
variable (O : Outside) {Q : Type}

/-- Files with any content, no manifests, and nobody at work. -/
structure Content (args : Q → CompactArgs) (s : State Q) : Prop where
  segments : ∀ id i, s.disk.segments.lookup id = some i → i < s.disk.next
  sealed : ∀ n i, s.disk.sealed.lookup n = some i → i < s.disk.next ∧ n < s.disk.names
  manifests : s.disk.manifests = ∅
  partials : s.disk.partials = ∅
  writer : ∀ i, (s.disk.inode i).writer = none
  pass : ∀ q, s.pass q = .start (args q)
  returned : s.returned = []

/-- The writers, passes and rebuilds of an index that has any content. -/
def contentMachine [DecidableEq Q] (args : Q → CompactArgs) : Machine (State Q) (Event Q) where
  init := Content args
  step := step O args

/-- The pass has not begun, or it has ended. -/
def PassPc.Idle (args : CompactArgs) (pc : PassPc) : Prop :=
  pc = .start args ∨ pc = .finished ∨ pc = .stopped

/-- A pass takes a step, or ends early. -/
def Event.ofPass : Event Q → Bool
  | .compact .. | .stop _ => true
  | _ => false

end

/-! ## What sealed files stand for -/

section
variable {O : Outside} {Q : Type} {passArgs : Q → CompactArgs} {held : Held} {s t : State Q}
  {d d' : Disk} {pc pc' : PassPc} {args : CompactArgs} {a : Answer}

variable (O) in
/-- The invariant of a content, with what each sealed file holds in full. -/
structure Stands (held : Held) (s : State Q) : Prop where
  safe : Safe O held s.disk
  knows : ∀ q, Knows O held s.disk (s.pass q)
  returned : Returned O held s.disk s.returned
  full : ∀ n i, s.disk.sealed.lookup n = some i → places O (s.disk.inode i).data ⊆ held n

theorem stands_content (h : Content passArgs s) : ∃ held, Stands O held s := by
  have hpart : ∀ n, Partial.sealed n ∉ s.disk.partials := by
    intro n hn
    rw [h.partials] at hn
    exact notMem_empty _ hn
  have hplaced : ∀ n i, s.disk.sealed.lookup n = some i → Placed s.disk n := fun n i hi =>
    ⟨(h.sealed n i hi).2, hpart n⟩
  refine ⟨fun n => {p | ∃ i, s.disk.sealed.lookup n = some i ∧ p ∈ places O (s.disk.inode i).data},
    ⟨h.segments, fun i w hw => ?_, fun i w hw => ?_, fun n i hi => ?_, fun n p hp => ?_,
      fun n hn => (hpart n hn).elim, fun n p hp => ?_, fun n inputs hn => ?_⟩,
    fun q => ?_, fun r hr => ?_, fun n i hi p hp => ⟨i, hi, hp⟩⟩
  · rw [h.writer i] at hw
    cases hw
  · rw [h.writer i] at hw
    cases hw
  · refine ⟨hplaced n i hi, ⟨(h.sealed n i hi).1, h.writer i⟩, ?_⟩
    rintro p ⟨j, hj, hp⟩
    obtain rfl := some.inj (hi.symm.trans hj)
    exact hp
  · obtain ⟨i, hi, -⟩ := hp
    exact hplaced n i hi
  · obtain ⟨i, hi, hp⟩ := hp
    exact ⟨n, lookup_isSome.mp (by rw [hi]; rfl), le_refl n, i, hi, hp⟩
  · rw [h.manifests] at hn
    cases hn
  · rw [h.pass q, PassPc.start]
    trivial
  · rw [h.returned] at hr
    cases hr

variable [DecidableEq Q] {e : Event Q}

/-- **One event**: what sealed files hold is what they stand for. -/
theorem stands_step (h : Stands O held s) (hg : NotReopened s e)
    (ht : (machine O passArgs).step s e = some t) :
    ∃ held', Later O held held' s.disk t.disk ∧ Stands O held' t := by
  have hsame : (∀ n i, t.disk.sealed.lookup n = some i → s.disk.sealed.lookup n = some i) →
      ∃ held', Later O held held' s.disk t.disk ∧ Stands O held' t := by
    intro hsealed
    obtain ⟨held', hcarried, hknows, hreturned⟩ :=
      step_carried h.safe h.knows h.returned hg ht
    refine ⟨held', hcarried.toLater, hcarried.safe, hknows, hreturned, fun n i hi => ?_⟩
    have hold := hsealed n i hi
    rw [(hcarried.still i (h.safe.sealed n i hold).2.1).2]
    exact (h.full n i hold).trans (hcarried.grows n)
  rcases sealed_step ht with ⟨hsealed, -⟩ | ⟨q, a, pc, hstep, hpass, hreturned⟩
  · exact hsame fun n i hi => by rwa [← hsealed]
  · rcases sealed_passStep hstep with hsealed | ⟨name, ino, inputs, hpc, hpart⟩
    · exact hsame hsealed
    · -- a sealed file comes into place, and its name stands for all that it holds
      have hk := h.knows q
      rw [hpc] at hk hstep
      rw [passStep_replacing hpart] at hstep
      obtain ⟨hdisk, rfl⟩ := Prod.mk.inj (some.inj hstep)
      obtain ⟨hcarried, hknows⟩ := h.safe.carried_replacing hk hpart
      rw [hdisk] at hcarried hknows
      refine ⟨_, hcarried.toLater, hcarried.safe, ?_, ?_, fun n i hi => ?_⟩
      · rw [hpass]
        exact knows_update h.knows hcarried.toLater hknows fun id i hi => by rwa [← hdisk] at hi
      · rw [hreturned]
        exact hcarried.returned _ h.returned
      · rw [← hdisk] at hi ⊢
        by_cases hn : n = name
        · rw [hn, lookup_insert] at hi
          obtain rfl := some.inj hi
          rw [hn, update_self]
        · rw [lookup_insert_ne hn] at hi
          rw [update_of_ne hn]
          exact h.full n i hi

theorem stands_of_reaches (h : (contentMachine O passArgs).Reaches NotReopened s) :
    ∃ held, Stands O held s := by
  refine h.invariant (I := fun s => ∃ held, Stands O held s) (fun _ h => stands_content h) ?_
  rintro s e t ⟨held, h⟩ hg ht
  obtain ⟨held', -, h'⟩ := stands_step h hg ht
  exact ⟨held', h'⟩

/-! ## Passes by themselves -/

omit [DecidableEq Q] in
theorem data_passStep (ht : passStep O args a d pc = some (d', pc')) {i : Nat} (hi : i < d.next) :
    (d'.inode i).data = (d.inode i).data := by
  cases passStep_changes ht with
  | nothing | listed | replaced => rfl
  | silenced pc j => exact data_setWriter d j i none
  | moved w inp dest j hj => cases hp : inp.path <;> rfl
  | wrote batch data hdata =>
    show ((d.alloc _).inode i).data = _
    rw [inode_alloc_of_ne _ (Nat.ne_of_lt hi)]

omit [DecidableEq Q] in
theorem segments_passStep (ht : passStep O args a d pc = some (d', pc')) :
    d'.rebuilt = d.rebuilt ∧
      ∀ id i, d'.segments.lookup id = some i → d.segments.lookup id = some i := by
  cases passStep_changes ht with
  | nothing | listed | silenced | wrote | replaced => exact ⟨rfl, fun id i hi => hi⟩
  | moved w inp dest j hj =>
    cases hp : inp.path with
    | sealed name => exact ⟨rfl, fun id i hi => hi⟩
    | segment writerId =>
      refine ⟨rfl, fun id i hi => ?_⟩
      by_cases hid : id = writerId
      · rw [hid, Disk.moveAway, lookup_erase] at hi
        cases hi
      · rwa [Disk.moveAway, lookup_erase_ne hid] at hi

variable (O) in
/-- A place with a row: a sealed file stands for it, or a file has it. -/
def Seen (held : Held) (d : Disk) (p : Place) : Prop :=
  (∃ n, p ∈ held n) ∨
    (∃ id i, d.segments.lookup id = some i ∧ p ∈ places O (d.inode i).data) ∨
      ∃ data ∈ d.rebuilt, p ∈ places O data

variable (O) in
/-- What passes keep of a content with the rows `P`, the places `S` and the files `rebuilt`. -/
structure Kept (P : IndexRow → Prop) (S : Set Place) (rebuilt : List Bytes) (held : Held)
    (s : State Q) : Prop extends Stands O held s where
  segments : ∀ id i, s.disk.segments.lookup id = some i → AllRows O P (s.disk.inode i).data
  sealed : SealedRows O P s.disk
  carries : ∀ q, (s.pass q).Carries O P s.disk
  seen : ∀ p ∈ S, Seen O held s.disk p
  rebuilt : s.disk.rebuilt = rebuilt

variable {P : IndexRow → Prop} {S : Set Place} {rebuilt : List Bytes}

/-- **One step of a pass.** -/
theorem kept_step (h : Kept O P S rebuilt held s) (he : e.ofPass = true)
    (ht : (machine O passArgs).step s e = some t) : ∃ held', Kept O P S rebuilt held' t := by
  have hg : NotReopened s e := by cases e <;> trivial
  obtain ⟨held', hlater, hstands⟩ := stands_step h.toStands hg ht
  have hframed := framed_step h.knows hlater.grows ht
  cases e with
  | compact q a =>
    obtain ⟨⟨d, pc⟩, hstep, rfl⟩ := map_eq_some_iff.mp ht
    obtain ⟨hrebuilt, hsegments⟩ := segments_passStep hstep
    have hread : Readables O P s.disk := by
      intro p i hi
      cases p with
      | segment id => exact (h.segments id i hi).readRows
      | sealed n => exact (h.sealed n i hi).readRows
    refine ⟨held', hstands, fun id i hi => ?_,
      sealedRows_passStep h.sealed h.safe hlater (h.carries q) hstep, fun q' => ?_,
      fun p hp => ?_, hrebuilt.trans h.rebuilt⟩
    · have hold := hsegments id i hi
      rw [data_passStep hstep (h.safe.allocated id i hold)]
      exact h.segments id i hold
    · show (update s.pass q pc q').Carries O P d
      by_cases hq : q' = q
      · rw [hq, update_self]
        exact carries_passStep hread (h.carries q) hstep
      · rw [update_of_ne hq]
        exact (h.carries q').later (h.knows q') hlater
    · show Seen O held' d p
      rcases h.seen p hp with ⟨n, hn⟩ | ⟨id, i, hi, hplace⟩ | ⟨data, hdata, hplace⟩
      · exact .inl ⟨n, hlater.grows n hn⟩
      · rcases hframed.segments id i hi with hi' | hcovered
        · refine .inr (.inl ⟨id, i, hi', ?_⟩)
          rwa [data_passStep hstep (h.safe.allocated id i hi)]
        · exact .inl (hcovered p hplace)
      · refine .inr (.inr ⟨data, ?_, hplace⟩)
        rwa [hrebuilt]
  | stop q =>
    obtain rfl := some.inj ht
    refine ⟨held', hstands, h.segments, h.sealed, fun q' => ?_, fun p hp => ?_, h.rebuilt⟩
    · show (update s.pass q .stopped q').Carries O P s.disk
      by_cases hq : q' = q
      · rw [hq, update_self]
        trivial
      · rw [update_of_ne hq]
        exact h.carries q'
    · exact (h.seen p hp).imp_left fun ⟨n, hn⟩ => ⟨n, hlater.grows n hn⟩
  | _ => cases he

/-- **A run of passes.** -/
theorem kept_run {es : List (Event Q)} (h : Kept O P S rebuilt held s)
    (hes : ∀ e ∈ es, e.ofPass = true) (hrun : (machine O passArgs).run s es = some t) :
    ∃ held', Kept O P S rebuilt held' t := by
  induction es generalizing s held with
  | nil =>
    obtain rfl := some.inj hrun
    exact ⟨held, h⟩
  | cons e es ih =>
    rw [Machine.run_cons] at hrun
    obtain ⟨u, hu, hrun⟩ := bind_eq_some_iff.mp hrun
    obtain ⟨held', hkept⟩ := kept_step h (hes e mem_cons_self) hu
    exact ih hkept (fun e he => hes e (mem_cons_of_mem _ he)) hrun

/-! ## The rows of an index root -/

omit [DecidableEq Q] in
theorem mem_contents {data : Bytes} : data ∈ d.contents ↔
    (∃ id i, d.segments.lookup id = some i ∧ (d.inode i).data = data) ∨
      (∃ n i, d.sealed.lookup n = some i ∧ (d.inode i).data = data) ∨ data ∈ d.rebuilt := by
  unfold Disk.contents Disk.listed
  rw [List.mem_filterMap]
  constructor
  · rintro ⟨f, hf, hread⟩
    cases f with
    | segment id => exact .inl ⟨id, Option.map_eq_some_iff.mp hread⟩
    | sealed n => exact .inr (.inl ⟨n, Option.map_eq_some_iff.mp hread⟩)
    | rebuilt k => exact .inr (.inr (List.mem_reverse.mp (List.mem_of_getElem? hread)))
  · rintro (⟨id, i, hi, hdata⟩ | ⟨n, i, hi, hdata⟩ | hdata)
    · refine ⟨.segment id, ?_, Option.map_eq_some_iff.mpr ⟨i, hi, hdata⟩⟩
      exact List.mem_append_left _ (List.mem_append_left _
        (List.mem_map_of_mem (mem_listSegments hi)))
    · refine ⟨.sealed n, ?_, Option.map_eq_some_iff.mpr ⟨i, hi, hdata⟩⟩
      exact List.mem_append_left _ (List.mem_append_right _ (List.mem_map_of_mem
        (mem_listSealed.mpr (lookup_isSome.mp (by rw [hi]; rfl)))))
    · obtain ⟨k, hk⟩ := List.mem_iff_getElem?.mp (List.mem_reverse.mpr hdata)
      refine ⟨.rebuilt k, List.mem_append_right _ (List.mem_map_of_mem (List.mem_range.mpr ?_)), hk⟩
      have hlt := (List.getElem?_eq_some_iff.mp hk).1
      rwa [List.length_reverse] at hlt

variable (O) in
/-- The rows that readers take from the files. -/
def Disk.rows (d : Disk) : List IndexRow := fileRows O d.contents

theorem mem_fileRows {files : List Bytes} {r : IndexRow} :
    r ∈ fileRows O files ↔ ∃ data ∈ files, r ∈ (parse O data).rows := mem_flatMap

theorem mem_rows_of_mem {data : Bytes} {r : IndexRow} (hdata : data ∈ d.contents)
    (hr : r ∈ (parse O data).rows) : r ∈ d.rows O := mem_fileRows.mpr ⟨data, hdata, hr⟩

theorem mem_places {data : Bytes} {r : IndexRow} (hr : r ∈ (parse O data).rows) :
    r.place ∈ places O data := by
  obtain ⟨-, l, hl, hrow⟩ := mem_lines_of_mem_rows hr
  exact ⟨l, hl, r, hrow, rfl⟩

variable (O) in
/-- No file has an unreadable line. -/
def Disk.Clean (d : Disk) : Prop := ∀ data ∈ d.contents, (parse O data).unreadable = []

instance (d : Disk) : Decidable (d.Clean O) := inferInstanceAs (Decidable (∀ _ ∈ _, _))

theorem Disk.Clean.allRows {data : Bytes} (h : d.Clean O) (hdata : data ∈ d.contents) :
    AllRows O (fun r => Accepted r ∧ r ∈ d.rows O) data := by
  intro l hl
  have hgood := h data hdata
  refine ⟨fun hother => ?_, fun r hrow => ?_⟩
  · have hread := not_isUnreadable hgood hl
    rw [isUnreadable, hother] at hread
    cases hread
  · have hacc : Accepted r := accepted_of_readable hgood hl hrow
    exact ⟨hacc, mem_rows_of_mem hdata (mem_rows hl hrow hacc)⟩

omit [DecidableEq Q] in
theorem kept_start (h : Stands O held s) (hidle : ∀ q, (s.pass q).Idle (passArgs q))
    (hclean : s.disk.Clean O) :
    Kept O (fun r => Accepted r ∧ r ∈ s.disk.rows O) {p | ∃ r ∈ s.disk.rows O, r.place = p}
      s.disk.rebuilt held s := by
  have hcarries : ∀ (P : IndexRow → Prop) q, (s.pass q).Carries O P s.disk := by
    intro P q
    rcases hidle q with hq | hq | hq
    · rw [hq, PassPc.start]
      trivial
    · rw [hq]
      trivial
    · rw [hq]
      trivial
  refine ⟨h, fun id i hi => hclean.allRows (mem_contents.mpr (.inl ⟨id, i, hi, rfl⟩)),
    fun n i hi => hclean.allRows (mem_contents.mpr (.inr (.inl ⟨n, i, hi, rfl⟩))),
    hcarries _, ?_, rfl⟩
  rintro p ⟨r, hr, rfl⟩
  obtain ⟨data, hdata, hr⟩ := mem_fileRows.mp hr
  rcases mem_contents.mp hdata with ⟨id, i, hi, rfl⟩ | ⟨n, i, hi, rfl⟩ | hdata
  · exact .inr (.inl ⟨id, i, hi, mem_places hr⟩)
  · exact .inl ⟨n, h.full n i hi (mem_places hr)⟩
  · exact .inr (.inr ⟨data, hdata, mem_places hr⟩)

omit [DecidableEq Q] in
theorem Kept.contents (h : Kept O P S rebuilt held t) (hrebuilt : ∀ data ∈ rebuilt, AllRows O P data)
    {data : Bytes} (hdata : data ∈ t.disk.contents) : AllRows O P data := by
  rcases mem_contents.mp hdata with ⟨id, i, hi, rfl⟩ | ⟨n, i, hi, rfl⟩ | hdata
  · exact h.segments id i hi
  · exact h.sealed n i hi
  · exact hrebuilt data (by rwa [← h.rebuilt])

omit [DecidableEq Q] in
theorem Kept.exists_row (h : Kept O P S rebuilt held t)
    (hrebuilt : ∀ data ∈ rebuilt, AllRows O P data) (hP : ∀ r, P r → Accepted r) {p : Place}
    (hp : p ∈ S) : ∃ r ∈ t.disk.rows O, r.place = p := by
  have hfile : ∀ data ∈ t.disk.contents, p ∈ places O data → ∃ r ∈ t.disk.rows O, r.place = p := by
    intro data hdata hplace
    obtain ⟨r, hr, hsame⟩ := (h.contents hrebuilt hdata).place hP hplace
    exact ⟨r, mem_rows_of_mem hdata hr, hsame⟩
  rcases h.seen p hp with ⟨n, hn⟩ | ⟨id, i, hi, hplace⟩ | ⟨data, hdata, hplace⟩
  · obtain ⟨m, hm, -, hheld⟩ := h.safe.covered n p hn
    obtain ⟨i, hi⟩ := isSome_iff_exists.mp (lookup_isSome.mpr hm)
    exact hfile _ (mem_contents.mpr (.inr (.inl ⟨m, i, hi, rfl⟩))) ((h.safe.sealed m i hi).2.2 hheld)
  · exact hfile _ (mem_contents.mpr (.inl ⟨id, i, hi, rfl⟩)) hplace
  · exact hfile data (mem_contents.mpr (.inr (.inr hdata))) hplace

/-- **What passes do to the rows**: none comes up, no place is lost, and none becomes
unreadable. -/
theorem rows_run {es : List (Event Q)} (hs : (contentMachine O passArgs).Reaches NotReopened s)
    (hidle : ∀ q, (s.pass q).Idle (passArgs q)) (hclean : s.disk.Clean O)
    (hes : ∀ e ∈ es, e.ofPass = true) (hrun : (machine O passArgs).run s es = some t) :
    (∀ data ∈ t.disk.contents, AllRows O (fun r => Accepted r ∧ r ∈ s.disk.rows O) data) ∧
      ∀ r ∈ s.disk.rows O, ∃ r' ∈ t.disk.rows O, r'.place = r.place := by
  obtain ⟨held, hstands⟩ := stands_of_reaches hs
  obtain ⟨held', hkept⟩ := kept_run (kept_start hstands hidle hclean) hes hrun
  have hrebuilt : ∀ data ∈ s.disk.rebuilt,
      AllRows O (fun r => Accepted r ∧ r ∈ s.disk.rows O) data := fun data hdata =>
    hclean.allRows (mem_contents.mpr (.inr (.inr hdata)))
  exact ⟨fun data hdata => hkept.contents hrebuilt hdata,
    fun r hr => hkept.exists_row hrebuilt (fun _ h => h.1) ⟨r, hr, rfl⟩⟩

/-! ## Lookups -/

variable {R : Reader} {table : AdapterTable} {store unitKey inputDigest : String}

variable (O R) in
def Disk.lookup (d : Disk) (table : AdapterTable) (store unitKey inputDigest : String) :
    Option LookupResult :=
  UnitIndex.lookup O R table (loadIndex O R d.contents) store unitKey inputDigest

theorem schemaMismatch_eq_nil
    (h : ∀ data ∈ d.contents, AllRows O P data) (hP : ∀ r, P r → Accepted r) :
    (loadIndex O R d.contents).schemaMismatch = [] := by
  refine flatMap_eq_nil_iff.mpr fun data hdata => ?_
  have hnone : (lines data).filter (isUnreadable O) = [] := by
    refine filter_eq_nil_iff.mpr fun l hl hbad => ?_
    obtain ⟨hother, hrow⟩ := h data hdata l hl
    unfold isUnreadable at hbad
    split at hbad
    · rename_i r hr
      have hacc : r.accepted = true := hP r (hrow r hr)
      rw [hacc] at hbad
      cases hbad
    · exact hother ‹_›
    · cases hbad
  rw [hnone]
  rfl

def unitRows (rows : List IndexRow) (st unitKey : String) : List IndexRow :=
  rows.filter fun r => r.store = st ∧ r.unitKey = unitKey

omit [DecidableEq Q] in
theorem mem_unitRows {rows : List IndexRow} {r : IndexRow} {st : String} :
    r ∈ unitRows rows st unitKey ↔ r ∈ rows ∧ r.store = st ∧ r.unitKey = unitKey := by
  rw [unitRows, mem_filter, decide_eq_true_iff]

/-- Files that hold rows of a list only, and a row of every place of the list. -/
structure SamePlaces (O : Outside) (rows : List IndexRow) (files : List Bytes) : Prop where
  mem : ∀ r ∈ fileRows O files, r ∈ rows
  place : ∀ r ∈ rows, ∃ r' ∈ fileRows O files, r'.place = r.place

def RecordsDetermine (rows : List IndexRow) : Prop :=
  ∀ r ∈ rows, ∀ r' ∈ rows, r.recordDigest = r'.recordDigest →
    r.unitKey = r'.unitKey ∧ r.inputDigest = r'.inputDigest ∧ r.contentDigest = r'.contentDigest

/-- The rows of a place name one adapter. -/
def OneAdapter (rows : List IndexRow) : Prop :=
  ∀ r ∈ rows, ∀ r' ∈ rows, r.place = r'.place → r.adapter = r'.adapter

instance (rows : List IndexRow) : Decidable (RecordsDetermine rows) :=
  inferInstanceAs (Decidable (∀ _ ∈ _, _))

instance (rows : List IndexRow) : Decidable (OneAdapter rows) :=
  inferInstanceAs (Decidable (∀ _ ∈ _, _))

variable {rows : List IndexRow} {files : List Bytes} {st : String}

omit [DecidableEq Q] in
theorem SamePlaces.mem_unitRows (h : SamePlaces O rows files) {r : IndexRow}
    (hr : r ∈ (loadIndex O R files).group st unitKey) : r ∈ unitRows rows st unitKey := by
  obtain ⟨hr, hunit⟩ := mem_group.mp hr
  exact UnitIndex.mem_unitRows.mpr ⟨h.mem r (mem_of_mem_firstSeen hr), hunit⟩

omit [DecidableEq Q] in
/-- **The candidates of a unit are there**, whichever rows the files have. -/
theorem SamePlaces.exists_candidate (h : SamePlaces O rows files) (hrecord : RecordsDetermine rows)
    (hadapter : OneAdapter rows) {r : IndexRow} (hr : r ∈ unitRows rows st unitKey) :
    ∃ r' ∈ (loadIndex O R files).group st unitKey, r'.candidate = r.candidate := by
  obtain ⟨hr, hstore, hunit⟩ := UnitIndex.mem_unitRows.mp hr
  obtain ⟨kept, hkept, hplace⟩ := h.place r hr
  have hfirst : kept.readKey ∈ ([] : List (String × String × String)) ∨
      ∃ b ∈ firstSeen IndexRow.readKey [] (fileRows O files), b.readKey = kept.readKey :=
    exists_mem_firstSeen hkept
  obtain ⟨first, hmem, hkey⟩ := hfirst.resolve_left not_mem_nil
  have hfirst : first ∈ rows := h.mem first (mem_of_mem_firstSeen hmem)
  -- the row that readers keep is of the place, and so it names the adapter
  obtain ⟨hkstore, hklocator, hkrecord⟩ : first.store = kept.store ∧
      first.locator = kept.locator ∧ first.recordDigest = kept.recordDigest := by
    simpa only [IndexRow.readKey, Prod.mk.injEq] using hkey
  obtain ⟨hkunit, hkinput, hkcontent⟩ := hrecord first hfirst kept (h.mem kept hkept) hkrecord
  have hsame : first.place = r.place := by
    rw [← hplace, IndexRow.place, IndexRow.place, hkstore, hklocator, hkunit, hkinput, hkcontent]
  have hlocator : first.locator = r.locator := congrArg Place.locator hsame
  refine ⟨first, mem_group.mpr ⟨hmem, ?_, ?_⟩, ?_⟩
  · rw [← hstore]
    exact congrArg Place.store hsame
  · rw [← hunit]
    exact congrArg Place.unitKey hsame
  · rw [IndexRow.candidate, IndexRow.candidate, hadapter first hfirst r hr hsame, hlocator]

omit [DecidableEq Q] in
theorem SamePlaces.kinds_eq (h : SamePlaces O rows files) (hrecord : RecordsDetermine rows)
    (hadapter : OneAdapter rows) :
    kinds (judge R table unitKey inputDigest) ((loadIndex O R files).group st unitKey) =
      kinds (judge R table unitKey inputDigest) (unitRows rows st unitKey) := by
  ext k
  constructor
  · rintro ⟨r, hr, hx⟩
    exact ⟨r, h.mem_unitRows hr, hx⟩
  · rintro ⟨r, hr, x, hx, hk⟩
    obtain ⟨r', hr', hcandidate⟩ := h.exists_candidate (R := R) hrecord hadapter hr
    refine ⟨r', hr', x, ?_, hk⟩
    rwa [judge_congr ?_ hcandidate]
    exact (store_of_mem_group hr').trans (UnitIndex.mem_unitRows.mp hr).2.1.symm

omit [DecidableEq Q] in
theorem SamePlaces.group_eq_nil_iff (h : SamePlaces O rows files) (hrecord : RecordsDetermine rows)
    (hadapter : OneAdapter rows) :
    (loadIndex O R files).group st unitKey = [] ↔ unitRows rows st unitKey = [] := by
  constructor
  · intro hnil
    refine eq_nil_iff_forall_not_mem.mpr fun r hr => ?_
    obtain ⟨r', hr', -⟩ := h.exists_candidate (R := R) hrecord hadapter hr
    rw [hnil] at hr'
    exact not_mem_nil hr'
  · intro hnil
    refine eq_nil_iff_forall_not_mem.mpr fun r hr => ?_
    have hr := h.mem_unitRows hr
    rw [hnil] at hr
    exact not_mem_nil hr

/-- **Lookups survive compaction.**  Take any content of an index root, whatever has happened to
it since, without unreadable lines, and any steps of any passes.  If the rows of a place name
one adapter, then lookups before and after, and at any time between, that give results give
results of the same kind, and they give results when the adapters that the unit's rows name
are there and answer. -/
theorem lookup_kind_run {es : List (Event Q)}
    (hs : (contentMachine O passArgs).Reaches NotReopened s)
    (hidle : ∀ q, (s.pass q).Idle (passArgs q)) (hclean : s.disk.Clean O)
    (hrecord : RecordsDetermine (s.disk.rows O)) (hadapter : OneAdapter (s.disk.rows O))
    (hes : ∀ e ∈ es, e.ofPass = true) (hrun : (machine O passArgs).run s es = some t) :
    (∀ x y, s.disk.lookup O R table store unitKey inputDigest = some x →
      t.disk.lookup O R table store unitKey inputDigest = some y → x.kind = y.kind) ∧
    ∀ st, O.canonicalStore store = some st →
      (∀ r ∈ unitRows (s.disk.rows O) st unitKey, (judge R table unitKey inputDigest r).isSome) →
      (s.disk.lookup O R table store unitKey inputDigest).isSome ∧
        (t.disk.lookup O R table store unitKey inputDigest).isSome := by
  obtain ⟨hrows, hplaces⟩ := rows_run hs hidle hclean hes hrun
  have hbefore : SamePlaces O (s.disk.rows O) s.disk.contents :=
    ⟨fun r hr => hr, fun r hr => ⟨r, hr, rfl⟩⟩
  have hafter : SamePlaces O (s.disk.rows O) t.disk.contents := by
    refine ⟨fun r hr => ?_, hplaces⟩
    obtain ⟨data, hdata, hr⟩ := mem_fileRows.mp hr
    exact ((hrows data hdata).readRows r hr).2
  refine ⟨fun x y hx hy => ?_, fun st hst hall => ⟨?_, ?_⟩⟩
  · cases hst : O.canonicalStore store with
    | none => simp [Disk.lookup, lookup, hst] at hx
    | some st =>
      by_cases hnil : unitRows (s.disk.rows O) st unitKey = []
      · -- no rows, and no line that could tell of some
        have hmissing : ∀ {d : Disk} {z : LookupResult}, SamePlaces O (s.disk.rows O) d.contents →
            (∀ data ∈ d.contents, AllRows O (fun r => Accepted r ∧ r ∈ s.disk.rows O) data) →
            d.lookup O R table store unitKey inputDigest = some z → z = .missing := by
          intro d z hsame hall hz
          rw [Disk.lookup, lookup, hst, Option.bind_some,
            (hsame.group_eq_nil_iff hrecord hadapter).mpr hnil, IndexSnapshot.mismatch,
            schemaMismatch_eq_nil hall fun _ h => h.1] at hz
          exact (Option.some.inj hz).symm
        rw [hmissing hbefore (fun data hdata => hclean.allRows hdata) hx, hmissing hafter hrows hy]
      · have hbest := lookup_kind hst
          (fun h => hnil ((hbefore.group_eq_nil_iff hrecord hadapter).mp h)) hx
        have hbest' := lookup_kind hst
          (fun h => hnil ((hafter.group_eq_nil_iff hrecord hadapter).mp h)) hy
        rw [hbefore.kinds_eq hrecord hadapter] at hbest
        rw [hafter.kinds_eq hrecord hadapter] at hbest'
        exact hbest.unique hbest'
  · exact isSome_lookup hst fun r hr => hall r (hbefore.mem_unitRows hr)
  · exact isSome_lookup hst fun r hr => hall r (hafter.mem_unitRows hr)

end

/-! ## Two adapters at one place -/

namespace TwoAdapters

def writerId : String := "host-1-nojob-0-ab"

def row (adapter recordDigest : String) (ts : Rat) : IndexRow where
  store := "/store"
  locator := "a"
  unitKey := "a"
  inputDigest := "i"
  contentDigest := "c"
  recordDigest := recordDigest
  adapter := adapter
  writerId := writerId
  runId := ""
  ts := ts

def outside : Outside := Json.outside SegmentLines.FailedWrites.interpreter some

def core : CoreRecord where
  unitKey := "a"
  inputDigest := "i"
  contentDigest := "c"
  recordDigest := "r"
  runId := ""

/-- The artifact has a record of one kind and none of the other. -/
def table : AdapterTable
  | "zarr_commit" => some fun store locator _ => some (.reuse store locator core)
  | "unit_json" => some fun _ _ _ => some .missing
  | _ => none

def reader : Reader where
  badKey _ := none
  repr x := x

def passArgs : Unit → CompactArgs := fun _ => { archiveAfter := 0 }

def content (a b : IndexRow) : State Unit where
  disk :=
    { inode := fun _ =>
        { data := ([a, b].filterMap outside.rowText ++ [trailerText]).flatMap (· ++ [newline])
          mtime := 0 }
      next := 1
      segments := AList.singleton writerId 0
      sealed := ∅
      rebuilt := []
      archive := ∅
      manifests := ∅
      partials := ∅
      names := 0 }
  pass q := .start (passArgs q)
  returned := []

theorem content_content (a b : IndexRow) : Content passArgs (content a b) where
  segments id i hi := by
    have hmem : id ∈ (AList.singleton writerId 0 : AList fun _ : String => Nat) :=
      AList.lookup_isSome.mp (by rw [show AList.lookup id _ = some i from hi]; rfl)
    obtain rfl : id = writerId := by simpa [AList.mem_keys, AList.singleton] using hmem
    obtain rfl : 0 = i := some.inj hi
    exact Nat.zero_lt_one
  sealed n i hi := by cases hi
  manifests := rfl
  partials := rfl
  writer _ := rfl
  pass _ := rfl
  returned := rfl

def pass : List (Event Unit) := List.replicate 26 (.compact () {})

def again : State Unit := content (row "zarr_commit" "r1" 1) (row "zarr_commit" "r2" 2)

def other : State Unit := content (row "zarr_commit" "r1" 1) (row "unit_json" "r2" 2)

theorem lookup_kind_run_again :
    ∃ t, (machine outside passArgs).run again pass = some t ∧ t.disk.segments.keys = [] ∧
      (∀ x y, again.disk.lookup outside reader table "/store" "a" "i" = some x →
        t.disk.lookup outside reader table "/store" "a" "i" = some y → x.kind = y.kind) ∧
      ∀ st, outside.canonicalStore "/store" = some st →
        (∀ r ∈ unitRows (again.disk.rows outside) st "a", (judge reader table "a" "i" r).isSome) →
        (again.disk.lookup outside reader table "/store" "a" "i").isSome ∧
          (t.disk.lookup outside reader table "/store" "a" "i").isSome := by
  have hr : ((machine outside passArgs).run again pass).map (fun t => t.disk.segments.keys) =
      some [] := by
    decide +kernel
  obtain ⟨t, hrun, hkeys⟩ := Option.map_eq_some_iff.mp hr
  exact ⟨t, hrun, hkeys, lookup_kind_run (.start (content_content ..)) (fun _ => .inl rfl)
    (by decide +kernel) (by decide +kernel) (by decide +kernel) (by decide +kernel) hrun⟩

/-- **A lookup answers otherwise after compaction** when rows of one place name two adapters:
the pass keeps the later row, and with it the adapter that finds nothing. -/
theorem lookup_kind_changes :
    ∃ t, (machine outside passArgs).run other pass = some t ∧ t.disk.segments.keys = [] ∧
      other.disk.Clean outside ∧ RecordsDetermine (other.disk.rows outside) ∧
      (other.disk.lookup outside reader table "/store" "a" "i").map LookupResult.kind =
        some .reuse ∧
      (t.disk.lookup outside reader table "/store" "a" "i").map LookupResult.kind =
        some .missing := by
  have hr : ((machine outside passArgs).run other pass).map (fun t => (t.disk.segments.keys,
      (t.disk.lookup outside reader table "/store" "a" "i").map LookupResult.kind)) =
        some ([], some .missing) := by
    decide +kernel
  obtain ⟨t, hrun, ht⟩ := Option.map_eq_some_iff.mp hr
  obtain ⟨hkeys, hkind⟩ := Prod.mk.inj ht
  exact ⟨t, hrun, hkeys, by decide +kernel, by decide +kernel, by decide +kernel, hkind⟩

end TwoAdapters

end Xtrax.UnitIndex
