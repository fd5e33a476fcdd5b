import Xtrax.UnitIndexRows

/-! # What a reader may rely on

Between two steps of a reader writers and passes do what they like, but not everything: a
segment stays where it is or its rows are in a sealed file, a file only grows, and no name in
`sealed/` is used twice (`Framed`).  And a pass seals what it has read: the rows of sealed
files are rows that readers accept, or any others that there were (`SealedRows`).
-/
namespace Xtrax.UnitIndex

open Disk AList List Option Covering Interleaving

/-! ## What a step of a pass does to the files -/

section
variable (O : Outside)

/-- What a step of a pass changes, by where the pass is. -/
inductive Changes (a : Answer) (d : Disk) : PassPc → Disk → Prop
  | nothing (pc : PassPc) : Changes a d pc d
  | listed (pc : PassPc) (manifests : AList fun _ : Nat => List Input)
      (partials : AList fun _ : Partial => Int)
      (hpart : ∀ n, Partial.sealed n ∈ partials → Partial.sealed n ∈ d.partials) :
      Changes a d pc { d with manifests := manifests, partials := partials }
  /-- The writer of a segment is dead. -/
  | silenced (pc : PassPc) (i : Nat) : Changes a d pc (d.setWriter i none)
  | moved (w : Sweep) (inp : Input) (dest : Archived) (i : Nat) : d.ino? inp.path = some i →
      Changes a d (.moving w inp dest) (d.moveAway inp.path i dest)
  | wrote (batch : Batch) (data : Bytes) : render O (collapse batch.rows).kept = some data →
      Changes a d (.writing batch)
        { d.alloc { data := data, mtime := a.time } with
          partials := d.partials.insert (.sealed d.names) a.time
          names := d.names + 1 }
  | replaced (name ino : Nat) (inputs : List Input) : Partial.sealed name ∈ d.partials →
      Changes a d (.replacing name ino inputs)
        { d with
          partials := d.partials.erase (.sealed name)
          sealed := d.sealed.insert name ino }

variable {O} {args : CompactArgs} {a : Answer} {d d' : Disk} {pc pc' : PassPc}

/-- **What a pass can do to the files**, once and for all. -/
theorem passStep_changes (ht : passStep O args a d pc = some (d', pc')) : Changes O a d pc d' := by
  have herase : ∀ (p : Partial) (n : Nat), Partial.sealed n ∈ d.partials.erase p →
      Partial.sealed n ∈ d.partials := fun p n hn => (mem_erase.mp hn).2
  have hmanifest : ∀ name n, Partial.sealed n ∈ d.partials.insert (.manifest name) a.time →
      Partial.sealed n ∈ d.partials := by
    intro name n hn
    rcases (mem_insert _).mp hn with heq | hn
    · cases heq
    · exact hn
  unfold passStep at ht
  dsimp only at ht
  split at ht
  all_goals repeat' split at ht
  all_goals first
    | (obtain ⟨rfl, -⟩ := Prod.mk.inj (some.inj ht)
       first
        | exact .nothing _
        | exact .silenced _ _
        | exact .moved _ _ _ _ ‹_›
        | exact .wrote _ _ ‹_›
        | exact .replaced _ _ _ ‹_›
        | exact .listed _ _ d.partials fun _ hn => hn
        | exact .listed _ d.manifests _ (herase _)
        | exact .listed _ _ _ (herase _)
        | exact .listed _ d.manifests _ (hmanifest _))
    | cases ht

/-! ## Files keep their names and their contents -/

/-- A segment that goes is covered, data is only added to, and a sealed file that is there
was there before. -/
structure Framed (O : Outside) (held' : Held) (d d' : Disk) : Prop where
  segments : ∀ id i, d.segments.lookup id = some i → d'.segments.lookup id = some i ∨
    ∀ p ∈ places O (d.inode i).data, ∃ n, p ∈ held' n
  grows : ∀ i, i < d.next → ∃ chunk, (d'.inode i).data = (d.inode i).data ++ chunk
  sealed : ∀ n i, Placed d n → d'.sealed.lookup n = some i → d.sealed.lookup n = some i

theorem framed_of_same {held' : Held} (hsegments : d'.segments = d.segments)
    (hinode : ∀ i, i < d.next → ∃ chunk, (d'.inode i).data = (d.inode i).data ++ chunk)
    (hsealed : d'.sealed = d.sealed) : Framed O held' d d' where
  segments id i hi := .inl (by rwa [hsegments])
  grows := hinode
  sealed n i _ hi := by rwa [← hsealed]

theorem inode_setInode (d : Disk) (i j : Nat) (x : Inode) :
    (d.setInode i x).inode j = if j = i then x else d.inode j := Function.update_apply ..

theorem data_setWriter (d : Disk) (i j : Nat) (w : Option Writer) :
    ((d.setWriter i w).inode j).data = (d.inode j).data := by
  rw [setWriter, inode_setInode]
  by_cases hj : j = i
  · rw [if_pos hj, hj]
  · rw [if_neg hj]

theorem framed_passStep {held held' : Held} (hk : Knows O held d pc)
    (hgrows : ∀ n, held n ⊆ held' n) (ht : passStep O args a d pc = some (d', pc')) :
    Framed O held' d d' := by
  have hkeep : ∀ i : Nat, i < d.next →
      ∃ chunk, (d.inode i).data = (d.inode i).data ++ chunk := fun i _ => ⟨[], by simp⟩
  cases passStep_changes ht with
  | nothing | listed => exact framed_of_same rfl hkeep rfl
  | silenced pc i =>
    exact framed_of_same rfl (fun j _ => ⟨[], by rw [data_setWriter, append_nil]⟩) rfl
  | moved w inp dest i hi =>
    obtain ⟨-, ⟨hinside, -⟩, hmatched⟩ := hk
    obtain ⟨path, ident⟩ := inp
    cases path with
    | segment writerId =>
      refine ⟨fun id j hj => ?_, hkeep, fun n j _ hj => hj⟩
      by_cases hid : id = writerId
      · -- what goes is in the sealed file that the pass goes through
        subst hid
        obtain rfl : j = ident.ino := hmatched id rfl j hj
        exact .inr fun p hp => ⟨w.current, hgrows _ (hinside.2 hp)⟩
      · exact .inl (by rwa [moveAway, lookup_erase_ne hid])
    | sealed name =>
      refine ⟨fun id j hj => .inl hj, hkeep, fun n j _ hj => ?_⟩
      by_cases hn : n = name
      · rw [hn, moveAway, lookup_erase] at hj
        cases hj
      · rwa [moveAway, lookup_erase_ne hn] at hj
  | wrote batch data hdata =>
    refine framed_of_same rfl (fun i hi => ⟨[], ?_⟩) rfl
    show ((d.alloc _).inode i).data = _
    rw [inode_alloc_of_ne _ (Nat.ne_of_lt hi), append_nil]
  | replaced name ino inputs hpart =>
    refine ⟨fun id j hj => .inl hj, hkeep, fun n j hn hj => ?_⟩
    -- a name that has been placed is not placed again
    have hne : n ≠ name := by
      rintro rfl
      exact hn.2 hpart
    rwa [lookup_insert_ne hne] at hj

section
variable {Q : Type} [DecidableEq Q] {passArgs : Q → CompactArgs} {s t : State Q} {e : Event Q}

omit [DecidableEq Q] in
theorem framed_writerStep {held' : Held} {w : Writer} {rows : List IndexRow}
    (ht : writerStep O d w e = some (d', rows)) : Framed O held' d d' := by
  have hwriter : ∀ j w', Framed O held' d (d.setWriter j w') := fun j w' =>
    framed_of_same rfl (fun i _ => ⟨[], by rw [data_setWriter, append_nil]⟩) rfl
  unfold writerStep at ht
  dsimp only at ht
  split at ht
  case h_3 i n time =>
    split at ht
    · cases ht
    · obtain ⟨rfl, -⟩ := Prod.mk.inj (some.inj ht)
      refine framed_of_same rfl (fun j _ => ?_) rfl
      rw [inode_setInode]
      by_cases hj : j = i
      · exact ⟨w.todo.take n, by rw [if_pos hj, hj]⟩
      · exact ⟨[], by rw [if_neg hj, append_nil]⟩
  all_goals repeat' split at ht
  all_goals first
    | (obtain ⟨rfl, -⟩ := Prod.mk.inj (some.inj ht)
       exact hwriter _ _)
    | cases ht

/-- **One event keeps names and contents.** -/
theorem framed_step {held held' : Held}
    (hknows : ∀ q, Knows O held s.disk (s.pass q)) (hgrows : ∀ n, held n ⊆ held' n)
    (ht : (machine O passArgs).step s e = some t) : Framed O held' s.disk t.disk := by
  have hkeep : ∀ i : Nat, i < s.disk.next →
      ∃ chunk, (s.disk.inode i).data = (s.disk.inode i).data ++ chunk := fun i _ => ⟨[], by simp⟩
  cases step_cases ht with
  | writer _ _ hstep => exact framed_writerStep hstep
  | @openSegment writerId _ hnew =>
    refine ⟨fun id i hi => .inl ?_, fun i hi => ⟨[], ?_⟩, fun n i _ hi => hi⟩
    · have hid : id ≠ writerId := by
        rintro rfl
        exact hnew (lookup_isSome.mp (by rw [hi]; rfl))
      show (s.disk.segments.insert writerId s.disk.next).lookup id = some i
      rwa [lookup_insert_ne hid]
    · show ((s.disk.alloc _).inode i).data = _
      rw [inode_alloc_of_ne _ (Nat.ne_of_lt hi), append_nil]
  | @compact q _ _ _ hstep => exact framed_passStep (hknows q) hgrows hstep
  | stop | rebuild => exact framed_of_same rfl hkeep rfl

end

/-! ## Which rows the files hold

A pass makes no rows: what it has read has a property `P` of rows, and so has what it seals.
-/

variable (O) in
/-- Every row among the lines, whether readers accept it or not, and no other JSON. -/
def AllRows (P : IndexRow → Prop) (data : Bytes) : Prop :=
  ∀ l ∈ lines data, O.decode l ≠ .other ∧ ∀ r, O.decode l = .row r → P r

variable (O) in
/-- Every row that readers take from the file. -/
def ReadRows (P : IndexRow → Prop) (data : Bytes) : Prop := ∀ r ∈ (parse O data).rows, P r

def Batch.All (P : IndexRow → Prop) (batch : Batch) : Prop := ∀ r ∈ batch.rows, P r

variable (O) in
/-- The rows a pass has read have the property, and so have those it has written. -/
def PassPc.Carries (P : IndexRow → Prop) (d : Disk) : PassPc → Prop
  | .identifying batch _ raw _ | .identifyingSealed batch _ raw _ =>
    batch.All P ∧ ReadRows O P raw
  | .reading batch _ | .listingSealed batch | .readingSealed batch _ | .clearing batch _ _
  | .writing batch => batch.All P
  | .replacing _ ino _ => AllRows O P (d.inode ino).data
  | _ => True

variable (O) in
/-- Sealed files have rows with the property only. -/
def SealedRows (P : IndexRow → Prop) (d : Disk) : Prop :=
  ∀ n i, d.sealed.lookup n = some i → AllRows O P (d.inode i).data

variable (O) in
/-- What a pass may read. -/
def Readables (P : IndexRow → Prop) (d : Disk) : Prop :=
  ∀ p i, d.ino? p = some i → ReadRows O P (d.inode i).data

/-- `IndexRow.from_dict` accepts the row. -/
abbrev Accepted (r : IndexRow) : Prop := r.accepted = true

variable {P : IndexRow → Prop}

theorem mem_lines_of_mem_rows {data : Bytes} {r : IndexRow} (h : r ∈ (parse O data).rows) :
    Accepted r ∧ ∃ l ∈ lines data, O.decode l = .row r := by
  obtain ⟨l, hmem, hl⟩ := mem_filterMap.mp h
  unfold rowOf? at hl
  split at hl
  · rename_i r' hrow
    split at hl
    · rename_i hacc
      obtain rfl := some.inj hl
      exact ⟨hacc, l, hmem, hrow⟩
    · cases hl
  · cases hl

theorem readRows_accepted (data : Bytes) : ReadRows O Accepted data :=
  fun _ hr => (mem_lines_of_mem_rows hr).1

theorem AllRows.readRows {data : Bytes} (h : AllRows O P data) : ReadRows O P data := by
  intro r hr
  obtain ⟨-, l, hl, hrow⟩ := mem_lines_of_mem_rows hr
  exact (h l hl).2 r hrow

theorem mem_rows {data : Bytes} {l : Bytes} {r : IndexRow} (hl : l ∈ lines data)
    (hrow : O.decode l = .row r) (hacc : Accepted r) : r ∈ (parse O data).rows := by
  refine mem_filterMap.mpr ⟨l, hl, ?_⟩
  rw [rowOf?, hrow]
  exact if_pos hacc

theorem Written.mem_rows {data text : Bytes} {r : IndexRow} (h : Written data text)
    (htext : O.rowText r = some text) (hacc : Accepted r) : r ∈ (parse O data).rows := by
  obtain ⟨front, rest, hended, rfl⟩ := h
  have hline : lines text = [text] := by
    rw [lines_of_not_mem (O.newline_not_mem r text htext), O.rowText_not_blank r text htext]
    rfl
  refine UnitIndex.mem_rows ?_ (O.decode_rowText r text htext) hacc
  rcases hended with rfl | ⟨front, rfl⟩
  · rw [nil_append, lines_append, hline]
    exact mem_append_left _ (mem_singleton_self _)
  · rw [append_assoc, singleton_append, lines_append, lines_append, hline]
    exact mem_append_right _ (mem_append_left _ (mem_singleton_self _))

theorem AllRows.place {data : Bytes} {p : Place} (hall : AllRows O P data)
    (hP : ∀ r, P r → Accepted r) (h : Holds O data p) :
    ∃ r ∈ (parse O data).rows, r.place = p := by
  obtain ⟨l, hl, r, hrow, hplace⟩ := h
  exact ⟨r, mem_rows hl hrow (hP r ((hall l hl).2 r hrow)), hplace⟩

theorem allRows_render {rows : List IndexRow} {data : Bytes}
    (hdata : render O rows = some data) (hP : ∀ r ∈ rows, P r) : AllRows O P data := by
  induction rows generalizing data with
  | nil =>
    obtain rfl := some.inj hdata
    intro l hl
    rw [lines_of_not_mem (not_mem_nil)] at hl
    exact (not_mem_nil hl).elim
  | cons r rows ih =>
    unfold render at hdata
    split at hdata
    · rename_i text more htext hmore
      obtain rfl := some.inj hdata
      intro l hl
      rw [lines_append, lines_of_not_mem (O.newline_not_mem r text htext),
        O.rowText_not_blank r text htext] at hl
      rcases mem_append.mp hl with hl | hl
      · obtain rfl := mem_singleton.mp hl
        rw [O.decode_rowText r l htext]
        refine ⟨Line.noConfusion, fun r' hrow => ?_⟩
        obtain rfl := Line.row.inj hrow
        exact hP r mem_cons_self
      · exact ih hmore (fun r hr => hP r (mem_cons_of_mem _ hr)) l hl
    · cases hdata

theorem mem_putRow {r x : IndexRow} {kept : List IndexRow} (h : x ∈ putRow r kept) :
    x = r ∨ x ∈ kept := by
  induction kept with
  | nil => exact .inl (mem_singleton.mp h)
  | cons cur rest ih =>
    unfold putRow at h
    split at h
    · rcases mem_cons.mp h with rfl | h
      · split
        · exact .inl rfl
        · exact .inr mem_cons_self
      · exact .inr (mem_cons_of_mem _ h)
    · rcases mem_cons.mp h with rfl | h
      · exact .inr mem_cons_self
      · exact (ih h).imp_right (mem_cons_of_mem _)

theorem mem_kept {rows : List IndexRow} {x : IndexRow} (h : x ∈ (collapse rows).kept) :
    x ∈ rows := by
  have hfold : ∀ (rows kept : List IndexRow), x ∈ rows.foldl (fun kept r => putRow r kept) kept →
      x ∈ rows ∨ x ∈ kept := by
    intro rows
    induction rows with
    | nil => exact fun kept h => .inr h
    | cons r rows ih =>
      intro kept h
      rcases ih _ h with h | h
      · exact .inl (mem_cons_of_mem _ h)
      · rcases mem_putRow h with rfl | h
        · exact .inl mem_cons_self
        · exact .inr h
  have hmem : x ∈ byPlace rows := (mem_insertionSort _).mp h
  exact (hfold rows [] hmem).resolve_right not_mem_nil

theorem carries_afterManifests (stage : Stage) (found : List Manifest) :
    (afterManifests args a stage found).Carries O P d := by
  cases stage with
  | pending => trivial
  | archive =>
    show PassPc.Carries O P d (if found = [] then _ else if args.archiveAfter ≤ 0 then _ else _)
    repeat' split
    all_goals trivial

theorem carries_matchStep (w : Sweep) : (matchStep d w).Carries O P d := by
  unfold matchStep
  dsimp only
  repeat' split
  all_goals trivial

theorem Batch.All.take {batch : Batch} {raw : Bytes} (h : batch.All P) (hraw : ReadRows O P raw)
    (inp : Input) :
    Batch.All P { batch with taken := batch.taken ++ [(inp, (parse O raw).rows)] } := by
  intro r hr
  simp only [Batch.rows, flatMap_append, mem_append, flatMap_cons, flatMap_nil, append_nil] at hr
  rcases hr with hr | hr | hr
  · exact h r (by simp [Batch.rows, hr])
  · exact h r (by simp [Batch.rows, hr])
  · exact hraw r hr

theorem Batch.All.takeSealed {batch : Batch} {raw : Bytes} (h : batch.All P)
    (hraw : ReadRows O P raw) (inp : Input) :
    Batch.All P { batch with sealedIn := batch.sealedIn ++ [(inp, (parse O raw).rows)] } := by
  intro r hr
  simp only [Batch.rows, flatMap_append, mem_append, flatMap_cons, flatMap_nil, append_nil] at hr
  rcases hr with (hr | hr) | hr
  · exact h r (by simp [Batch.rows, hr])
  · exact hraw r hr
  · exact h r (by simp [Batch.rows, hr])

/-- **A step of a pass makes no rows.** -/
theorem carries_passStep (hread : Readables O P d) (hcarries : pc.Carries O P d)
    (ht : passStep O args a d pc = some (d', pc')) : pc'.Carries O P d' := by
  have hempty : ∀ pending, Batch.All P { pending := pending } := by
    intro pending r hr
    simp [Batch.rows] at hr
  have hwritten : ∀ (batch : Batch) (data : Bytes), batch.All P →
      render O (collapse batch.rows).kept = some data →
        AllRows O P ((d.alloc { data := data, mtime := a.time }).inode d.next).data := by
    intro batch data hbatch hdata
    rw [inode_alloc_self]
    exact allRows_render hdata fun r hr => hbatch r (mem_kept hr)
  have htake : ∀ (batch : Batch) (writerId : String) (raw : Bytes) (todo : List String)
      (inp : Input), PassPc.Carries O P d (.identifying batch writerId raw todo) →
        PassPc.Carries O P d
          (.reading { batch with taken := batch.taken ++ [(inp, (parse O raw).rows)] } todo) :=
    fun _ _ _ _ inp h => h.1.take h.2 inp
  have htakeSealed : ∀ (batch : Batch) (name : Nat) (raw : Bytes) (todo : List Nat)
      (inp : Input), PassPc.Carries O P d (.identifyingSealed batch name raw todo) →
        PassPc.Carries O P d (.readingSealed
          { batch with sealedIn := batch.sealedIn ++ [(inp, (parse O raw).rows)] } todo) :=
    fun _ _ _ _ inp h => h.1.takeSealed h.2 inp
  have hsegment : ∀ writerId i, d.segments.lookup writerId = some i →
      ReadRows O P (d.inode i).data := fun writerId i hi => hread (.segment writerId) i hi
  have hsealed : ∀ name i, d.sealed.lookup name = some i →
      ReadRows O P (d.inode i).data := fun name i hi => hread (.sealed name) i hi
  unfold passStep at ht
  dsimp only at ht
  split at ht
  all_goals repeat' split at ht
  all_goals first
    | (cases ht
       first
        | trivial
        | exact hcarries
        | exact hcarries.1
        | exact carries_afterManifests ..
        | exact carries_matchStep ..
        | exact hempty _
        | exact ⟨hcarries, hsegment _ _ ‹_›⟩
        | exact ⟨hcarries, hsealed _ _ ‹_›⟩
        | exact htake _ _ _ _ _ hcarries
        | exact htakeSealed _ _ _ _ _ hcarries
        | exact hwritten _ _ hcarries ‹_›)
    | cases ht

theorem SealedRows.of_same {held held' : Held} (h : SealedRows O P d)
    (hsafe : Safe O held d) (hlater : Later O held held' d d')
    (hsealed : ∀ n i, d'.sealed.lookup n = some i → d.sealed.lookup n = some i) :
    SealedRows O P d' := by
  intro n i hi
  have hold := hsealed n i hi
  rw [(hlater.still i (hsafe.sealed n i hold).2.1).2]
  exact h n i hold

/-- What is in `sealed/` after a step was there before, or it is what the pass puts there. -/
theorem sealed_passStep (ht : passStep O args a d pc = some (d', pc')) :
    (∀ n i, d'.sealed.lookup n = some i → d.sealed.lookup n = some i) ∨
      ∃ name ino inputs, pc = .replacing name ino inputs ∧ Partial.sealed name ∈ d.partials := by
  cases passStep_changes ht with
  | nothing | listed | silenced | wrote => exact .inl fun n i hi => hi
  | moved w inp dest i hi =>
    refine .inl fun n j hj => ?_
    obtain ⟨path, ident⟩ := inp
    cases path with
    | segment writerId => exact hj
    | sealed name =>
      by_cases hn : n = name
      · rw [hn, moveAway, lookup_erase] at hj
        cases hj
      · rwa [moveAway, lookup_erase_ne hn] at hj
  | replaced name ino inputs hpart => exact .inr ⟨name, ino, inputs, rfl, hpart⟩

theorem passStep_replacing {name ino : Nat} {inputs : List Input}
    (hpart : Partial.sealed name ∈ d.partials) :
    passStep O args a d (.replacing name ino inputs) =
      some
        ({ d with
            partials := d.partials.erase (.sealed name)
            sealed := d.sealed.insert name ino },
          .writingManifest name inputs) := if_pos hpart

theorem sealedRows_passStep {held held' : Held} (h : SealedRows O P d)
    (hsafe : Safe O held d) (hlater : Later O held held' d d') (hcarries : pc.Carries O P d)
    (ht : passStep O args a d pc = some (d', pc')) : SealedRows O P d' := by
  rcases sealed_passStep ht with hsame | ⟨name, ino, inputs, rfl, hpart⟩
  · exact h.of_same hsafe hlater hsame
  · rw [passStep_replacing hpart] at ht
    obtain ⟨rfl, -⟩ := Prod.mk.inj (some.inj ht)
    intro n i hi
    by_cases hn : n = name
    · -- the file that has just been put in place
      rw [hn, lookup_insert] at hi
      obtain rfl := some.inj hi
      exact hcarries
    · rw [lookup_insert_ne hn] at hi
      exact h n i hi

theorem PassPc.Carries.later {held held' : Held} (h : pc.Carries O P d) (hk : Knows O held d pc)
    (hlater : Later O held held' d d') : pc.Carries O P d' := by
  cases pc with
  | replacing name ino inputs =>
    show AllRows O P (d'.inode ino).data
    rw [(hlater.still ino hk.1).2]
    exact h
  | _ => exact h

end

end Xtrax.UnitIndex
