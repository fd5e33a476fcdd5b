import Xtrax.Covering
import Xtrax.UnitIndexMachine

/-! # Manifests and what they stand for

A sealed file covers its inputs.  `held` says of every name what its sealed file holds or
held, and the invariant relates manifests, and what passes have in their hands, to it: a
sealed input is before the file that lists it and held no more, a segment that is an input
is quiet (its writer appends no more rows) and holds no more (`Inside`).

All of this is kept when files come, go and grow (`Later`), as long as no segment name that
a pass relies on is taken again.
-/
namespace Xtrax.UnitIndex

open Function AList Option Covering

section
variable (O : Outside)

/-- What the sealed file of each name holds, or held before it went to the archive. -/
abbrev Held := Nat → Set Place

def places (data : Bytes) : Set Place := {p | Holds O data p}

def rowPlaces (rows : List IndexRow) : Set Place := {p | ∃ r ∈ rows, r.place = p}

/-- No row is appended any more: there is no writer, or it closes. -/
def Quiet (d : Disk) (i : Nat) : Prop :=
  i < d.next ∧ ∀ w, (d.inode i).writer = some w → w.call = some .close

/-- Nothing is written any more. -/
def Still (d : Disk) (i : Nat) : Prop := i < d.next ∧ (d.inode i).writer = none

/-- The sealed file of the name has been put in place. -/
def Placed (d : Disk) (n : Nat) : Prop := n < d.names ∧ Partial.sealed n ∉ d.partials

/-- All that the input holds is in `S`. -/
def Inside (held : Held) (d : Disk) (S : Set Place) (inp : Input) : Prop :=
  match inp.path with
  | .segment _ => Quiet d inp.ident.ino ∧ places O (d.inode inp.ident.ino).data ⊆ S
  | .sealed n => Placed d n ∧ held n ⊆ S

/-- A sealed input is older. -/
def Before (n : Nat) (inp : Input) : Prop := ∀ k, inp.path = .sealed k → k < n

/-- The sealed file covers its inputs. -/
def Good (held : Held) (d : Disk) (m : Manifest) : Prop :=
  ∀ inp ∈ m.inputs, Inside O held d (held m.sealed) inp ∧ Before m.sealed inp

/-! ## What a pass knows -/

/-- What is left of a manifest is covered by its sealed file, and so are the others. -/
def SweepOk (held : Held) (d : Disk) (w : Sweep) : Prop :=
  (∀ m ∈ w.manifests, Good O held d m) ∧ (∀ m ∈ w.stack, Good O held d m) ∧
    ∀ inp ∈ w.rest, Inside O held d (held w.current) inp ∧ Before w.current inp

/-- The file at the input's path is the one that was read, if there is one. -/
def Matched (held : Held) (d : Disk) (w : Sweep) (inp : Input) : Prop :=
  SweepOk O held d w ∧ (Inside O held d (held w.current) inp ∧ Before w.current inp) ∧
    ∀ writerId, inp.path = .segment writerId →
      ∀ i, d.segments.lookup writerId = some i → i = inp.ident.ino

/-- The rows that were read are all that each input holds. -/
def BatchOk (held : Held) (d : Disk) (batch : Batch) : Prop :=
  ∀ e ∈ batch.sealedIn ++ batch.taken, Inside O held d (rowPlaces e.2) e.1

/-- The segment of that name is quiet, if there is one. -/
def QuietAt (d : Disk) (writerId : String) : Prop :=
  ∀ i, d.segments.lookup writerId = some i → Quiet d i

def Knows (held : Held) (d : Disk) : PassPc → Prop
  | .loading _ _ found | .removing _ _ found => ∀ m ∈ found, Good O held d m
  | .probing _ m _ found => Good O held d m ∧ ∀ m ∈ found, Good O held d m
  | .ageing _ todo due manifests => (∀ m ∈ todo, Good O held d m) ∧ (∀ m ∈ due, Good O held d m) ∧
    ∀ m ∈ manifests, Good O held d m
  | .matching w => SweepOk O held d w
  | .trailing w inp | .judging w inp | .naming w inp | .moving w inp _ => Matched O held d w inp
  | .deciding _ _ taken => ∀ writerId ∈ taken, QuietAt d writerId
  | .reading batch todo => BatchOk O held d batch ∧ ∀ writerId ∈ todo, QuietAt d writerId
  | .identifying batch writerId raw todo => BatchOk O held d batch ∧
    (∀ i, d.segments.lookup writerId = some i →
      Quiet d i ∧ places O (d.inode i).data ⊆ places O raw) ∧
    ∀ writerId ∈ todo, QuietAt d writerId
  | .listingSealed batch | .readingSealed batch _ | .clearing batch _ _ | .writing batch =>
    BatchOk O held d batch
  | .identifyingSealed batch name raw _ => BatchOk O held d batch ∧ Placed d name ∧
    held name ⊆ places O raw
  | .replacing name ino inputs => Still d ino ∧
    ∀ inp ∈ inputs, Inside O held d (places O (d.inode ino).data) inp ∧ Before name inp
  | .writingManifest name inputs | .replacingManifest name inputs =>
    Good O held d { sealed := name, inputs := inputs }
  | _ => True

/-! ## The invariant -/

/-- What has been written to a file that is open. -/
def Writing (data : Bytes) (w : Writer) : Prop :=
  match w.call with
  | none => w.todo = [] ∧ (w.clean = true → Ended data) ∧ NoTrailer O data
  | some (.append row) => w.clean = false ∧ Ended (data ++ w.todo) ∧
    NoTrailer O (data ++ w.todo) ∧ ∃ text, O.rowText row = some text ∧ Written (data ++ w.todo) text
  | some .close => Settling O data w.todo

/-- What holds of the files. -/
structure Safe (held : Held) (d : Disk) : Prop where
  allocated : ∀ writerId i, d.segments.lookup writerId = some i → i < d.next
  /-- Rows are appended to segments that are in place. -/
  bound : ∀ i w, (d.inode i).writer = some w →
    w.call = some .close ∨ ∃ writerId, d.segments.lookup writerId = some i
  writing : ∀ i w, (d.inode i).writer = some w → Writing O (d.inode i).data w
  sealed : ∀ n i, d.sealed.lookup n = some i →
    Placed d n ∧ Still d i ∧ held n ⊆ places O (d.inode i).data
  placed : ∀ n p, p ∈ held n → Placed d n
  named : ∀ n, Partial.sealed n ∈ d.partials → n < d.names
  covered : Covered held {n | n ∈ d.sealed}
  manifests : ∀ n inputs, d.manifests.lookup n = some inputs →
    Good O held d { sealed := n, inputs := inputs }

/-- Every row that was returned is whole in a segment, or a sealed file has held its place. -/
def Returned (held : Held) (d : Disk) (rows : List IndexRow) : Prop :=
  ∀ r ∈ rows, (∃ writerId i text, d.segments.lookup writerId = some i ∧
    O.rowText r = some text ∧ Written (d.inode i).data text) ∨ ∃ n, r.place ∈ held n

/-- What does not change, and what changes one way only. -/
structure Later (held held' : Held) (d d' : Disk) : Prop where
  quiet : ∀ i, Quiet d i → Quiet d' i ∧ places O (d'.inode i).data ⊆ places O (d.inode i).data
  still : ∀ i, Still d i → Still d' i ∧ (d'.inode i).data = (d.inode i).data
  placed : ∀ n, Placed d n → Placed d' n ∧ held' n ⊆ held n
  grows : ∀ n, held n ⊆ held' n

/-- A change of the files that keeps them safe and loses no row. -/
structure Carried (held held' : Held) (d d' : Disk) : Prop extends Later O held held' d d' where
  safe : Safe O held' d'
  returned : ∀ rows, Returned O held d rows → Returned O held' d' rows

variable {O} {held held' : Held} {d d' : Disk} {S S' : Set Place} {inp : Input} {m : Manifest}
  {w : Sweep} {batch : Batch} {writerId : String} {n i : Nat}

/-! ### Later -/

theorem Inside.later (h : Inside O held d S inp) (hlater : Later O held held' d d') (hS : S ⊆ S') :
    Inside O held' d' S' inp := by
  unfold Inside at h ⊢
  split at h
  · obtain ⟨hquiet, hplaces⟩ := h
    obtain ⟨hquiet', hless⟩ := hlater.quiet _ hquiet
    exact ⟨hquiet', (hless.trans hplaces).trans hS⟩
  · obtain ⟨hplaced, hheld⟩ := h
    obtain ⟨hplaced', hless⟩ := hlater.placed _ hplaced
    exact ⟨hplaced', (hless.trans hheld).trans hS⟩

theorem Good.later (h : Good O held d m) (hlater : Later O held held' d d') : Good O held' d' m :=
  fun inp hinp => ⟨(h inp hinp).1.later hlater (hlater.grows _), (h inp hinp).2⟩

theorem SweepOk.later (h : SweepOk O held d w) (hlater : Later O held held' d d') :
    SweepOk O held' d' w :=
  ⟨fun m hm => (h.1 m hm).later hlater, fun m hm => (h.2.1 m hm).later hlater,
    fun inp hinp => ⟨(h.2.2 inp hinp).1.later hlater (hlater.grows _), (h.2.2 inp hinp).2⟩⟩

theorem BatchOk.later (h : BatchOk O held d batch) (hlater : Later O held held' d d') :
    BatchOk O held' d' batch :=
  fun e he => (h e he).later hlater subset_rfl

/-- **What a pass knows stays true**, as long as no name that it relies on is taken anew. -/
theorem Knows.later {pc : PassPc} (h : Knows O held d pc) (hlater : Later O held held' d d')
    (hnames : ∀ writerId, pc.Relies writerId → ∀ i, d'.segments.lookup writerId = some i →
      d.segments.lookup writerId = some i) : Knows O held' d' pc := by
  have hquietAt : ∀ writerId, pc.Relies writerId → QuietAt d writerId → QuietAt d' writerId :=
    fun writerId hrel hquiet i hi => (hlater.quiet i (hquiet i (hnames writerId hrel i hi))).1
  cases pc with
  | loading | removing => exact fun m hm => (h m hm).later hlater
  | probing => exact ⟨h.1.later hlater, fun m hm => (h.2 m hm).later hlater⟩
  | ageing =>
    exact ⟨fun m hm => (h.1 m hm).later hlater, fun m hm => (h.2.1 m hm).later hlater,
      fun m hm => (h.2.2 m hm).later hlater⟩
  | matching w => exact SweepOk.later h hlater
  | trailing w inp | judging w inp | naming w inp | moving w inp =>
    obtain ⟨hsweep, ⟨hinside, hbefore⟩, hmatched⟩ := h
    refine ⟨hsweep.later hlater, ⟨hinside.later hlater (hlater.grows _), hbefore⟩, ?_⟩
    intro writerId hpath i hi
    exact hmatched writerId hpath i (hnames writerId hpath i hi)
  | deciding pending todo taken => exact fun writerId hw => hquietAt writerId hw (h writerId hw)
  | reading batch todo =>
    exact ⟨h.1.later hlater, fun writerId hw => hquietAt writerId hw (h.2 writerId hw)⟩
  | identifying batch writerId raw todo =>
    obtain ⟨hbatch, hraw, htodo⟩ := h
    refine ⟨hbatch.later hlater, fun i hi => ?_, fun id hid => hquietAt id (.inr hid) (htodo id hid)⟩
    obtain ⟨hquiet, hplaces⟩ := hraw i (hnames writerId (.inl rfl) i hi)
    obtain ⟨hquiet', hless⟩ := hlater.quiet i hquiet
    exact ⟨hquiet', hless.trans hplaces⟩
  | listingSealed batch | readingSealed batch | clearing batch | writing batch =>
    exact BatchOk.later h hlater
  | identifyingSealed batch name raw todo =>
    obtain ⟨hbatch, hplaced, hraw⟩ := h
    obtain ⟨hplaced', hless⟩ := hlater.placed name hplaced
    exact ⟨hbatch.later hlater, hplaced', hless.trans hraw⟩
  | replacing name ino inputs =>
    obtain ⟨hstill, hinputs⟩ := h
    obtain ⟨hstill', hdata⟩ := hlater.still ino hstill
    refine ⟨hstill', fun inp hinp => ⟨?_, (hinputs inp hinp).2⟩⟩
    rw [hdata]
    exact (hinputs inp hinp).1.later hlater subset_rfl
  | writingManifest | replacingManifest => exact Good.later h hlater
  | _ => trivial

/-! ### Changes of the files -/

theorem Safe.carried_of_same (h : Safe O held d) (hinode : d'.inode = d.inode)
    (hnext : d'.next = d.next) (hsegments : d'.segments = d.segments)
    (hsealed : d'.sealed = d.sealed) (hnames : d'.names = d.names)
    (hpart : ∀ n, Partial.sealed n ∈ d'.partials → Partial.sealed n ∈ d.partials)
    (hmanifests : ∀ n inputs, d'.manifests.lookup n = some inputs →
      Good O held d { sealed := n, inputs := inputs }) : Carried O held held d d' := by
  have hquiet : ∀ i, Quiet d i → Quiet d' i := by
    intro i hi
    rwa [Quiet, hinode, hnext]
  have hstill : ∀ i, Still d i → Still d' i := by
    intro i hi
    rwa [Still, hinode, hnext]
  have hplaced : ∀ n, Placed d n → Placed d' n := by
    rintro n ⟨hname, hnot⟩
    exact ⟨by rwa [hnames], fun hmem => hnot (hpart n hmem)⟩
  have hlater : Later O held held d d' :=
    { quiet := fun i hi => ⟨hquiet i hi, by rw [hinode]⟩
      still := fun i hi => ⟨hstill i hi, by rw [hinode]⟩
      placed := fun n hn => ⟨hplaced n hn, subset_rfl⟩
      grows := fun n => subset_rfl }
  refine { hlater with safe := ?_, returned := fun rows hrows r hr => ?_ }
  · constructor
    · rw [hsegments, hnext]
      exact h.allocated
    · rw [hsegments, hinode]
      exact h.bound
    · rw [hinode]
      exact h.writing
    · intro n i hi
      rw [hsealed] at hi
      obtain ⟨hn, hs, hheld⟩ := h.sealed n i hi
      exact ⟨hplaced n hn, hstill i hs, by rwa [hinode]⟩
    · exact fun n p hp => hplaced n (h.placed n p hp)
    · intro n hn
      rw [hnames]
      exact h.named n (hpart n hn)
    · rw [hsealed]
      exact h.covered
    · exact fun n inputs hn => (hmanifests n inputs hn).later hlater
  · rw [hsegments, hinode]
    exact hrows r hr

theorem Safe.carried_refl (h : Safe O held d) : Carried O held held d d :=
  h.carried_of_same rfl rfl rfl rfl rfl (fun _ hn => hn) h.manifests

theorem Safe.carried_setInode (h : Safe O held d) {x : Inode}
    (hdata : ∃ chunk, x.data = (d.inode i).data ++ chunk)
    (hstill : (d.inode i).writer = none → x.writer = none ∧ x.data = (d.inode i).data)
    (hquiet : (∀ w, (d.inode i).writer = some w → w.call = some .close) →
      (∀ w, x.writer = some w → w.call = some .close) ∧ places O x.data ⊆ places O (d.inode i).data)
    (hbound : ∀ w, x.writer = some w →
      w.call = some .close ∨ ∃ writerId, d.segments.lookup writerId = some i)
    (hwriting : ∀ w, x.writer = some w → Writing O x.data w) :
    Carried O held held d (d.setInode i x) := by
  have hself : (d.setInode i x).inode i = x := update_self ..
  have hother : ∀ j, j ≠ i → (d.setInode i x).inode j = d.inode j :=
    fun j hj => update_of_ne hj ..
  have hlater : Later O held held d (d.setInode i x) := by
    refine ⟨fun j hj => ?_, fun j hj => ?_, fun n hn => ⟨hn, subset_rfl⟩, fun n => subset_rfl⟩
    · by_cases hji : j = i
      · subst hji
        obtain ⟨hclose, hless⟩ := hquiet hj.2
        rw [Quiet, hself]
        exact ⟨⟨hj.1, hclose⟩, hless⟩
      · rw [Quiet, hother j hji]
        exact ⟨hj, subset_rfl⟩
    · by_cases hji : j = i
      · subst hji
        obtain ⟨hnone, hsame⟩ := hstill hj.2
        rw [Still, hself]
        exact ⟨⟨hj.1, hnone⟩, hsame⟩
      · rw [Still, hother j hji]
        exact ⟨hj, rfl⟩
  refine { hlater with safe := ?_, returned := fun rows hrows r hr => ?_ }
  · refine ⟨h.allocated, fun j w hw => ?_, fun j w hw => ?_, fun n j hj => ?_, h.placed, h.named,
      h.covered, fun n inputs hn => (h.manifests n inputs hn).later hlater⟩
    · by_cases hji : j = i
      · subst hji
        rw [hself] at hw
        exact hbound w hw
      · rw [hother j hji] at hw
        exact h.bound j w hw
    · by_cases hji : j = i
      · subst hji
        rw [hself] at hw ⊢
        exact hwriting w hw
      · rw [hother j hji] at hw ⊢
        exact h.writing j w hw
    · obtain ⟨hn, hs, hheld⟩ := h.sealed n j hj
      obtain ⟨hs', hsame⟩ := hlater.still j hs
      exact ⟨hn, hs', by rwa [hsame]⟩
  · rcases hrows r hr with ⟨writerId, j, text, hj, htext, hwritten⟩ | hheld
    · refine .inl ⟨writerId, j, text, hj, htext, ?_⟩
      by_cases hji : j = i
      · subst hji
        obtain ⟨chunk, hchunk⟩ := hdata
        rw [hself, hchunk]
        exact hwritten.append chunk
      · rwa [hother j hji]
    · exact .inr hheld

theorem Safe.carried_silence (h : Safe O held d) : Carried O held held d (d.setWriter i none) :=
  h.carried_setInode ⟨[], (List.append_nil _).symm⟩ (fun _ => ⟨rfl, rfl⟩)
    (fun _ => ⟨fun w hw => (some_ne_none w hw.symm).elim, subset_rfl⟩)
    (fun w hw => (some_ne_none w hw.symm).elim)
    fun w hw => (some_ne_none w hw.symm).elim

theorem inode_alloc_self (d : Disk) (x : Inode) : (d.alloc x).inode d.next = x :=
  update_self ..

theorem inode_alloc_of_ne (x : Inode) (hi : i ≠ d.next) : (d.alloc x).inode i = d.inode i :=
  update_of_ne hi ..

theorem later_alloc {x : Inode} (d : Disk) : Later O held held d (d.alloc x) := by
  have hother : ∀ j, j < d.next → (d.alloc x).inode j = d.inode j :=
    fun j hj => inode_alloc_of_ne x (Nat.ne_of_lt hj)
  refine ⟨fun j hj => ?_, fun j hj => ?_, fun n hn => ⟨hn, subset_rfl⟩, fun n => subset_rfl⟩
  · rw [Quiet, hother j hj.1]
    exact ⟨⟨Nat.lt_succ_of_lt hj.1, hj.2⟩, subset_rfl⟩
  · rw [Still, hother j hj.1]
    exact ⟨⟨Nat.lt_succ_of_lt hj.1, hj.2⟩, rfl⟩

/-- **An input goes to the archive**: the sealed file of its manifest, or one after that,
still has its rows. -/
theorem Safe.carried_moveAway (h : Safe O held d) (dest : Archived)
    (hm : Matched O held d w inp) (hi : d.ino? inp.path = some i) :
    Carried O held held d (d.moveAway inp.path i dest) := by
  obtain ⟨path, ident⟩ := inp
  obtain ⟨-, ⟨hinside, hbefore⟩, hmatched⟩ := hm
  cases path with
  | segment writerId =>
    obtain rfl : i = ident.ino := hmatched writerId rfl i hi
    obtain ⟨hquiet, hplaces⟩ := hinside
    have hlater : Later O held held d (d.moveAway (.segment writerId) ident.ino dest) :=
      ⟨fun j hj => ⟨hj, subset_rfl⟩, fun j hj => ⟨hj, rfl⟩, fun n hn => ⟨hn, subset_rfl⟩,
        fun n => subset_rfl⟩
    -- another name is where it was
    have hkept : ∀ id j, j ≠ ident.ino → d.segments.lookup id = some j →
        (d.segments.erase writerId).lookup id = some j := by
      intro id j hj hlookup
      have hid : id ≠ writerId := by
        rintro rfl
        exact hj (some.inj (hlookup.symm.trans hi))
      rwa [lookup_erase_ne hid]
    refine { hlater with safe := ?_, returned := fun rows hrows r hr => ?_ }
    · refine ⟨fun id j hj => ?_, fun j w hw => ?_, h.writing, h.sealed, h.placed, h.named,
        h.covered, fun n inputs hn => (h.manifests n inputs hn).later hlater⟩
      · have hid : id ≠ writerId := by
          rintro rfl
          simp [Disk.moveAway] at hj
        exact h.allocated id j (by rwa [Disk.moveAway, lookup_erase_ne hid] at hj)
      · by_cases hji : j = ident.ino
        · subst hji
          exact .inl (hquiet.2 w hw)
        · rcases h.bound j w hw with hclose | ⟨id, hid⟩
          · exact .inl hclose
          · exact .inr ⟨id, hkept id j hji hid⟩
    · rcases hrows r hr with ⟨id, j, text, hj, htext, hwritten⟩ | hheld
      · by_cases hji : j = ident.ino
        · subst hji
          exact .inr ⟨w.current, hplaces (hwritten.holds htext)⟩
        · exact .inl ⟨id, j, text, hkept id j hji hj, htext, hwritten⟩
      · exact .inr hheld
  | sealed name =>
    obtain ⟨hplaced, hheld⟩ := hinside
    have hlater : Later O held held d (d.moveAway (.sealed name) i dest) :=
      ⟨fun j hj => ⟨hj, subset_rfl⟩, fun j hj => ⟨hj, rfl⟩, fun n hn => ⟨hn, subset_rfl⟩,
        fun n => subset_rfl⟩
    refine { hlater with safe := ?_, returned := fun rows hrows => hrows }
    refine ⟨h.allocated, h.bound, h.writing, fun n j hj => ?_, h.placed, h.named, ?_,
      fun n inputs hn => (h.manifests n inputs hn).later hlater⟩
    · have hn : n ≠ name := by
        rintro rfl
        simp [Disk.moveAway] at hj
      exact h.sealed n j (by rwa [Disk.moveAway, lookup_erase_ne hn] at hj)
    · have hlive : {n | n ∈ (d.moveAway (.sealed name) i dest).sealed} =
          {n | n ∈ d.sealed} \ {name} := by
        ext n
        simp [Disk.moveAway, mem_erase, and_comm]
      rw [hlive]
      exact h.covered.remove (hbefore name rfl) hheld

theorem Safe.returned_alloc (h : Safe O held d) {x : Inode} {rows : List IndexRow}
    (hrows : Returned O held d rows) (hd : d'.inode = (d.alloc x).inode)
    (hsegments : ∀ id j, d.segments.lookup id = some j → d'.segments.lookup id = some j) :
    Returned O held d' rows := by
  intro r hr
  rcases hrows r hr with ⟨id, j, text, hj, htext, hwritten⟩ | hheld
  · refine .inl ⟨id, j, text, hsegments id j hj, htext, ?_⟩
    rwa [hd, inode_alloc_of_ne x (Nat.ne_of_lt (h.allocated id j hj))]
  · exact .inr hheld

theorem Safe.carried_writeTemp (h : Safe O held d) (data : Bytes) (time : Int) :
    Carried O held held d
      { d.alloc { data := data, mtime := time } with
        partials := d.partials.insert (.sealed d.names) time
        names := d.names + 1 } := by
  have halloc : Later O held held d (d.alloc { data := data, mtime := time }) := later_alloc d
  have hplaced : ∀ n, Placed d n → n < d.names + 1 ∧
      Partial.sealed n ∉ d.partials.insert (.sealed d.names) time := by
    rintro n ⟨hname, hnot⟩
    refine ⟨by omega, fun hmem => ?_⟩
    rcases (mem_insert _).mp hmem with heq | hmem
    · obtain rfl := Partial.sealed.inj heq
      omega
    · exact hnot hmem
  have hlater : Later O held held d
      { d.alloc { data := data, mtime := time } with
        partials := d.partials.insert (.sealed d.names) time
        names := d.names + 1 } :=
    { quiet := halloc.quiet
      still := halloc.still
      placed := fun n hn => ⟨hplaced n hn, subset_rfl⟩
      grows := fun n => subset_rfl }
  refine { hlater with
    safe := ?_
    returned := fun rows hrows => h.returned_alloc hrows rfl fun _ _ hj => hj }
  -- the new inode has no writer, the others are as they were
  have hold : ∀ j w, ((d.alloc { data := data, mtime := time }).inode j).writer = some w →
      j ≠ d.next := by
    rintro j w hw rfl
    rw [inode_alloc_self] at hw
    cases hw
  refine ⟨fun id j hj => Nat.lt_succ_of_lt (h.allocated id j hj), fun j w hw => ?_,
    fun j w hw => ?_, fun n j hj => ?_, fun n p hp => hplaced n (h.placed n p hp), fun n hn => ?_,
    h.covered, fun n inputs hn => (h.manifests n inputs hn).later hlater⟩
  · have hj := hold j w hw
    change ((d.alloc _).inode j).writer = some w at hw
    rw [inode_alloc_of_ne _ hj] at hw
    exact h.bound j w hw
  · have hj := hold j w hw
    change ((d.alloc _).inode j).writer = some w at hw
    change Writing O ((d.alloc _).inode j).data w
    rw [inode_alloc_of_ne _ hj] at hw ⊢
    exact h.writing j w hw
  · obtain ⟨hn, hs, hheld⟩ := h.sealed n j hj
    obtain ⟨hs', hsame⟩ := hlater.still j hs
    exact ⟨hplaced n hn, hs', by rwa [hsame]⟩
  · rcases (mem_insert _).mp hn with heq | hmem
    · obtain rfl := Partial.sealed.inj heq
      exact Nat.lt_succ_self _
    · exact Nat.lt_succ_of_lt (h.named n hmem)

theorem Safe.carried_open (h : Safe O held d) (time : Int) (hfree : writerId ∉ d.segments) :
    Carried O held held d
      { d.alloc { data := [], mtime := time, writer := some { id := writerId } } with
        segments := d.segments.insert writerId d.next } := by
  have halloc : Later O held held d
      (d.alloc { data := [], mtime := time, writer := some { id := writerId } }) := later_alloc d
  have hlater : Later O held held d
      { d.alloc { data := [], mtime := time, writer := some { id := writerId } } with
        segments := d.segments.insert writerId d.next } :=
    { quiet := halloc.quiet
      still := halloc.still
      placed := fun n hn => ⟨hn, subset_rfl⟩
      grows := fun n => subset_rfl }
  have hkept : ∀ id j, d.segments.lookup id = some j →
      (d.segments.insert writerId d.next).lookup id = some j := by
    intro id j hj
    have hid : id ≠ writerId := by
      rintro rfl
      exact hfree (lookup_isSome.mp (by rw [hj]; rfl))
    rwa [lookup_insert_ne hid]
  refine { hlater with
    safe := ?_
    returned := fun rows hrows => h.returned_alloc hrows rfl hkept }
  refine ⟨fun id j hj => ?_, fun j w hw => ?_, fun j w hw => ?_, fun n j hj => ?_, h.placed,
    h.named, h.covered, fun n inputs hn => (h.manifests n inputs hn).later hlater⟩
  · by_cases hid : id = writerId
    · subst hid
      rw [lookup_insert] at hj
      obtain rfl := some.inj hj
      exact Nat.lt_succ_self _
    · rw [lookup_insert_ne hid] at hj
      exact Nat.lt_succ_of_lt (h.allocated id j hj)
  · by_cases hj : j = d.next
    · subst hj
      exact .inr ⟨writerId, lookup_insert _⟩
    · change ((d.alloc _).inode j).writer = some w at hw
      rw [inode_alloc_of_ne _ hj] at hw
      rcases h.bound j w hw with hclose | ⟨id, hid⟩
      · exact .inl hclose
      · exact .inr ⟨id, hkept id j hid⟩
  · change ((d.alloc _).inode j).writer = some w at hw
    change Writing O ((d.alloc _).inode j).data w
    by_cases hj : j = d.next
    · subst hj
      rw [inode_alloc_self] at hw ⊢
      obtain rfl := some.inj hw
      exact ⟨rfl, fun _ => .inl rfl, noTrailer_nil⟩
    · rw [inode_alloc_of_ne _ hj] at hw ⊢
      exact h.writing j w hw
  · obtain ⟨hn, hs, hheld⟩ := h.sealed n j hj
    obtain ⟨hs', hsame⟩ := hlater.still j hs
    exact ⟨hn, hs', by rwa [hsame]⟩

/-- **A sealed file comes into place**, and covers what its name is to stand for. -/
theorem Safe.carried_replace (h : Safe O held d) (hpart : Partial.sealed n ∈ d.partials)
    (hstill : Still d i) :
    Carried O held (update held n (places O (d.inode i).data)) d
      { d with
        partials := d.partials.erase (.sealed n)
        sealed := d.sealed.insert n i } := by
  have hempty : held n = ∅ := by
    refine Set.eq_empty_of_forall_notMem fun p hp => ?_
    exact (h.placed n p hp).2 hpart
  have hne : ∀ k, Placed d k → k ≠ n := by
    rintro k ⟨-, hnot⟩ rfl
    exact hnot hpart
  have hplaced : ∀ k, Placed d k → k < d.names ∧ Partial.sealed k ∉ d.partials.erase (.sealed n) :=
    fun k hk => ⟨hk.1, fun hmem => hk.2 (mem_erase.mp hmem).2⟩
  have hself : n < d.names ∧ Partial.sealed n ∉ d.partials.erase (.sealed n) :=
    ⟨h.named n hpart, fun hmem => (mem_erase.mp hmem).1 rfl⟩
  have hlater : Later O held (update held n (places O (d.inode i).data)) d
      { d with
        partials := d.partials.erase (.sealed n)
        sealed := d.sealed.insert n i } := by
    refine ⟨fun j hj => ⟨hj, subset_rfl⟩, fun j hj => ⟨hj, rfl⟩, fun k hk => ?_, fun k => ?_⟩
    · rw [update_of_ne (hne k hk)]
      exact ⟨hplaced k hk, subset_rfl⟩
    · by_cases hk : k = n
      · subst hk
        rw [hempty]
        exact Set.empty_subset _
      · rw [update_of_ne hk]
  refine { hlater with safe := ?_, returned := fun rows hrows r hr => ?_ }
  · refine ⟨h.allocated, h.bound, h.writing, fun k j hj => ?_, fun k p hp => ?_, fun k hk => ?_, ?_,
      fun k inputs hk => (h.manifests k inputs hk).later hlater⟩
    · by_cases hk : k = n
      · subst hk
        rw [lookup_insert] at hj
        obtain rfl := some.inj hj
        rw [update_self]
        exact ⟨hself, hstill, subset_rfl⟩
      · rw [lookup_insert_ne hk] at hj
        obtain ⟨hplacedk, hs, hheld⟩ := h.sealed k j hj
        rw [update_of_ne hk]
        exact ⟨hplaced k hplacedk, hs, hheld⟩
    · by_cases hk : k = n
      · subst hk
        exact hself
      · rw [update_of_ne hk] at hp
        exact hplaced k (h.placed k p hp)
    · exact h.named k (mem_erase.mp hk).2
    · have hlive : {k | k ∈ d.sealed.insert n i} = insert n {k | k ∈ d.sealed} := by
        ext k
        simp [mem_insert]
      rw [hlive]
      exact h.covered.add hempty
  · rcases hrows r hr with hsegment | ⟨k, hk⟩
    · exact .inl hsegment
    · exact .inr ⟨k, hlater.grows k hk⟩

end

end Xtrax.UnitIndex
