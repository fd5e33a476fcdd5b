import Xtrax.UnitIndexJson
import Xtrax.UnitIndexSafety

/-! # No row is lost

Every step of a pass keeps the files safe and what the pass knows true
(`advances_passStep`), and so does every step of a writer.  What is left is the one event
that can hurt a pass, a writer id that is used again while the pass relies on the segment of
that name: without it every row whose append has returned stays readable
(`rows_readable`), with it one can be lost (`Reopened.row_lost`).
-/
namespace Xtrax.UnitIndex

open Function Disk AList List Option Covering Interleaving

section
variable {O : Outside} {held : Held} {d d' : Disk} {inp : Input} {m : Manifest} {w : Sweep}
  {batch : Batch} {writerId : String} {n i : Nat} {args : CompactArgs} {a : Answer}
  {pc pc' : PassPc}

/-! ## Steps of a pass -/

variable (O held d d' pc') in
/-- A step that keeps the files safe, after which the pass knows what it has to know. -/
def Advances : Prop :=
  ∃ held', Carried O held held' d d' ∧ Knows O held' d' pc' ∧
    ∀ id i, d'.segments.lookup id = some i → d.segments.lookup id = some i

theorem Safe.reads (h : Safe O held d) (hk : Knows O held d pc') : Advances O held d d pc' :=
  ⟨held, h.carried_refl, hk, fun _ _ hi => hi⟩

theorem Safe.quiet_of_trailer (h : Safe O held d) (hi : i < d.next)
    (ht : hasTrailer O (d.inode i).data = true) : Quiet d i := by
  refine ⟨hi, fun w hw => ?_⟩
  have hwriting := h.writing i w hw
  unfold Writing at hwriting
  cases hcall : w.call with
  | none =>
    rw [hcall] at hwriting
    rw [hwriting.2.2.not_hasTrailer] at ht
    cases ht
  | some call =>
    cases call with
    | append row =>
      rw [hcall] at hwriting
      have hdata : NoTrailer O (d.inode i).data :=
        hwriting.2.2.1.part (prefix_append ..).isInfix
      rw [hdata.not_hasTrailer] at ht
      cases ht
    | close => rfl

theorem quiet_silence (hi : i < d.next) : Quiet (d.setWriter i none) i := by
  refine ⟨hi, fun w hw => ?_⟩
  rw [setWriter, setInode] at hw
  simp at hw

theorem Safe.carried_unlink (h : Safe O held d) (name : Nat) :
    Carried O held held d { d with manifests := d.manifests.erase name } := by
  refine h.carried_of_same rfl rfl rfl rfl rfl (fun _ hn => hn) fun n inputs hn => ?_
  have hne : n ≠ name := by
    rintro rfl
    simp at hn
  exact h.manifests n inputs (by rwa [lookup_erase_ne hne] at hn)

theorem knows_afterManifests {stage : Stage} {found : List Manifest}
    (h : ∀ m ∈ found, Good O held d m) : Knows O held d (afterManifests args a stage found) := by
  cases stage with
  | pending => trivial
  | archive =>
    unfold afterManifests
    dsimp only
    split
    · trivial
    · split
      · exact ⟨h, fun m hm => h m (mem_reverse.mp hm), fun inp hinp => (not_mem_nil hinp).elim⟩
      · exact ⟨h, fun m hm => (not_mem_nil hm).elim, h⟩

theorem knows_matchStep (h : SweepOk O held d w) : Knows O held d (matchStep d w) := by
  obtain ⟨hmanifests, hstack, hrest⟩ := h
  unfold matchStep
  cases hr : w.rest with
  | nil =>
    dsimp only
    cases hs : w.stack with
    | nil => trivial
    | cons m stack =>
      rw [hs] at hstack
      have htail : ∀ m ∈ stack, Good O held d m := fun m' hm' => hstack m' (mem_cons_of_mem _ hm')
      dsimp only
      split
      · exact ⟨hmanifests, htail, fun inp hinp => (not_mem_nil hinp).elim⟩
      · exact ⟨hmanifests, htail, hstack m (mem_cons_self ..)⟩
  | cons inp rest =>
    rw [hr] at hrest
    have hfirst := hrest inp (mem_cons_self ..)
    have hlater : ∀ inp ∈ rest, Inside O held d (held w.current) inp ∧ Before w.current inp :=
      fun inp' hinp' => hrest inp' (mem_cons_of_mem _ hinp')
    dsimp only
    split
    · rename_i hstat
      -- the manifest of a sealed input is one of those that were loaded
      have hinner : ∀ m ∈ (w.inner inp.path).toList ++ w.stack, Good O held d m := by
        intro m hm
        rcases mem_append.mp hm with hm | hm
        · rw [mem_toList] at hm
          cases hp : inp.path with
          | segment id => simp [Sweep.inner, hp] at hm
          | sealed name =>
            rw [hp] at hm
            exact hmanifests m (mem_of_find?_eq_some hm)
        · exact hstack m hm
      have hsweep : SweepOk O held d
          { w with rest := rest, stack := (w.inner inp.path).toList ++ w.stack } :=
        ⟨hmanifests, hinner, hlater⟩
      have hmatched : ∀ id, inp.path = .segment id →
          ∀ i, d.segments.lookup id = some i → i = inp.ident.ino := by
        intro id hp i hi
        rw [hp] at hstat
        simp only [stat, ino?, hi, map_some, some.injEq] at hstat
        rw [← hstat]
      split
      · exact ⟨hsweep, hfirst, hmatched⟩
      · exact ⟨hsweep, hfirst, hmatched⟩
    · exact ⟨hmanifests, hstack, hlater⟩

theorem Safe.advances_deciding (h : Safe O held d) {pending : List Path}
    {todo taken : List String} (hk : ∀ id ∈ taken, QuietAt d id)
    (ht : passStep O args a d (.deciding pending (writerId :: todo) taken) = some (d', pc')) :
    Advances O held d d' pc' := by
  have hmore : ∀ {d' : Disk}, (∀ id ∈ taken, QuietAt d' id) → QuietAt d' writerId →
      Knows O held d' (.deciding pending todo (taken ++ [writerId])) := by
    intro d' htaken hquiet id hid
    rcases mem_append.mp hid with hid | hid
    · exact htaken id hid
    · obtain rfl := mem_singleton.mp hid
      exact hquiet
  rw [passStep] at ht
  cases hi : d.segments.lookup writerId with
  | none =>
    obtain ⟨rfl, rfl⟩ := by simpa [hi] using ht
    exact h.reads hk
  | some i =>
    have hlt := h.allocated writerId i hi
    by_cases htrailer : hasTrailer O (d.inode i).data = true
    · obtain ⟨rfl, rfl⟩ := by simpa [hi, htrailer] using ht
      refine h.reads (hmore hk fun j hj => ?_)
      obtain rfl := some.inj (hi.symm.trans hj)
      exact h.quiet_of_trailer hlt htrailer
    · cases hdead : a.dead with
      | false =>
        obtain ⟨rfl, rfl⟩ := by simpa [hi, htrailer, hdead] using ht
        exact h.reads hk
      | true =>
        obtain ⟨rfl, rfl⟩ := by simpa [hi, htrailer, hdead] using ht
        have hcarried : Carried O held held d (d.setWriter i none) := h.carried_silence
        refine ⟨held, hcarried, hmore (fun id hid j hj => ?_) fun j hj => ?_, fun _ _ hj => hj⟩
        · exact (hcarried.quiet j (hk id hid j hj)).1
        · obtain rfl := some.inj (hi.symm.trans hj)
          exact quiet_silence hlt

theorem batchOk_taken {raw : Bytes} (hbatch : BatchOk O held d batch) {ident : Ident}
    (hquiet : Quiet d ident.ino ∧ places O (d.inode ident.ino).data ⊆ places O raw)
    (hgood : (parse O raw).unreadable = []) :
    BatchOk O held d { batch with
      taken := batch.taken ++
        [({ path := .segment writerId, ident := ident }, (parse O raw).rows)] } := by
  intro e he
  rw [← append_assoc] at he
  rcases mem_append.mp he with he | he
  · exact hbatch e he
  · obtain rfl := mem_singleton.mp he
    exact ⟨hquiet.1, fun p hp => holds_parse hgood (hquiet.2 hp)⟩

theorem batchOk_sealedIn {raw : Bytes} {name : Nat} {ident : Ident}
    (hbatch : BatchOk O held d batch) (hplaced : Placed d name)
    (hheld : held name ⊆ places O raw) (hgood : (parse O raw).unreadable = []) :
    BatchOk O held d { batch with
      sealedIn := batch.sealedIn ++
        [({ path := .sealed name, ident := ident }, (parse O raw).rows)] } := by
  intro e he
  rcases mem_append.mp he with he | he
  · rcases mem_append.mp he with he | he
    · exact hbatch e (mem_append_left _ he)
    · obtain rfl := mem_singleton.mp he
      exact ⟨hplaced, fun p hp => holds_parse hgood (hheld hp)⟩
  · exact hbatch e (mem_append_right _ he)

/-- **The sealed file is written**: it holds a row of every place of its inputs. -/
theorem Safe.advances_writing (h : Safe O held d) (hbatch : BatchOk O held d batch)
    (ht : passStep O args a d (.writing batch) = some (d', pc')) : Advances O held d d' pc' := by
  rw [passStep] at ht
  cases hdata : render O (collapse batch.rows).kept with
  | none =>
    obtain ⟨rfl, rfl⟩ := by simpa [hdata] using ht
    exact h.reads trivial
  | some data =>
    obtain ⟨rfl, rfl⟩ := by simpa only [hdata, some.injEq, Prod.mk.injEq] using ht
    have hcarried := h.carried_writeTemp data a.time
    refine ⟨held, hcarried, ⟨⟨Nat.lt_succ_self _, ?_⟩, fun inp hinp => ?_⟩, fun _ _ hj => hj⟩
    · change ((d.alloc _).inode d.next).writer = none
      rw [inode_alloc_self]
    · change Inside O held _ (places O ((d.alloc _).inode d.next).data) inp ∧ _
      rw [inode_alloc_self]
      obtain ⟨e, he, rfl⟩ := mem_map.mp hinp
      refine ⟨(hbatch e he).later hcarried.toLater ?_, fun k hk => ?_⟩
      · rintro p ⟨r, hr, rfl⟩
        obtain ⟨r', hr', hplace⟩ := collapse_place (mem_flatMap.mpr ⟨e, he, hr⟩)
        rw [← hplace]
        exact holds_render hdata hr'
      · have hinside := hbatch e he
        rw [Inside, hk] at hinside
        exact hinside.1.1

theorem Safe.carried_replacing (h : Safe O held d) {name ino : Nat} {inputs : List Input}
    (hk : Knows O held d (.replacing name ino inputs)) (hpart : Partial.sealed name ∈ d.partials) :
    Carried O held (update held name (places O (d.inode ino).data)) d
        { d with
          partials := d.partials.erase (.sealed name)
          sealed := d.sealed.insert name ino } ∧
      Knows O (update held name (places O (d.inode ino).data))
        { d with
          partials := d.partials.erase (.sealed name)
          sealed := d.sealed.insert name ino }
        (.writingManifest name inputs) := by
  obtain ⟨hstill, hinputs⟩ := hk
  have hcarried := h.carried_replace hpart hstill
  refine ⟨hcarried, fun inp hinp => ⟨?_, (hinputs inp hinp).2⟩⟩
  refine (hinputs inp hinp).1.later hcarried.toLater ?_
  rw [update_self]

theorem Safe.advances_replacing (h : Safe O held d) {name ino : Nat} {inputs : List Input}
    (hk : Knows O held d (.replacing name ino inputs))
    (ht : passStep O args a d (.replacing name ino inputs) = some (d', pc')) :
    Advances O held d d' pc' := by
  rw [passStep] at ht
  by_cases hpart : Partial.sealed name ∈ d.partials
  · obtain ⟨rfl, rfl⟩ := by simpa only [if_pos hpart, some.injEq, Prod.mk.injEq] using ht
    obtain ⟨hcarried, hknows⟩ := h.carried_replacing hk hpart
    exact ⟨_, hcarried, hknows, fun _ _ hj => hj⟩
  · obtain ⟨rfl, rfl⟩ := by simpa [hpart] using ht
    exact h.reads trivial

theorem Safe.advances_replacingManifest (h : Safe O held d) {name : Nat} {inputs : List Input}
    (hgood : Good O held d { sealed := name, inputs := inputs })
    (ht : passStep O args a d (.replacingManifest name inputs) = some (d', pc')) :
    Advances O held d d' pc' := by
  rw [passStep] at ht
  by_cases hpart : Partial.manifest name ∈ d.partials
  · obtain ⟨rfl, rfl⟩ := by simpa only [if_pos hpart, some.injEq, Prod.mk.injEq] using ht
    refine ⟨held, ?_, ?_, fun _ _ hj => hj⟩
    · refine h.carried_of_same rfl rfl rfl rfl rfl (fun k hk => (mem_erase.mp hk).2)
        fun k inputs' hk => ?_
      by_cases hkn : k = name
      · subst hkn
        rw [lookup_insert] at hk
        obtain rfl := some.inj hk
        exact hgood
      · exact h.manifests k inputs' (by rwa [lookup_insert_ne hkn] at hk)
    · split <;> trivial
  · obtain ⟨rfl, rfl⟩ := by simpa [hpart] using ht
    exact h.reads trivial

theorem Safe.advances_matched (h : Safe O held d) (hm : Matched O held d w inp)
    (hpc : pc = .trailing w inp ∨ pc = .judging w inp ∨ pc = .naming w inp ∨
      ∃ dest, pc = .moving w inp dest)
    (ht : passStep O args a d pc = some (d', pc')) : Advances O held d d' pc' := by
  rcases hpc with rfl | rfl | rfl | ⟨dest, rfl⟩
  · rw [passStep] at ht
    split at ht
    · cases ht
      exact h.reads hm.1
    · split at ht
      all_goals
        cases ht
        exact h.reads hm
  · rw [passStep] at ht
    split at ht
    · cases ht
      exact h.reads hm.1
    · rename_i i hi
      split at ht
      · cases ht
        exact h.reads hm
      · split at ht
        · cases ht
          have hcarried : Carried O held held d (d.setWriter i none) := h.carried_silence
          have hk : Knows O held d (.naming w inp) := hm
          exact ⟨held, hcarried, hk.later hcarried.toLater fun _ _ _ hj => hj, fun _ _ hj => hj⟩
        · cases ht
          exact h.reads hm.1
  · rw [passStep] at ht
    dsimp only at ht
    split at ht
    all_goals
      cases ht
      exact h.reads hm
  · rw [passStep] at ht
    split at ht
    · cases ht
      exact h.reads hm.1
    · rename_i i hi
      cases ht
      have hcarried := h.carried_moveAway dest hm hi
      refine ⟨held, hcarried, hm.1.later hcarried.toLater, fun id j hj => ?_⟩
      cases hp : inp.path with
      | segment writerId =>
        rw [hp] at hj
        have hid : id ≠ writerId := by
          rintro rfl
          simp [moveAway] at hj
        rwa [moveAway, lookup_erase_ne hid] at hj
      | sealed name =>
        rw [hp] at hj
        exact hj

theorem Safe.advances_reading (h : Safe O held d)
    (hpc : (∃ todo, pc = .reading batch todo) ∨ ∃ id raw todo, pc = .identifying batch id raw todo)
    (hk : Knows O held d pc) (ht : passStep O args a d pc = some (d', pc')) :
    Advances O held d d' pc' := by
  rcases hpc with ⟨todo, rfl⟩ | ⟨id, raw, todo, rfl⟩
  · cases todo with
    | nil =>
      rw [passStep] at ht
      split at ht
      · cases ht
        exact h.reads trivial
      · cases ht
        exact h.reads hk.1
    | cons id todo =>
      obtain ⟨hbatch, htodo⟩ := hk
      have hrest : ∀ id ∈ todo, QuietAt d id := fun id hid => htodo id (mem_cons_of_mem _ hid)
      rw [passStep] at ht
      split at ht
      · cases ht
        exact h.reads ⟨hbatch, hrest⟩
      · rename_i i hi
        cases ht
        refine h.reads ⟨hbatch, fun j hj => ?_, hrest⟩
        obtain rfl := some.inj (hi.symm.trans hj)
        exact ⟨htodo id (mem_cons_self ..) i hi, subset_rfl⟩
  · obtain ⟨hbatch, hraw, htodo⟩ := hk
    rw [passStep] at ht
    cases hi : d.segments.lookup id with
    | none =>
      obtain ⟨rfl, rfl⟩ := by simpa [stat, ino?, hi] using ht
      exact h.reads ⟨hbatch, htodo⟩
    | some i =>
      simp only [stat, ino?, hi, map_some] at ht
      split at ht
      · rename_i hgood
        cases ht
        exact h.reads ⟨batchOk_taken hbatch (hraw i hi) hgood.2, htodo⟩
      · cases ht
        exact h.reads ⟨hbatch, htodo⟩

theorem Safe.advances_readingSealed (h : Safe O held d)
    (hpc : (∃ todo, pc = .readingSealed batch todo) ∨
      ∃ name raw todo, pc = .identifyingSealed batch name raw todo)
    (hk : Knows O held d pc) (ht : passStep O args a d pc = some (d', pc')) :
    Advances O held d d' pc' := by
  rcases hpc with ⟨todo, rfl⟩ | ⟨name, raw, todo, rfl⟩
  · cases todo with
    | nil =>
      rw [passStep] at ht
      split at ht
      · cases ht
        exact h.reads trivial
      · cases ht
        exact h.reads hk
    | cons name todo =>
      rw [passStep] at ht
      split at ht
      · cases ht
        exact h.reads hk
      · rename_i i hi
        cases ht
        obtain ⟨hplaced, -, hheld⟩ := h.sealed name i hi
        exact h.reads ⟨hk, hplaced, hheld⟩
  · obtain ⟨hbatch, hplaced, hheld⟩ := hk
    rw [passStep] at ht
    split at ht
    · cases ht
      exact h.reads hbatch
    · split at ht
      · cases ht
        exact h.reads hbatch
      · split at ht
        · rename_i hgood
          cases ht
          exact h.reads (batchOk_sealedIn hbatch hplaced hheld hgood.1)
        · cases ht
          exact h.reads trivial

theorem Safe.advances_loading (h : Safe O held d)
    (hpc : (∃ stage todo found, pc = .loading stage todo found) ∨
      (∃ stage m todo found, pc = .probing stage m todo found) ∨
      ∃ name todo found, pc = .removing name todo found)
    (hk : Knows O held d pc) (ht : passStep O args a d pc = some (d', pc')) :
    Advances O held d d' pc' := by
  rcases hpc with ⟨stage, todo, found, rfl⟩ | ⟨stage, m, todo, found, rfl⟩ | ⟨name, todo, found, rfl⟩
  · cases todo with
    | nil =>
      obtain ⟨rfl, rfl⟩ := by simpa [passStep] using ht
      exact h.reads (knows_afterManifests hk)
    | cons name todo =>
      rw [passStep] at ht
      split at ht
      · cases ht
        exact h.reads hk
      · rename_i inputs hi
        cases ht
        exact h.reads ⟨h.manifests name inputs hi, hk⟩
  · obtain ⟨hm, hfound⟩ := hk
    rw [passStep] at ht
    split at ht
    · cases ht
      refine h.reads fun m' hm' => ?_
      rcases mem_append.mp hm' with hm' | hm'
      · exact hfound m' hm'
      · obtain rfl := mem_singleton.mp hm'
        exact hm
    · split at ht
      all_goals
        cases ht
        exact h.reads hfound
  · obtain ⟨rfl, rfl⟩ := by simpa only [passStep, some.injEq, Prod.mk.injEq] using ht
    have hcarried := h.carried_unlink name
    have hk' : Knows O held d (.loading .archive todo found) := hk
    exact ⟨held, hcarried, hk'.later hcarried.toLater fun _ _ _ hj => hj, fun _ _ hj => hj⟩

/-- **One step of a pass.** -/
theorem Safe.advances_passStep (h : Safe O held d) (hk : Knows O held d pc)
    (ht : passStep O args a d pc = some (d', pc')) : Advances O held d d' pc' := by
  cases pc with
  | finished => exact nomatch (passStep_ended O (.inl rfl) args a d).symm.trans ht
  | stopped => exact nomatch (passStep_ended O (.inr rfl) args a d).symm.trans ht
  | listing stage =>
    obtain ⟨rfl, rfl⟩ := by simpa [passStep] using ht
    exact h.reads fun m hm => (not_mem_nil hm).elim
  | loading stage todo found => exact h.advances_loading (.inl ⟨stage, todo, found, rfl⟩) hk ht
  | probing stage m todo found =>
    exact h.advances_loading (.inr (.inl ⟨stage, m, todo, found, rfl⟩)) hk ht
  | removing name todo found =>
    exact h.advances_loading (.inr (.inr ⟨name, todo, found, rfl⟩)) hk ht
  | ageing now todo due manifests =>
    obtain ⟨htodo, hdue, hmanifests⟩ := hk
    cases todo with
    | nil =>
      rw [passStep] at ht
      split at ht
      · cases ht
        exact h.reads trivial
      · cases ht
        exact h.reads ⟨hmanifests, fun m hm => hdue m (mem_reverse.mp hm),
          fun inp hinp => (not_mem_nil hinp).elim⟩
    | cons m todo =>
      have hrest : ∀ m ∈ todo, Good O held d m := fun m' hm' => htodo m' (mem_cons_of_mem _ hm')
      rw [passStep] at ht
      split at ht
      · cases ht
        exact h.reads ⟨hrest, hdue, hmanifests⟩
      · split at ht
        · cases ht
          exact h.reads ⟨hrest, hdue, hmanifests⟩
        · cases ht
          refine h.reads ⟨hrest, fun m' hm' => ?_, hmanifests⟩
          rcases mem_append.mp hm' with hm' | hm'
          · exact hdue m' hm'
          · obtain rfl := mem_singleton.mp hm'
            exact htodo m' (mem_cons_self ..)
  | matching w =>
    obtain ⟨rfl, rfl⟩ := by simpa [passStep] using ht
    exact h.reads (knows_matchStep hk)
  | trailing w inp => exact h.advances_matched hk (.inl rfl) ht
  | judging w inp => exact h.advances_matched hk (.inr (.inl rfl)) ht
  | naming w inp => exact h.advances_matched hk (.inr (.inr (.inl rfl))) ht
  | moving w inp dest => exact h.advances_matched hk (.inr (.inr (.inr ⟨dest, rfl⟩))) ht
  | unlinking todo last =>
    cases todo with
    | nil =>
      obtain ⟨rfl, rfl⟩ := by simpa only [passStep, some.injEq, Prod.mk.injEq] using ht
      refine h.reads ?_
      split <;> trivial
    | cons name todo =>
      obtain ⟨rfl, rfl⟩ := by simpa only [passStep, some.injEq, Prod.mk.injEq] using ht
      exact ⟨held, h.carried_unlink name, trivial, fun _ _ hj => hj⟩
  | listingSegments pending =>
    obtain ⟨rfl, rfl⟩ := by simpa only [passStep, some.injEq, Prod.mk.injEq] using ht
    exact h.reads fun id hid => (not_mem_nil hid).elim
  | deciding pending todo taken =>
    cases todo with
    | nil =>
      obtain ⟨rfl, rfl⟩ := by simpa only [passStep, some.injEq, Prod.mk.injEq] using ht
      exact h.reads ⟨fun e he => (not_mem_nil he).elim, hk⟩
    | cons writerId todo => exact h.advances_deciding hk ht
  | reading batch todo => exact h.advances_reading (.inl ⟨todo, rfl⟩) hk ht
  | identifying batch id raw todo => exact h.advances_reading (.inr ⟨id, raw, todo, rfl⟩) hk ht
  | listingSealed batch =>
    obtain ⟨rfl, rfl⟩ := by simpa only [passStep, some.injEq, Prod.mk.injEq] using ht
    exact h.reads hk
  | readingSealed batch todo => exact h.advances_readingSealed (.inl ⟨todo, rfl⟩) hk ht
  | identifyingSealed batch name raw todo =>
    exact h.advances_readingSealed (.inr ⟨name, raw, todo, rfl⟩) hk ht
  | clearing batch now todo =>
    cases todo with
    | nil =>
      obtain ⟨rfl, rfl⟩ := by simpa only [passStep, some.injEq, Prod.mk.injEq] using ht
      exact h.reads hk
    | cons p todo =>
      rw [passStep] at ht
      split at ht
      · cases ht
        exact h.reads hk
      · split at ht
        · cases ht
          have hcarried : Carried O held held d { d with partials := d.partials.erase p } :=
            h.carried_of_same rfl rfl rfl rfl rfl (fun n hn => (mem_erase.mp hn).2) h.manifests
          exact ⟨held, hcarried, BatchOk.later hk hcarried.toLater, fun _ _ hj => hj⟩
        · cases ht
          exact h.reads hk
  | writing batch => exact h.advances_writing hk ht
  | replacing name ino inputs => exact h.advances_replacing hk ht
  | writingManifest name inputs =>
    obtain ⟨rfl, rfl⟩ := by simpa only [passStep, some.injEq, Prod.mk.injEq] using ht
    have hcarried : Carried O held held d
        { d with partials := d.partials.insert (.manifest name) a.time } := by
      refine h.carried_of_same rfl rfl rfl rfl rfl (fun n hn => ?_) h.manifests
      rcases (mem_insert _).mp hn with heq | hn
      · cases heq
      · exact hn
    exact ⟨held, hcarried, Good.later hk hcarried.toLater, fun _ _ hj => hj⟩
  | replacingManifest name inputs => exact h.advances_replacingManifest hk ht
  | reloading name =>
    rw [passStep] at ht
    split at ht
    · cases ht
      exact h.reads trivial
    · rename_i inputs hi
      cases ht
      have hgood : ∀ m ∈ [({ sealed := name, inputs := inputs } : Manifest)], Good O held d m := by
        intro m hm
        obtain rfl := mem_singleton.mp hm
        exact h.manifests name inputs hi
      exact h.reads ⟨hgood, hgood, fun inp hinp => (not_mem_nil hinp).elim⟩

/-! ## Steps of a writer -/

theorem Safe.carried_setWriter (h : Safe O held d) {w w' : Writer}
    (hw : (d.inode i).writer = some w) (hcall : w.call ≠ some .close)
    (hwriting : Writing O (d.inode i).data w') :
    Carried O held held d (d.setWriter i (some w')) := by
  refine h.carried_setInode ⟨[], (append_nil _).symm⟩ (fun hnone => ?_)
    (fun hquiet => absurd (hquiet w hw) hcall) (fun w'' hw'' => ?_) fun w'' hw'' => ?_
  · rw [hw] at hnone
    cases hnone
  · exact .inr ((h.bound i w hw).resolve_left hcall)
  · obtain rfl := some.inj hw''
    exact hwriting

theorem Writing.begin_append {data text : Bytes} {w : Writer} {row : IndexRow}
    (h : Writing O data w) (hcall : w.call = none) (htext : O.rowText row = some text) :
    Writing O data (w.begin (.append row) text) := by
  rw [Writing, hcall] at h
  obtain ⟨-, hclean, hnone⟩ := h
  have hlast : ∀ front : Bytes, Ended (front ++ [newline]) := fun front => .inr ⟨front, rfl⟩
  cases hc : w.clean with
  | true =>
    have htodo : (w.begin (.append row) text).todo = text ++ [newline] := by simp [Writer.begin, hc]
    refine ⟨rfl, ?_, ?_, text, htext, ?_⟩
    · rw [htodo, ← append_assoc]
      exact hlast _
    · rw [htodo]
      exact hnone.append_row_of_ended (hclean hc) htext
    · rw [htodo]
      exact ⟨data, [], hclean hc, rfl⟩
  | false =>
    have htodo : (w.begin (.append row) text).todo = newline :: (text ++ [newline]) := by
      simp [Writer.begin, hc]
    refine ⟨rfl, ?_, ?_, text, htext, ?_⟩
    · rw [htodo, append_cons, ← append_assoc]
      exact hlast _
    · rw [htodo]
      exact hnone.append_row htext
    · rw [htodo]
      exact ⟨data ++ [newline], [], hlast data, by simp⟩

theorem Writing.begin_close {data : Bytes} {w : Writer} (h : Writing O data w)
    (hcall : w.call = none) : Writing O data (w.begin .close trailerText) := by
  rw [Writing, hcall] at h
  obtain ⟨-, hclean, -⟩ := h
  change Settling O data (w.begin .close trailerText).todo
  cases hc : w.clean with
  | true =>
    have htodo : (w.begin .close trailerText).todo = trailerText ++ [newline] := by
      simp [Writer.begin, hc]
    rw [htodo]
    exact Settling.close (hclean hc)
  | false =>
    have htodo : (w.begin .close trailerText).todo = newline :: (trailerText ++ [newline]) := by
      simp [Writer.begin, hc]
    rw [htodo]
    exact Settling.close_failed

theorem Safe.carried_write (h : Safe O held d) {w : Writer} (hw : (d.inode i).writer = some w)
    (htodo : w.todo ≠ []) (k : Nat) (time : Int) :
    Carried O held held d (d.setInode i
      { data := (d.inode i).data ++ w.todo.take k
        mtime := time
        writer := some { w with todo := w.todo.drop k } }) := by
  have hwriting := h.writing i w hw
  have hsplit : (d.inode i).data ++ w.todo.take k ++ w.todo.drop k = (d.inode i).data ++ w.todo := by
    rw [append_assoc, take_append_drop]
  refine h.carried_setInode ⟨_, rfl⟩ (fun hnone => ?_) (fun hquiet => ?_) (fun w' hw' => ?_)
    fun w' hw' => ?_
  · rw [hw] at hnone
    cases hnone
  · have hcall := hquiet w hw
    rw [Writing, hcall] at hwriting
    refine ⟨fun w' hw' => ?_, fun p hp => ?_⟩
    · obtain rfl := some.inj hw'
      exact hcall
    · exact (hwriting _ (List.take_prefix ..) p).mp hp
  · obtain rfl := some.inj hw'
    exact h.bound i w hw
  · obtain rfl := some.inj hw'
    cases hcall : w.call with
    | none =>
      rw [Writing, hcall] at hwriting
      exact absurd hwriting.1 htodo
    | some call =>
      cases call with
      | append row =>
        rw [Writing, hcall] at hwriting
        simp only [Writing, hsplit]
        exact hwriting
      | close =>
        rw [Writing, hcall] at hwriting
        simp only [Writing]
        refine Settling.write ?_
        rwa [take_append_drop]

/-- **One step of a writer**: a row that it returns is whole in a segment. -/
theorem Safe.carried_writerStep (h : Safe O held d) {Q : Type} {w : Writer} {e : Event Q}
    {rows old : List IndexRow} (hw : (d.inode i).writer = some w) (he : e.ino? = some i)
    (ht : writerStep O d w e = some (d', rows)) (hold : Returned O held d old) :
    Carried O held held d d' ∧ d'.segments = d.segments ∧ Returned O held d' (rows ++ old) := by
  have hwriting := h.writing i w hw
  have hgone : ∀ w', (none : Option Writer) = some w' → Writing O (d.inode i).data w' :=
    fun w' hw' => (some_ne_none w' hw'.symm).elim
  cases e with
  | openSegment | compact | stop | rebuild => cases he
  | append j row =>
    obtain rfl := some.inj he
    rw [writerStep] at ht
    split at ht
    · rename_i store hcall hstore
      dsimp only at ht
      split at ht
      · rename_i text htext
        split at ht
        · cases ht
          have hcarried : Carried O held held d
              (d.setWriter j (some (w.begin (.append { row with store := store }) text))) :=
            h.carried_setWriter hw (by simp [hcall]) (hwriting.begin_append hcall htext)
          exact ⟨hcarried, rfl, hcarried.returned old hold⟩
        · cases ht
      · cases ht
    · cases ht
  | close j =>
    obtain rfl := some.inj he
    rw [writerStep] at ht
    split at ht
    · rename_i hcall
      cases ht
      have hcarried : Carried O held held d
          (d.setWriter j (some (w.begin .close trailerText))) :=
        h.carried_setWriter hw (by simp [hcall]) (hwriting.begin_close hcall)
      exact ⟨hcarried, rfl, hcarried.returned old hold⟩
    · cases ht
  | write j k time =>
    obtain rfl := some.inj he
    rw [writerStep] at ht
    split at ht
    · cases ht
    · rename_i htodo
      cases ht
      have hcarried := h.carried_write hw htodo k time
      exact ⟨hcarried, rfl, hcarried.returned old hold⟩
  | finish j =>
    obtain rfl := some.inj he
    rw [writerStep] at ht
    split at ht
    · rename_i row hcall htodo
      cases ht
      rw [Writing, hcall, htodo, append_nil] at hwriting
      obtain ⟨-, hended, hnone, text, htext, hwritten⟩ := hwriting
      have hcarried : Carried O held held d
          (d.setWriter j (some { w with clean := true, call := none })) :=
        h.carried_setWriter hw (by simp [hcall]) ⟨htodo, fun _ => hended, hnone⟩
      refine ⟨hcarried, rfl, fun r hr => ?_⟩
      rcases mem_cons.mp hr with rfl | hr
      · -- the writer appends, so its segment is in place
        obtain ⟨id, hid⟩ := (h.bound j w hw).resolve_left (by simp [hcall])
        refine .inl ⟨id, j, text, hid, htext, ?_⟩
        rw [setWriter, setInode]
        simpa using hwritten
      · exact hcarried.returned old hold r hr
    · cases ht
      have hcarried : Carried O held held d (d.setWriter j none) := h.carried_silence
      exact ⟨hcarried, rfl, hcarried.returned old hold⟩
    · cases ht
  | fail j =>
    obtain rfl := some.inj he
    rw [writerStep] at ht
    split at ht
    · rename_i row hcall
      cases ht
      rw [Writing, hcall] at hwriting
      obtain ⟨hclean, -, hnone, -⟩ := hwriting
      have hcarried : Carried O held held d
          (d.setWriter j (some { w with todo := [], call := none })) := by
        refine h.carried_setWriter hw (by simp [hcall])
          ⟨rfl, fun htrue => ?_, hnone.part (prefix_append ..).isInfix⟩
        rw [show w.clean = true from htrue] at hclean
        cases hclean
      exact ⟨hcarried, rfl, hcarried.returned old hold⟩
    · cases ht
      have hcarried : Carried O held held d (d.setWriter j none) := h.carried_silence
      exact ⟨hcarried, rfl, hcarried.returned old hold⟩
    · cases ht
  | die j =>
    obtain rfl := some.inj he
    obtain ⟨rfl, rfl⟩ := by simpa only [writerStep, some.injEq, Prod.mk.injEq] using ht
    have hcarried : Carried O held held d (d.setWriter j none) := h.carried_silence
    exact ⟨hcarried, rfl, hcarried.returned old hold⟩

/-! ## Runs -/

variable {Q : Type} [DecidableEq Q] {passArgs : Q → CompactArgs} {s t : State Q} {e : Event Q}

variable (O) in
/-- The invariant of runs in which no name that a pass relies on is taken anew. -/
def Invariant (s : State Q) : Prop :=
  ∃ held, Safe O held s.disk ∧ (∀ q, Knows O held s.disk (s.pass q)) ∧
    Returned O held s.disk s.returned

omit [DecidableEq Q] in
theorem invariant_initial (h : Initial passArgs s) : Invariant O s := by
  refine ⟨fun _ => ∅, ⟨fun id i hi => ?_, fun i w hw => ?_, fun i w hw => ?_, fun n i hi => ?_,
    fun n p hp => (Set.notMem_empty p hp).elim, fun n hn => ?_, Covered.initial fun _ => rfl,
    fun n inputs hn => ?_⟩, fun q => ?_, fun r hr => ?_⟩
  · rw [h.segments] at hi
    cases hi
  · rw [h.writer i] at hw
    cases hw
  · rw [h.writer i] at hw
    cases hw
  · rw [h.sealed] at hi
    cases hi
  · rw [h.partials] at hn
    exact absurd hn (notMem_empty _)
  · rw [h.manifests] at hn
    cases hn
  · rw [h.pass q]
    trivial
  · rw [h.returned] at hr
    cases hr

theorem knows_update {held held' : Held} {d : Disk} {q : Q} {pc : PassPc}
    (hknows : ∀ q, Knows O held s.disk (s.pass q)) (hlater : Later O held held' s.disk d)
    (hpc : Knows O held' d pc)
    (hsegments : ∀ id i, d.segments.lookup id = some i → s.disk.segments.lookup id = some i) :
    ∀ q', Knows O held' d (update s.pass q pc q') := by
  intro q'
  by_cases hq : q' = q
  · rw [hq, update_self]
    exact hpc
  · rw [update_of_ne hq]
    exact (hknows q').later hlater fun id _ => hsegments id

/-- **One event** carries the files on, and what the passes know. -/
theorem step_carried {held : Held} (hsafe : Safe O held s.disk)
    (hknows : ∀ q, Knows O held s.disk (s.pass q)) (hreturned : Returned O held s.disk s.returned)
    (hg : NotReopened s e) (ht : (machine O passArgs).step s e = some t) :
    ∃ held', Carried O held held' s.disk t.disk ∧ (∀ q, Knows O held' t.disk (t.pass q)) ∧
      Returned O held' t.disk t.returned := by
  cases step_cases ht with
  | writer hi hw hstep =>
    obtain ⟨hcarried, hsegments, hrows⟩ := hsafe.carried_writerStep hw hi hstep hreturned
    refine ⟨held, hcarried, fun q => (hknows q).later hcarried.toLater ?_, hrows⟩
    intro id _ j hj
    rwa [← hsegments]
  | @openSegment writerId time hnew =>
    have hcarried := hsafe.carried_open time hnew
    refine ⟨held, hcarried, fun q => (hknows q).later hcarried.toLater ?_,
      hcarried.returned _ hreturned⟩
    -- the new name is none that the pass relies on
    intro id hrel j hj
    have hid : id ≠ writerId := by
      rintro rfl
      exact hg q hrel
    rwa [lookup_insert_ne hid] at hj
  | @compact q _ _ _ hstep =>
    obtain ⟨held', hcarried, hpc, hsegments⟩ := hsafe.advances_passStep (hknows q) hstep
    exact ⟨held', hcarried, knows_update hknows hcarried.toLater hpc hsegments,
      hcarried.returned _ hreturned⟩
  | stop q =>
    refine ⟨held, hsafe.carried_refl, fun q' => ?_, hreturned⟩
    show Knows O held s.disk (update s.pass q .stopped q')
    by_cases hq : q' = q
    · rw [hq, update_self]
      trivial
    · rw [update_of_ne hq]
      exact hknows q'
  | rebuild data =>
    have hcarried : Carried O held held s.disk
        { s.disk with rebuilt := data :: s.disk.rebuilt } :=
      hsafe.carried_of_same rfl rfl rfl rfl rfl (fun _ hn => hn) hsafe.manifests
    exact ⟨held, hcarried, fun q => (hknows q).later hcarried.toLater fun _ _ _ hj => hj,
      hcarried.returned _ hreturned⟩

theorem invariant_step (h : Invariant O s) (hg : NotReopened s e)
    (ht : (machine O passArgs).step s e = some t) : Invariant O t := by
  obtain ⟨held, hsafe, hknows, hreturned⟩ := h
  obtain ⟨held', hcarried, hknows', hreturned'⟩ := step_carried hsafe hknows hreturned hg ht
  exact ⟨held', hcarried.safe, hknows', hreturned'⟩

variable (O) in
/-- A file of `segments/`, `sealed/` or `rebuilt/` holds a row of the place. -/
def Readable (d : Disk) (p : Place) : Prop :=
  (∃ id i, d.segments.lookup id = some i ∧ Holds O (d.inode i).data p) ∨
    (∃ n i, d.sealed.lookup n = some i ∧ Holds O (d.inode i).data p) ∨
      ∃ data ∈ d.rebuilt, Holds O data p

omit [DecidableEq Q] in
theorem Invariant.readable (h : Invariant O s) : ∀ r ∈ s.returned, Readable O s.disk r.place := by
  obtain ⟨held, hsafe, -, hreturned⟩ := h
  intro r hr
  rcases hreturned r hr with ⟨id, i, text, hi, htext, hwritten⟩ | ⟨n, hn⟩
  · exact .inl ⟨id, i, hi, hwritten.holds htext⟩
  · obtain ⟨m, hm, -, hplace⟩ := hsafe.covered n _ hn
    obtain ⟨i, hi⟩ := isSome_iff_exists.mp (lookup_isSome.mpr hm)
    exact .inr (.inl ⟨m, i, hi, (hsafe.sealed m i hi).2.2 hplace⟩)

/-- **No row is lost.**  Whatever writers and passes do in whatever order, and wherever they
stop: as long as no writer id is used again while a pass relies on the segment of that name,
every row whose append has returned is in a file that readers read. -/
theorem rows_readable (hr : (machine O passArgs).Reaches NotReopened s) :
    ∀ r ∈ s.returned, Readable O s.disk r.place := by
  have h : Invariant O s :=
    hr.invariant (fun _ h => invariant_initial h) fun _ _ _ h hg => invariant_step h hg
  exact h.readable

/-! ### What is readable can be computed -/

instance (data : Bytes) (p : Place) : Decidable (Holds O data p) := by
  have hline : ∀ l, Decidable (∃ r, O.decode l = .row r ∧ r.place = p) := fun l =>
    match hl : O.decode l with
    | .row r => decidable_of_iff (r.place = p)
        ⟨fun h => ⟨r, rfl, h⟩, by rintro ⟨r', hr, hp⟩; cases hr; exact hp⟩
    | .torn | .trailer | .other => .isFalse (by rintro ⟨r, hr, -⟩; cases hr)
  exact inferInstanceAs (Decidable (∃ l ∈ lines data, ∃ r, O.decode l = .row r ∧ r.place = p))

theorem readable_iff {p : Place} : Readable O d p ↔
    (∃ e ∈ d.segments.entries, Holds O (d.inode e.2).data p) ∨
      (∃ e ∈ d.sealed.entries, Holds O (d.inode e.2).data p) ∨ ∃ data ∈ d.rebuilt, Holds O data p := by
  unfold Readable
  refine or_congr ⟨?_, ?_⟩ (or_congr_left ⟨?_, ?_⟩)
  · rintro ⟨id, i, hi, hholds⟩
    exact ⟨⟨id, i⟩, mem_lookup_iff.mp hi, hholds⟩
  · rintro ⟨e, he, hholds⟩
    exact ⟨e.1, e.2, mem_lookup_iff.mpr he, hholds⟩
  · rintro ⟨n, i, hi, hholds⟩
    exact ⟨⟨n, i⟩, mem_lookup_iff.mp hi, hholds⟩
  · rintro ⟨e, he, hholds⟩
    exact ⟨e.1, e.2, mem_lookup_iff.mpr he, hholds⟩

instance (p : Place) : Decidable (Readable O d p) := decidable_of_iff _ readable_iff.symm

end

/-! ## A writer id that is used again -/

namespace Reopened

def writerId : String := "host-1-nojob-0-ab"

def first : IndexRow where
  store := "/store"
  locator := "a"
  unitKey := "a"
  inputDigest := "i"
  contentDigest := "c"
  recordDigest := "r"
  adapter := "zarr_commit"
  writerId := writerId
  runId := ""
  ts := 1

def second : IndexRow := { first with locator := "b", unitKey := "b" }

def outside : Outside := Json.outside SegmentLines.FailedWrites.interpreter some

def passArgs : Fin 2 → CompactArgs := fun _ => { archiveAfter := 0 }

def start : State (Fin 2) where
  disk :=
    { inode := fun _ => { data := [], mtime := 0 }
      next := 0
      segments := ∅
      sealed := ∅
      rebuilt := []
      archive := ∅
      manifests := ∅
      partials := ∅
      names := 0 }
  pass q := .start (passArgs q)
  returned := []

theorem initial_start : Initial passArgs start where
  segments := rfl
  sealed := rfl
  manifests := rfl
  partials := rfl
  writer _ := rfl
  pass _ := rfl
  returned := rfl

def go (q : Fin 2) (n : Nat) : List (Event (Fin 2)) := List.replicate n (.compact q {})

def lineLength (row : IndexRow) : Nat := ((outside.rowText row).getD []).length + 1

/-- A writer opens its segment, with inode `i`, and appends a row. -/
def appendOne (i : Nat) (row : IndexRow) : List (Event (Fin 2)) :=
  [.openSegment writerId 0, .append i row, .write i (lineLength row) 0, .finish i]

instance neZeroTwo : NeZero 2 := ⟨by decide⟩

/-- A pass seals and archives the segment of a writer that has closed it. -/
def archivedEvents : List (Event (Fin 2)) :=
  appendOne 0 first ++ [.close 0, .write 0 17 0, .finish 0] ++ go 0 26

/-- Pass 0 is about to move the closed segment, pass 1 moves it, and the writer id is used
again before pass 0 goes on. -/
def overtakenEvents : List (Event (Fin 2)) :=
  appendOne 0 first ++ [.close 0, .write 0 17 0, .finish 0] ++ go 0 22 ++ go 1 9 ++
    appendOne 2 second ++ go 0 1

theorem rows_readable_archived :
    ∃ s, (machine outside passArgs).Reaches NotReopened s ∧ first ∈ s.returned ∧
      s.disk.segments.keys = [] ∧ Readable outside s.disk first.place := by
  have hr : ((machine outside passArgs).run start archivedEvents).map
      (fun s => (decide (first ∈ s.returned), s.disk.segments.keys)) = some (true, []) := by
    decide +kernel
  obtain ⟨s, hrun, hs⟩ := Option.map_eq_some_iff.mp hr
  obtain ⟨hreturned, hkeys⟩ := Prod.ext_iff.mp hs
  have hreach := Machine.reaches_of_allowed (M := machine outside passArgs) (G := NotReopened)
    initial_start (by decide +kernel) hrun
  have hmem : first ∈ s.returned := of_decide_eq_true hreturned
  exact ⟨s, hreach, hmem, hkeys, rows_readable hreach first hmem⟩

/-- **A row is lost when a writer id is used again.**  `os.replace` moves whatever file has
the name by now: the row that has just been appended is only in `archive/`. -/
theorem row_lost :
    ∃ s, (machine outside passArgs).Reachable s ∧
      ∃ r ∈ s.returned, ¬ Readable outside s.disk r.place := by
  have hr : ((machine outside passArgs).run start overtakenEvents).map
      (fun s => (decide (second ∈ s.returned), decide (Readable outside s.disk second.place))) =
        some (true, false) := by
    decide +kernel
  obtain ⟨s, hrun, hs⟩ := Option.map_eq_some_iff.mp hr
  obtain ⟨hreturned, hreadable⟩ := Prod.ext_iff.mp hs
  exact ⟨s, Machine.reachable_of_run initial_start hrun, second, of_decide_eq_true hreturned,
    of_decide_eq_false hreadable⟩

end Reopened

end Xtrax.UnitIndex
