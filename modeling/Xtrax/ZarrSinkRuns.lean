import Xtrax.Results
import Xtrax.ZarrSinkAgrees

/-! # Both sinks over a run

The memory sink goes along with the Zarr sink call by call (`Synced`).  Whatever the Zarr sink stores the
memory sink stores too, and where the one finds the required attrs the other does, so a run that
the Zarr sink completes the memory sink completes.
-/
namespace Xtrax.StagingBuffer

open Dict ZarrSink Buffer List Option

open StagingSink (NDArray Reject)
open ZarrNodes

variable {S Q K E V X : Type} [DecidableEq K] {N : Naming Q K} {spec : Spec V} {Z : Zarr S E V X}

/-! ## Buffers -/

theorem lookup_upsert {ν : Type} (d : Dict K (Q × Dict String ν)) (key key' : Q)
    (f : Dict String ν → Dict String ν) :
    lookup N (upsert N d key f) key' =
      if N.ident key' = N.ident key then f (lookup N d key) else lookup N d key' := by
  unfold lookup upsert
  cases hget : d.get? (N.ident key) with
  | none =>
    rw [get?_set]
    by_cases hk : N.ident key' = N.ident key <;> simp [hk]
  | some e =>
    rw [get?_set]
    by_cases hk : N.ident key' = N.ident key <;> simp [hk]

theorem bind_unit_ok {R α : Type} {x : Except R Unit} {a b : α}
    (h : (do x; return a : Except R α) = .ok b) : x = .ok () ∧ a = b := by
  cases x with
  | error e => cases h
  | ok u => exact ⟨rfl, Except.ok.inj h⟩

theorem validateStageAttrs_ok {A R R' : Type} {b : Buffer Q K A V} {key : Q} {attrs : Dict String V}
    (h : b.validateStageAttrs (R := R) N spec key attrs = .ok ()) :
    b.validateStageAttrs (R := R') N spec key attrs = .ok () := by
  simp only [validateStageAttrs] at h ⊢
  split at h
  · cases h
  · split at h
    · cases h
    · rw [if_neg ‹_›, if_neg ‹_›]
      split at h
      · rfl
      · split at h
        · cases h
        · simp [*]

theorem stage_ok {A R : Type} (R' : Type) {b b' : Buffer Q K A V} {key : Q} {attrs : Dict String V}
    {arrays : Dict String A} (h : b.stage (R := R) N spec key attrs arrays = .ok b') :
    b' = b.merge N key attrs arrays ∧ b.stage (R := R') N spec key attrs arrays = .ok b' := by
  unfold Buffer.stage at h ⊢
  by_cases hattrs : attrs.entries ≠ []
  · rw [if_pos hattrs] at h ⊢
    obtain ⟨hvalid, rfl⟩ := bind_unit_ok h
    refine ⟨rfl, ?_⟩
    rw [validateStageAttrs_ok hvalid]
    rfl
  · rw [if_neg hattrs] at h ⊢
    obtain rfl := Except.ok.inj h
    exact ⟨rfl, rfl⟩

/-! ## Attrs -/

/-- An attr of a group at a location comes from a key that was drained there, or from the record of the
run. -/
def SuppliedAt (N : Naming Q K) (spec : Spec V) (Z : Zarr S E V X) (keys : List (Q × Dict String V))
    (p : Location) (field : String) : Prop :=
  (∃ d ∈ keys, groupPlace N Z d.1 = some p ∧ Stamps spec d field) ∨
    p = [] ∧ field ∈ spec.provenance.record.map Prod.fst

omit [DecidableEq K] in
theorem SuppliedAt.append {keys : List (Q × Dict String V)} {p : Location} {field : String}
    (h : SuppliedAt N spec Z keys p field) (more : List (Q × Dict String V)) :
    SuppliedAt N spec Z (keys ++ more) p field := by
  rcases h with ⟨d, hd, hplace, hstamps⟩ | hroot
  · exact .inl ⟨d, mem_append_left _ hd, hplace, hstamps⟩
  · exact .inr hroot

/-- **The two sinks in step.** -/
structure Synced (N : Naming Q K) (spec : Spec V) (Z : Zarr S E V X) (items : List (Item Q E))
    (keys : List (Q × Dict String V)) (z : ZarrSink S Q K E V) (m : MemorySink Q K (NDArray E) V) :
    Prop where
  buffer : m.buffer = z.buffer
  finalized : m.isFinalized = false
  placed : ∀ i ∈ items, place N Z i.key i.name ≠ none
  holds : Holds N spec Z (Z.node z.store) items
  stored : ∀ key name, Kept spec.append (valuesOf N items (N.ident key) name)
    ((lookup N m.committed key).get? name)
  nodeAttrs : ∀ p field, (groupAttrs (Z.node z.store p)).get? field ≠ none →
    SuppliedAt N spec Z keys p field
  rootAttrs : ∀ field, z.rootAttrs.get? field ≠ none → SuppliedAt N spec Z keys [] field
  committedAttrs : ∀ d ∈ keys, ∀ field, Stamps spec d field →
    (lookup N m.committedAttrs d.1).get? field ≠ none

section Key

variable {items : List (Item Q E)} {keys : List (Q × Dict String V)} {z z' : ZarrSink S Q K E V}
  {m : MemorySink Q K (NDArray E) V} {key : Q} {group : Location} {attrs : Dict String V} {store s' : S}

/-- The store with a group whose handle is held, and the attrs of the handle. -/
structure Stands (N : Naming Q K) (spec : Spec V) (Z : Zarr S E V X) (items : List (Item Q E))
    (keys : List (Q × Dict String V)) (z : ZarrSink S Q K E V) (group : Location)
    (attrs : Dict String V) : Prop where
  holds : Holds N spec Z (Z.node z.store) items
  there : ∃ attrs, Z.node z.store group = some (.group attrs)
  handle : ∀ field, attrs.get? field ≠ none → SuppliedAt N spec Z keys group field
  nodeAttrs : ∀ p field, (groupAttrs (Z.node z.store p)).get? field ≠ none →
    SuppliedAt N spec Z keys p field
  rootAttrs : ∀ field, z.rootAttrs.get? field ≠ none → SuppliedAt N spec Z keys [] field

theorem requireKeyGroup_spec (h : Synced N spec Z items keys z m)
    (hrequire : ZarrSink.requireKeyGroup N Z z key = .ok (store, group, attrs)) :
    groupPlace N Z key = some group ∧
      Stands N spec Z items keys { z with store := store } group attrs := by
  unfold ZarrSink.requireKeyGroup at hrequire
  by_cases hpath : N.path key = ""
  · rw [if_pos hpath] at hrequire
    obtain ⟨rfl, hrest⟩ := Prod.mk.inj (Except.ok.inj hrequire)
    obtain ⟨rfl, rfl⟩ := Prod.mk.inj hrest
    exact ⟨if_pos hpath, h.holds, h.holds.root, h.rootAttrs, h.nodeAttrs, h.rootAttrs⟩
  · rw [if_neg hpath] at hrequire
    cases hlocate : Z.locate (N.path key) with
    | error e => simp [hlocate, bind, Except.bind] at hrequire
    | ok p =>
      cases hgroup : Z.requireGroup z.store p with
      | error e => simp [hlocate, hgroup, bind, Except.bind] at hrequire
      | ok s =>
        simp only [hlocate, hgroup, bind, Except.bind, pure, Except.pure] at hrequire
        obtain ⟨rfl, hrest⟩ := Prod.mk.inj (Except.ok.inj hrequire)
        obtain ⟨rfl, rfl⟩ := Prod.mk.inj hrest
        have hrequired := Z.requireGroup_ok _ _ _ hgroup
        have hattrs : ∀ q field, (groupAttrs (Z.node s q)).get? field ≠ none →
            SuppliedAt N spec Z keys q field := by
          intro q field hfield
          rw [hrequired.groupAttrs] at hfield
          exact h.nodeAttrs q field hfield
        refine ⟨?_, ⟨fun q => ?_, hrequired.closed h.holds.closed, ?_⟩, hrequired.group, hattrs p,
          hattrs, h.rootAttrs⟩
        · rw [groupPlace, if_neg hpath, hlocate]
          rfl
        · rw [hrequired.arrayAt]
          exact h.holds.arrays q
        · obtain ⟨attrs, hroot⟩ := h.holds.root
          rcases hrequired.others [] with heq | ⟨-, -, hnew⟩
          · exact ⟨attrs, heq ▸ hroot⟩
          · exact ⟨∅, hnew⟩

omit [DecidableEq K] in
/-- **Attrs of a group** are written without touching an array. -/
theorem updateAttrs_spec {new : List (String × V)} {attrs' : Dict String V}
    (h : Stands N spec Z items keys z group attrs) (hgroup : groupPlace N Z key = some group)
    (hnew : ∀ field ∈ new.map Prod.fst, SuppliedAt N spec Z keys group field)
    (hupdate : ZarrSink.updateAttrs N Z z key group attrs new = .ok (z', attrs')) :
    z'.buffer = z.buffer ∧ Stands N spec Z items keys z' group attrs' := by
  unfold ZarrSink.updateAttrs at hupdate
  cases hput : Z.putAttrs z.store group (attrs.update new) with
  | error e => simp [hput, bind, Except.bind] at hupdate
  | ok s =>
    simp only [hput, bind, Except.bind, pure, Except.pure] at hupdate
    cases hupdate
    have hreplaced := Z.putAttrs_ok _ _ _ _ hput
    obtain ⟨there, hthere⟩ := h.there
    have hattrs : ∀ field, (attrs.update new).get? field ≠ none →
        SuppliedAt N spec Z keys group field := by
      intro field hfield
      rcases Dict.get?_update_ne_none.mp hfield with hmem | hold
      · exact hnew field hmem
      · exact h.handle field hold
    refine ⟨rfl, ⟨fun q => ?_, ?_, ?_⟩, ⟨_, hreplaced.self⟩, hattrs, fun p field hfield => ?_,
      fun field hfield => ?_⟩
    · rw [hreplaced.group_arrays (by rw [hthere]; rfl)]
      exact h.holds.arrays q
    · exact hreplaced.closed (by rw [hthere]; exact nofun) h.holds.closed
    · by_cases hnil : [] = group
      · exact ⟨_, hnil ▸ hreplaced.self⟩
      · rw [hreplaced.others [] hnil]
        exact h.holds.root
    · by_cases hp : p = group
      · rw [hp, hreplaced.self] at hfield
        exact hp ▸ hattrs field hfield
      · rw [hreplaced.others p hp] at hfield
        exact h.nodeAttrs p field hfield
    · by_cases hpath : N.path key = ""
      · have hnil : group = [] := by simpa [groupPlace, hpath] using hgroup.symm
        rw [if_pos hpath] at hfield
        exact hnil ▸ hattrs field hfield
      · rw [if_neg hpath] at hfield
        exact h.rootAttrs field hfield

theorem stamp_spec (h : Stands N spec Z items keys z group attrs) (hgroup : groupPlace N Z key = some group)
    (hstamp : stamp N spec Z z key group attrs = (z', none)) :
    z'.buffer = z.buffer ∧ ∃ attrs',
      Stands N spec Z items (keys ++ [(key, lookup N z.buffer.pendingAttrs key)]) z' group attrs' := by
  let staged := lookup N z.buffer.pendingAttrs key
  have hkey : ∀ field, Stamps spec (key, staged) field →
      SuppliedAt N spec Z (keys ++ [(key, staged)]) group field := fun field hstamps =>
    .inl ⟨(key, staged), mem_append_right _ (mem_singleton.mpr rfl), hgroup, hstamps⟩
  have h : Stands N spec Z items (keys ++ [(key, staged)]) z group attrs :=
    ⟨h.holds, h.there, fun field hf => (h.handle field hf).append _,
      fun p field hf => (h.nodeAttrs p field hf).append _,
      fun field hf => (h.rootAttrs field hf).append _⟩
  simp only [stamp] at hstamp
  cases hfirst : (if (lookup N z.buffer.pendingAttrs key).entries = [] then .ok (z, attrs)
      else updateAttrs N Z z key group attrs (lookup N z.buffer.pendingAttrs key).entries :
        Except X (ZarrSink S Q K E V × Dict String V)) with
  | error e => simp [hfirst] at hstamp
  | ok first =>
    obtain ⟨z₁, attrs₁⟩ := first
    simp only [hfirst] at hstamp
    have hone : z₁.buffer = z.buffer ∧ Stands N spec Z items (keys ++ [(key, staged)]) z₁ group attrs₁ := by
      split at hfirst
      · cases hfirst
        exact ⟨rfl, h⟩
      · exact updateAttrs_spec h hgroup (fun field hf => hkey field (.inl (mem_keys_iff.mp hf)))
          hfirst
    cases hsecond : updateAttrs N Z z₁ key group attrs₁ spec.provenance.pointer with
    | error e => simp [hsecond] at hstamp
    | ok second =>
      simp only [hsecond] at hstamp
      obtain ⟨rfl, -⟩ := Prod.mk.inj hstamp
      obtain ⟨hbuffer, hstands⟩ :=
        updateAttrs_spec hone.2 hgroup (fun field hf => hkey field (.inr hf)) hsecond
      exact ⟨hbuffer.trans hone.1, _, hstands⟩

/-! ## One key -/

omit [DecidableEq K] in
theorem putArrays_ok {append : Bool} {arrays : List (String × NDArray E)}
    (h : putArrays Z append group arrays store = (s', none)) :
    writeArrays Z append group arrays store = (s', none) := by
  unfold putArrays at h
  split at h
  · simp at h
  · exact h

theorem stored_commit {arrays : Dict String (NDArray E)} {plan : List (String × NDArray E)}
    (hstored : ∀ key name, Kept spec.append (valuesOf N items (N.ident key) name)
      ((lookup N m.committed key).get? name))
    (hnames : plan.map Prod.fst = arrays.entries.map Prod.fst)
    (hvalues : ∀ e ∈ plan, Kept spec.append
      (valuesOf N (items ++ itemsOf key arrays.entries) (N.ident key) e.1) (some e.2))
    (key' : Q) (name : String) :
    Kept spec.append (valuesOf N (items ++ itemsOf key arrays.entries) (N.ident key') name)
      ((lookup N (m.commit N spec key plan).committed key').get? name) := by
  have hnodup : (plan.map Prod.fst).Nodup := hnames ▸ arrays.nodup
  -- what was drained of this key under another name, or of another key, is what it was
  have hother : ¬ (N.ident key' = N.ident key ∧ name ∈ plan.map Prod.fst) →
      valuesOf N (items ++ itemsOf key arrays.entries) (N.ident key') name =
        valuesOf N items (N.ident key') name := by
    intro hnot
    have hnone : ((itemsOf key arrays.entries).filter fun i =>
        N.ident i.key = N.ident key' ∧ i.name = name) = [] := by
      refine filter_eq_nil_iff.mpr fun i hi hcond => ?_
      obtain ⟨e, he, rfl⟩ := mem_map.mp hi
      obtain ⟨hk, hn⟩ : N.ident key = N.ident key' ∧ e.1 = name := by simpa using hcond
      refine hnot ⟨hk.symm, ?_⟩
      rw [hnames, ← hn]
      exact mem_map_of_mem he
    unfold valuesOf
    rw [filter_append, hnone, append_nil]
  simp only [MemorySink.commit, lookup_upsert]
  by_cases hk : N.ident key' = N.ident key
  · rw [if_pos hk]
    by_cases hn : name ∈ plan.map Prod.fst
    · obtain ⟨e, he, rfl⟩ := mem_map.mp hn
      rw [get?_update_of_mem hnodup he, hk]
      exact hvalues e he
    · rw [get?_update_of_not_mem hn, hother (fun h => hn h.2), hk]
      exact hstored key name
  · rw [if_neg hk, hother (fun h => hk h.1)]
    exact hstored key' name

/-- **Draining a key** does the same in both sinks. -/
theorem drainKey_spec {arrays : Dict String (NDArray E)} (h : Synced N spec Z items keys z m)
    (hdrain : drainKey N spec Z z key arrays.entries = (z', none))
    (hapart : (items ++ itemsOf key arrays.entries).Pairwise (Apart N spec Z))
    (hnamed : ∀ e ∈ arrays.entries, ∀ l, Z.locate e.1 = .ok l → l ≠ []) :
    z'.buffer = z.buffer ∧
      ∃ plan, MemorySink.planned (StagingSink.storeArray spec.append) (lookup N m.committed key)
          arrays.entries = .ok plan ∧
        Synced N spec Z (items ++ itemsOf key arrays.entries)
          (keys ++ [(key, lookup N z.buffer.pendingAttrs key)]) z' (m.commit N spec key plan) := by
  unfold drainKey at hdrain
  cases hrequire : requireKeyGroup N Z z key with
  | error e => simp [hrequire] at hdrain
  | ok found =>
    obtain ⟨store, group, attrs⟩ := found
    simp only [hrequire] at hdrain
    obtain ⟨hgroup, hstands⟩ := requireKeyGroup_spec h hrequire
    obtain ⟨there, hthere⟩ := hstands.there
    cases hput : putArrays Z spec.append group arrays.entries store with
    | mk store' failure =>
      cases failure with
      | some e => simp [hput] at hdrain
      | none =>
        simp only [hput] at hdrain
        obtain ⟨plan, hplan, hnames, hvalues, hplaces, hholds, hspares⟩ :=
          writeArrays_spec hgroup hstands.holds (putArrays_ok hput) arrays.nodup
            (fun e _ => h.stored key e.1) hapart hnamed
        have hwritten : Stands N spec Z (items ++ itemsOf key arrays.entries) keys
            { z with store := store' } group attrs :=
          ⟨hholds, ⟨there, hspares.group there hthere⟩, hstands.handle,
            fun p field hf => hstands.nodeAttrs p field (hspares.attrs p field hf), hstands.rootAttrs⟩
        obtain ⟨hbuffer, attrs', hstands'⟩ := stamp_spec hwritten hgroup hdrain
        refine ⟨hbuffer, plan, hplan, h.buffer.trans hbuffer.symm, h.finalized, ?_, hstands'.holds,
          stored_commit h.stored hnames hvalues, hstands'.nodeAttrs, hstands'.rootAttrs, ?_⟩
        · intro i hi
          rcases mem_append.mp hi with hi | hi
          · exact h.placed i hi
          · obtain ⟨e, he, rfl⟩ := mem_map.mp hi
            exact hplaces e he
        · intro d hd field hstamps
          simp only [MemorySink.commit, lookup_upsert]
          rcases mem_append.mp hd with hd | hd
          · have hold := h.committedAttrs d hd field hstamps
            by_cases hk : N.ident d.1 = N.ident key
            · rw [if_pos hk, get?_update_ne_none, get?_update_ne_none]
              have heq : lookup N m.committedAttrs key = lookup N m.committedAttrs d.1 := by
                rw [lookup, lookup, hk]
              exact .inr (.inr (heq ▸ hold))
            · rw [if_neg hk]
              exact hold
          · obtain rfl := mem_singleton.mp hd
            rw [if_pos rfl, get?_update_ne_none, get?_update_ne_none]
            rcases hstamps with hstaged | hpointer
            · refine .inr (.inl (mem_keys_iff.mpr ?_))
              rw [h.buffer]
              exact hstaged
            · exact .inl hpointer

/-! ## One drain -/

omit [DecidableEq K] in
/-- **The record of the run** is written without touching an array. -/
theorem writeRootProvenance_spec (h : Stands N spec Z items keys z [] z.rootAttrs)
    (hwrite : ZarrSink.writeRootProvenance spec Z z = .ok z') :
    z'.buffer = z.buffer ∧ Stands N spec Z items keys z' [] z'.rootAttrs := by
  unfold ZarrSink.writeRootProvenance at hwrite
  cases hput : Z.putAttrs z.store [] (z.rootAttrs.update spec.provenance.record) with
  | error e => simp [hput, bind, Except.bind] at hwrite
  | ok s =>
    simp only [hput, bind, Except.bind, pure, Except.pure] at hwrite
    obtain rfl := Except.ok.inj hwrite
    have hreplaced := Z.putAttrs_ok _ _ _ _ hput
    obtain ⟨attrs, hthere⟩ := h.there
    have hattrs : ∀ field, (z.rootAttrs.update spec.provenance.record).get? field ≠ none →
        SuppliedAt N spec Z keys [] field := by
      intro field hfield
      rcases Dict.get?_update_ne_none.mp hfield with hmem | hold
      · exact .inr ⟨rfl, hmem⟩
      · exact h.rootAttrs field hold
    refine ⟨rfl, ⟨fun q => ?_, ?_, ⟨_, hreplaced.self⟩⟩, ⟨_, hreplaced.self⟩, hattrs,
      fun p field hfield => ?_, hattrs⟩
    · rw [hreplaced.group_arrays (by rw [hthere]; rfl)]
      exact h.holds.arrays q
    · exact hreplaced.closed (by rw [hthere]; exact nofun) h.holds.closed
    · by_cases hp : p = []
      · rw [hp, hreplaced.self] at hfield
        exact hp ▸ hattrs field hfield
      · rw [hreplaced.others p hp] at hfield
        exact h.nodeAttrs p field hfield

theorem drainLoop_spec {entries : List (K × Q × Dict String (NDArray E))} :
    ∀ {items : List (Item Q E)} {keys : List (Q × Dict String V)} {z : ZarrSink S Q K E V}
      {m : MemorySink Q K (NDArray E) V}, Synced N spec Z items keys z m →
      drainLoop N spec Z entries z = (z', none) →
      (items ++ entries.flatMap fun e => itemsOf e.2.1 e.2.2.entries).Pairwise (Apart N spec Z) →
      (∀ i ∈ entries.flatMap fun e => itemsOf e.2.1 e.2.2.entries,
        ∀ l, Z.locate i.name = .ok l → l ≠ []) →
      ∃ m', m.drainLoop (R := Reject) N spec (StagingSink.storeArray spec.append) entries = (m', none) ∧
        z'.buffer = .new ∧
        Synced N spec Z (items ++ entries.flatMap fun e => itemsOf e.2.1 e.2.2.entries)
          (keys ++ entries.map fun e => (e.2.1, lookup N z.buffer.pendingAttrs e.2.1)) z' m' := by
  induction entries with
  | nil =>
    intro items keys z m h hdrain _ _
    rw [drainLoop] at hdrain
    split at hdrain
    · simp at hdrain
    · rename_i z₁ hroot
      obtain ⟨rfl, -⟩ := Prod.mk.inj hdrain
      have hopen : Stands N spec Z items keys { z with buffer := .new } [] z.rootAttrs :=
        ⟨h.holds, h.holds.root, h.rootAttrs, h.nodeAttrs, h.rootAttrs⟩
      obtain ⟨hbuffer, hstands⟩ := writeRootProvenance_spec hopen hroot
      refine ⟨_, rfl, hbuffer, ?_⟩
      rw [flatMap_nil, append_nil, map_nil, append_nil]
      exact ⟨hbuffer.symm, h.finalized, h.placed, hstands.holds, h.stored, hstands.nodeAttrs,
        hstands.rootAttrs, h.committedAttrs⟩
  | cons e rest ih =>
    intro items keys z m h hdrain hapart hnamed
    obtain ⟨k, key, arrays⟩ := e
    rw [drainLoop] at hdrain
    rw [flatMap_cons, ← append_assoc] at hapart
    rw [flatMap_cons, forall_mem_append] at hnamed
    cases hkey : drainKey N spec Z z key arrays.entries with
    | mk z₁ failure =>
      cases failure with
      | some e => simp [hkey] at hdrain
      | none =>
        simp only [hkey] at hdrain
        have hname : ∀ e ∈ arrays.entries, ∀ l, Z.locate e.1 = .ok l → l ≠ [] :=
          fun e he => hnamed.1 ⟨key, e.1, e.2⟩ (mem_map.mpr ⟨e, he, rfl⟩)
        obtain ⟨hbuffer, plan, hplan, hsynced⟩ :=
          drainKey_spec h hkey (pairwise_append.mp hapart).1 hname
        obtain ⟨m', hm', hnew, hsynced'⟩ := ih hsynced hdrain hapart hnamed.2
        refine ⟨m', ?_, hnew, ?_⟩
        · rw [MemorySink.drainLoop, hplan]
          exact hm'
        · rw [hbuffer] at hsynced'
          simpa using hsynced'

omit [DecidableEq K] in
theorem validateRequired_eq_ok_iff {A R : Type} {b : Buffer Q K A V} {committed : Q → Dict String V} :
    b.validateRequired (R := R) N spec committed = .ok () ↔
      ∀ e ∈ b.pendingAttrs.entries, ∀ schema, spec.schemaForKey N e.2.1 = some schema →
        ∀ field ∈ schema.required,
          e.2.2.get? field ≠ none ∨ (committed e.2.1).get? field ≠ none := by
  simp only [Buffer.validateRequired]
  split
  case isTrue hfailures =>
    refine ⟨fun h => absurd h (by simp), fun h => absurd ?_ hfailures⟩
    refine filterMap_eq_nil_iff.mpr fun e he => ?_
    cases hschema : spec.schemaForKey N e.2.1 with
    | none => simp
    | some schema =>
      have hthere : ∀ field ∈ schema.required,
          ((committed e.2.1).update e.2.2.entries).get? field ≠ none := fun field hfield =>
        Dict.get?_update_ne_none.mpr
          ((h e he schema hschema field hfield).imp Dict.mem_keys_iff.mpr id)
      simpa [hschema] using hthere
  case isFalse hfailures =>
    refine ⟨fun _ e he schema hschema field hfield => ?_, fun _ => rfl⟩
    have hnone := filterMap_eq_nil_iff.mp (not_not.mp hfailures) e he
    have hthere : ∀ field ∈ schema.required,
        ((committed e.2.1).update e.2.2.entries).get? field ≠ none := by simpa [hschema] using hnone
    exact (Dict.get?_update_ne_none.mp (hthere field hfield)).imp Dict.mem_keys_iff.mp id

theorem validateRequired_spec (h : Synced N spec Z items keys z m)
    (hattrs : AttrsOwn N spec Z keys z.buffer)
    (hvalid : ZarrSink.validateRequired N spec Z z = .ok ()) :
    m.buffer.validateRequired (R := Reject) N spec (lookup N m.committedAttrs) = .ok () := by
  have hstored : z.buffer.validateRequired (R := StoreFailure X) N spec
      (fun key => (ZarrSink.storedAttrs N Z z key).toOption.getD ∅) = .ok () := by
    unfold ZarrSink.validateRequired at hvalid
    obtain ⟨u, -, hrest⟩ := Results.bind_eq_ok.mp hvalid
    exact hrest
  rw [validateRequired_eq_ok_iff] at hstored
  rw [h.buffer, validateRequired_eq_ok_iff]
  intro e he schema hschema field hfield
  by_cases hstaged : e.2.2.get? field = none
  · right
    have hthere := (hstored e he schema hschema field hfield).resolve_left (not_not.mpr hstaged)
    have hsupplied : ∃ p, groupPlace N Z e.2.1 = some p ∧ SuppliedAt N spec Z keys p field := by
      unfold ZarrSink.storedAttrs at hthere
      by_cases hpath : N.path e.2.1 = ""
      · rw [if_pos hpath] at hthere
        exact ⟨[], by simp [groupPlace, hpath], h.rootAttrs field hthere⟩
      · rw [if_neg hpath] at hthere
        cases hlocate : Z.locate (N.path e.2.1) with
        | error e =>
          rw [hlocate] at hthere
          exact absurd rfl hthere
        | ok p =>
          rw [hlocate] at hthere
          exact ⟨p, by simp [groupPlace, hpath, hlocate, Except.toOption], h.nodeAttrs p field hthere⟩
    obtain ⟨p, hplace, hsupplied⟩ := hsupplied
    have hown := hattrs e he schema hschema field hfield hstaged
    rw [hplace] at hown
    obtain ⟨d, hd, hident, hstamps⟩ := hown (hsupplied.imp id fun hroot => ⟨congrArg some hroot.1, hroot.2⟩)
    have hlookup : lookup N m.committedAttrs e.2.1 = lookup N m.committedAttrs d.1 := by
      rw [lookup, lookup, hident]
    rw [hlookup]
    exact h.committedAttrs d hd field hstamps
  · exact .inl hstaged

/-- **A drain** that the Zarr sink completes the memory sink completes. -/
theorem drain_spec (h : Synced N spec Z items keys z m) (hdrain : drain N spec Z z = (z', none))
    (hapart : (items ++ z.buffer.items).Pairwise (Apart N spec Z))
    (hnamed : ∀ i ∈ z.buffer.items, ∀ l, Z.locate i.name = .ok l → l ≠ [])
    (hattrs : AttrsOwn N spec Z keys z.buffer) :
    ∃ m', m.drain (R := Reject) N spec (StagingSink.storeArray spec.append) = (m', none) ∧
      z'.buffer = .new ∧
      Synced N spec Z (items ++ z.buffer.items) (keys ++ z.buffer.keys N) z' m' := by
  unfold drain at hdrain
  cases hvalid : validateRequired N spec Z z with
  | error e => simp [hvalid] at hdrain
  | ok u =>
    simp only [hvalid] at hdrain
    obtain ⟨m', hm', hnew, hsynced⟩ := drainLoop_spec h hdrain hapart hnamed
    refine ⟨m', ?_, hnew, hsynced⟩
    have hvalid' := validateRequired_spec h hattrs hvalid
    rw [h.buffer] at hvalid'
    simp [MemorySink.drain, h.finalized, hvalid', h.buffer, hm']

/-! ## Calls -/

theorem Synced.withBuffer (h : Synced N spec Z items keys z m) (b : Buffer Q K (NDArray E) V) :
    Synced N spec Z items keys { z with buffer := b } { m with buffer := b } :=
  ⟨rfl, h.finalized, h.placed, h.holds, h.stored, h.nodeAttrs, h.rootAttrs, h.committedAttrs⟩

theorem take_ok {A R : Type} (R' : Type) {b : Buffer Q K A V} {arrays : Dict String A}
    (h : (b.take (R := R) N key).2 = .ok arrays) :
    (b.take (R := R') N key).1 = (b.take (R := R) N key).1 ∧
      (b.take (R := R') N key).2 = .ok arrays := by
  simp only [Buffer.take] at h ⊢
  cases hget : b.pending.get? (N.ident key) with
  | none => simp [hget] at h
  | some e =>
    obtain ⟨first, staged⟩ := e
    simpa [hget] using h

/-- **A call** that the Zarr sink completes the memory sink completes, with the same result. -/
theorem call_spec {c : Call Q (NDArray E) V} {r : Returned (NDArray E)}
    {calls : List (Call Q (NDArray E) V)} {done : List (Buffer Q K (NDArray E) V)}
    (h : Synced N spec Z (done.flatMap Buffer.items) (done.flatMap (Buffer.keys N)) z m)
    (hcall : ZarrSink.call N spec Z z c = (z', .ok r))
    (hclear : Clear N spec Z (done ++ z.buffer.drains N spec (c :: calls))) :
    ∃ m' more, m.call (R := Reject) N spec (StagingSink.storeArray spec.append) c = (m', .ok r) ∧
      z.buffer.drains N spec (c :: calls) = more ++ z'.buffer.drains N spec calls ∧
      Synced N spec Z ((done ++ more).flatMap Buffer.items)
        ((done ++ more).flatMap (Buffer.keys N)) z' m' := by
  have hdrained : ∀ {z z' : ZarrSink S Q K E V} {m : MemorySink Q K (NDArray E) V}
      {after : List (Buffer Q K (NDArray E) V)},
      Synced N spec Z (done.flatMap Buffer.items) (done.flatMap (Buffer.keys N)) z m →
      ZarrSink.drain N spec Z z = (z', none) → Clear N spec Z (done ++ z.buffer :: after) →
      ∃ m', m.drain (R := Reject) N spec (StagingSink.storeArray spec.append) = (m', none) ∧
        z'.buffer = .new ∧
        Synced N spec Z ((done ++ [z.buffer]).flatMap Buffer.items)
          ((done ++ [z.buffer]).flatMap (Buffer.keys N)) z' m' := by
    intro z z' m after h hdrain hclear
    have hitems : (done ++ z.buffer :: after).flatMap Buffer.items =
        (done.flatMap Buffer.items ++ z.buffer.items) ++ after.flatMap Buffer.items := by simp
    have hapart := hclear.apart
    rw [hitems] at hapart
    obtain ⟨m', hm', hnew, hsynced⟩ := drain_spec h hdrain (pairwise_append.mp hapart).1
      (fun i hi => hclear.named i (hitems ▸ mem_append_left _ (mem_append_right _ hi)))
      (hclear.attrs done z.buffer after rfl)
    exact ⟨m', hm', hnew, by simpa using hsynced⟩
  cases c with
  | drain =>
    simp only [ZarrSink.call] at hcall
    cases hdrain : ZarrSink.drain N spec Z z with
    | mk z₁ failure =>
      cases failure with
      | some e => simp [hdrain] at hcall
      | none =>
        simp only [hdrain] at hcall
        obtain ⟨rfl, hr⟩ := Prod.mk.inj hcall
        obtain rfl := Except.ok.inj hr
        obtain ⟨m', hm', hnew, hsynced⟩ := hdrained h hdrain hclear
        refine ⟨m', [z.buffer], ?_, by rw [hnew]; rfl, hsynced⟩
        simp only [MemorySink.call, hm']
        rfl
  | take key =>
    simp only [ZarrSink.call, ZarrSink.take] at hcall
    obtain ⟨rfl, hr⟩ := Prod.mk.inj hcall
    cases htaken : (z.buffer.take (R := StoreFailure X) N key).2 with
    | error e =>
      rw [htaken] at hr
      cases hr
    | ok arrays =>
      rw [htaken] at hr
      obtain rfl := Except.ok.inj hr
      have hm := take_ok Reject htaken
      have hempty := take_ok Empty htaken
      refine ⟨{ m with buffer := (z.buffer.take (R := StoreFailure X) N key).1 }, [], ?_, ?_, ?_⟩
      · simp only [MemorySink.call, MemorySink.take, h.buffer, hm.1, hm.2]
        rfl
      · rw [Buffer.drains, hempty.1]
        rfl
      · rw [append_nil]
        exact h.withBuffer _
  | stage key attrs arrays =>
    simp only [ZarrSink.call, ZarrSink.stage] at hcall
    cases hstage : z.buffer.stage (R := StoreFailure X) N spec key attrs arrays with
    | error e => simp [hstage] at hcall
    | ok b =>
      obtain ⟨rfl, hstage'⟩ := stage_ok Reject hstage
      have hbuffered := h.withBuffer (z.buffer.merge N key attrs arrays)
      simp only [hstage] at hcall
      rw [Buffer.drains] at hclear ⊢
      by_cases hflush : spec.flushEvery ≤ (z.buffer.merge N key attrs arrays).stagedSinceDrain
      · simp only [hflush, if_true] at hcall hclear ⊢
        cases hdrain : ZarrSink.drain N spec Z { z with buffer := z.buffer.merge N key attrs arrays } with
        | mk z₁ failure =>
          cases failure with
          | some e => simp [hdrain] at hcall
          | none =>
            simp only [hdrain] at hcall
            obtain ⟨rfl, hr⟩ := Prod.mk.inj hcall
            obtain rfl := Except.ok.inj hr
            obtain ⟨m', hm', hnew, hsynced⟩ := hdrained hbuffered hdrain hclear
            refine ⟨m', [z.buffer.merge N key attrs arrays], ?_, by rw [hnew]; rfl, hsynced⟩
            rw [h.finalized] at hm'
            simp [MemorySink.call, MemorySink.stage, h.finalized, h.buffer, hstage', hflush, hm']
      · simp only [hflush, if_false] at hcall ⊢
        obtain ⟨rfl, hr⟩ := Prod.mk.inj hcall
        obtain rfl := Except.ok.inj hr
        refine ⟨{ m with buffer := z.buffer.merge N key attrs arrays }, [], ?_, rfl, by simpa using hbuffered⟩
        simp [MemorySink.call, MemorySink.stage, h.finalized, h.buffer, hstage', hflush]

/-- **A run.** -/
theorem run_synced {calls : List (Call Q (NDArray E) V)} :
    ∀ {done : List (Buffer Q K (NDArray E) V)} {z : ZarrSink S Q K E V}
      {m : MemorySink Q K (NDArray E) V} {returned : List (Returned (NDArray E))},
      Synced N spec Z (done.flatMap Buffer.items) (done.flatMap (Buffer.keys N)) z m →
      ZarrSink.run N spec Z z calls = some (z', returned) →
      Clear N spec Z (done ++ z.buffer.drains N spec calls) →
      ∃ m', MemorySink.run N spec m calls = some (m', returned) ∧
        Synced N spec Z ((done ++ z.buffer.drains N spec calls).flatMap Buffer.items)
          ((done ++ z.buffer.drains N spec calls).flatMap (Buffer.keys N)) z' m' := by
  induction calls with
  | nil =>
    intro done z m returned h hrun _
    cases hrun
    refine ⟨m, rfl, ?_⟩
    rw [Buffer.drains, append_nil]
    exact h
  | cons c calls ih =>
    intro done z m returned h hrun hclear
    rw [ZarrSink.run] at hrun
    cases hcall : ZarrSink.call N spec Z z c with
    | mk z₁ result =>
      cases result with
      | error e => simp [hcall] at hrun
      | ok r =>
        simp only [hcall] at hrun
        obtain ⟨⟨z₂, rest⟩, hrest, heq⟩ := map_eq_some_iff.mp hrun
        obtain ⟨rfl, rfl⟩ := Prod.mk.inj heq
        obtain ⟨m₁, more, hm₁, hdrains, hsynced⟩ := call_spec h hcall hclear
        rw [hdrains, ← append_assoc] at hclear ⊢
        obtain ⟨m', hm', hsynced'⟩ := ih hsynced hrest hclear
        refine ⟨m', ?_, hsynced'⟩
        simp [MemorySink.run, hm₁, hm']

end Key

/-! ## From a new store -/

section New

variable {items : List (Item Q E)} {keys : List (Q × Dict String V)} {z z₀ : ZarrSink S Q K E V}
  {m : MemorySink Q K (NDArray E) V} {s₀ : S}

theorem new_synced [DecidableEq V] (hs₀ : IsNewStore Z s₀)
    (hnew : ZarrSink.new spec Z s₀ = .ok z₀) :
    z₀.buffer = .new ∧ Synced N spec Z [] [] z₀ MemorySink.new := by
  have hattrs : groupAttrs (Z.node s₀ []) = ∅ := by
    rw [hs₀.root]
    rfl
  have hnone : ∀ p field, (groupAttrs (Z.node s₀ p)).get? field = none := by
    intro p field
    by_cases hp : p = []
    · rw [hp, hattrs]
      rfl
    · rw [hs₀.below p hp]
      rfl
  have hstands : Stands N spec Z [] []
      { buffer := .new, store := s₀, rootAttrs := groupAttrs (Z.node s₀ []) } []
      (groupAttrs (Z.node s₀ [])) := by
    refine ⟨⟨fun p => ?_, fun p q hq hp => ?_, ⟨_, hs₀.root⟩⟩, ⟨_, hs₀.root⟩,
      fun field hf => absurd (hnone [] field) hf, fun p field hf => absurd (hnone p field) hf,
      fun field hf => absurd (hnone [] field) hf⟩
    · have hempty : arrayAt (Z.node s₀ p) = none := by
        by_cases hp : p = []
        · rw [hp, hs₀.root]
          rfl
        · rw [hs₀.below p hp]
          rfl
      rw [hempty]
      exact kept_nil spec.append
    · have hroot : p = [] := by
        by_contra hne
        exact hp (hs₀.below p hne)
      rw [hroot, prefix_nil] at hq
      rw [hq, hs₀.root]
      exact nofun
  simp only [ZarrSink.new] at hnew
  rw [if_neg (by rw [hnone]; simp), hnone] at hnew
  have hwrite := Results.mapError_eq_ok.mp hnew
  obtain ⟨hbuffer, hstands'⟩ := writeRootProvenance_spec hstands hwrite
  exact ⟨hbuffer, hbuffer.symm, rfl, forall_mem_nil _, hstands'.holds,
    fun _ _ => kept_nil spec.append, hstands'.nodeAttrs, hstands'.rootAttrs, forall_mem_nil _⟩

omit [DecidableEq K] in
theorem same_of_pairwise (hapart : items.Pairwise (Apart N spec Z)) {i j : Item Q E} (hi : i ∈ items)
    (hj : j ∈ items) :
    N.ident i.key = N.ident j.key ∧ i.name = j.name ↔ place N Z i.key i.name = place N Z j.key j.name := by
  have hsymm : Std.Symm fun i j : Item Q E => (N.ident i.key = N.ident j.key ∧ i.name = j.name ↔
      place N Z i.key i.name = place N Z j.key j.name) := by
    refine ⟨fun i j h => ?_⟩
    rw [eq_comm (a := N.ident j.key), eq_comm (a := j.name), eq_comm (a := place N Z j.key j.name)]
    exact h
  exact (hapart.imp Apart.same).forall_of_forall (fun _ _ => by simp) hi hj

theorem Synced.agrees (h : Synced N spec Z items keys z m)
    (hapart : items.Pairwise (Apart N spec Z)) : Agrees N spec Z items z m := by
  intro i hi
  cases hplace : place N Z i.key i.name with
  | none => exact absurd hplace (h.placed i hi)
  | some p =>
    have hkept := h.holds.arrays p
    have hvalues : valuesAt N Z items p ≠ [] := by
      refine ne_nil_of_mem (mem_map_of_mem (mem_filter.mpr ⟨hi, ?_⟩))
      simpa using hplace
    cases hthere : Z.node z.store p with
    | none =>
      rw [hthere] at hkept
      exact absurd rfl (hkept.ne_none hvalues)
    | some n =>
      cases n with
      | group attrs =>
        rw [hthere] at hkept
        exact absurd rfl (hkept.ne_none hvalues)
      | array a =>
        rw [hthere] at hkept
        refine ⟨p, a, rfl, hthere, ?_, hkept⟩
        have hsame : valuesOf N items (N.ident i.key) i.name = valuesAt N Z items p := by
          refine congrArg (map Item.array) (filter_congr fun j hj => ?_)
          have hiff := same_of_pairwise hapart hj hi
          rw [hplace] at hiff
          rw [Bool.eq_iff_iff]
          simpa using hiff
        have hstored := h.stored i.key i.name
        rw [hsame] at hstored
        exact hstored.unique hkept

/-- **The memory sink agrees with the Zarr sink**, over a new store and as long as what is drained is
clear of what was drained before: it completes the calls, it returns the same, and for every drained array
both hold what was drained there. -/
theorem sinks_agree [DecidableEq V] (hs₀ : IsNewStore Z s₀) (hnew : ZarrSink.new spec Z s₀ = .ok z₀)
    {calls : List (Call Q (NDArray E) V)} {returned : List (Returned (NDArray E))}
    (hrun : ZarrSink.run N spec Z z₀ calls = some (z, returned))
    (hclear : Clear N spec Z (Buffer.drains N spec .new calls)) :
    ∃ m, MemorySink.run N spec .new calls = some (m, returned) ∧
      Agrees N spec Z ((Buffer.drains N spec .new calls).flatMap Buffer.items) z m := by
  obtain ⟨hbuffer, hsynced⟩ := new_synced (N := N) hs₀ hnew
  have hstart : Synced N spec Z (([] : List (Buffer Q K (NDArray E) V)).flatMap Buffer.items)
      (([] : List (Buffer Q K (NDArray E) V)).flatMap (Buffer.keys N)) z₀ MemorySink.new := hsynced
  obtain ⟨m, hm, hsynced'⟩ := run_synced hstart hrun (by rwa [hbuffer])
  rw [hbuffer] at hsynced'
  exact ⟨m, hm, hsynced'.agrees hclear.apart⟩

end New

/-! ## Two keys -/

namespace TwoKeys

def naming : Naming (List String) (List String) := ⟨id, id⟩

def overwriting : Spec String where
  outputDir := some "out"
  runId := "run"
  seed := none
  provenance := ⟨"run", "now", "unknown", "unknown", "no", "xtrax", "1", none⟩
  append := false
  flushEvery := 9
  extensionSchema := none
  levelSchemas := fun _ => none

theorem length_one (n : Nat) : [n].length = [1].prod := rfl

def number (n : Nat) : NDArray Nat := ⟨"int64", [1], [n], length_one n⟩

def staged (key : List String) (name : String) (n : Nat) : Call (List String) (NDArray Nat) String :=
  .stage key ∅ ((∅ : Dict String (NDArray Nat)).set name (number n))

def empty : Nodes Nat String := fun p => if p = [] then some (.group ∅) else none

theorem empty_isNewStore : IsNewStore (tree Nat String) empty := ⟨rfl, fun _ hp => if_neg hp⟩

def opened : ZarrSink (Nodes Nat String) (List String) (List String) Nat String where
  buffer := .new
  store := Function.update empty [] (some (.group ((∅ : Dict String String).update overwriting.provenance.record)))
  rootAttrs := (∅ : Dict String String).update overwriting.provenance.record

def leaves (spec : Spec String) (calls : List (Call (List String) (NDArray Nat) String))
    (p : Location) : Option (Option (NDArray Nat)) :=
  (ZarrSink.run naming spec (tree Nat String) opened calls).map fun e => arrayAt (e.1.store p)

/-- Arrays grow, and every second call of `stage` drains. -/
def appending : Spec String := { overwriting with append := true, flushEvery := 2 }

/-- Attrs and an array `x` of the key `a`, an array of the key `b`, and more of the first array. -/
def growing : List (Call (List String) (NDArray Nat) String) :=
  [.stage ["a"] ((∅ : Dict String String).set "unit" "m")
      ((∅ : Dict String (NDArray Nat)).set "x" (number 1)),
    staged ["b"] "x" 2, staged ["a"] "x" 3, .drain]

theorem apart_growing {k k' : List String} (hk : k ∈ [["a"], ["b"]]) (hk' : k' ∈ [["a"], ["b"]])
    (u u' : NDArray Nat) : Apart naming appending (tree Nat String) ⟨k, "x", u⟩ ⟨k', "x", u'⟩ := by
  have hplace : ∀ k ∈ [["a"], ["b"]], place naming (tree Nat String) k "x" = some (k ++ ["x"]) ∧
      k.length = 1 := by
    decide
  obtain ⟨hp, hlength⟩ := hplace k hk
  obtain ⟨hp', hlength'⟩ := hplace k' hk'
  refine ⟨?_, nofun, fun p q hi hj hprefix => ?_⟩
  · rw [hp, hp']
    simp [naming]
  · obtain rfl := some.inj (hp.symm.trans hi)
    obtain rfl := some.inj (hp'.symm.trans hj)
    have hle := hprefix.length_le
    simp only [length_append, length_singleton] at hle
    omega

theorem growing_clear :
    Clear naming appending (tree Nat String) (drains naming appending .new growing) := by
  have hitems : (drains naming appending .new growing).flatMap items =
      [⟨["a"], "x", number 1⟩, ⟨["b"], "x", number 2⟩, ⟨["a"], "x", number 3⟩] := rfl
  have hx : (tree Nat String).locate "x" = .ok ["x"] := by decide
  refine ⟨?_, ?_, fun _ _ _ _ _ _ _ hschema => absurd hschema.symm (some_ne_none _)⟩
  · rw [hitems]
    intro i hi l hl
    have hname : i.name = "x" := by
      simp only [mem_cons, not_mem_nil, or_false] at hi
      rcases hi with rfl | rfl | rfl <;> rfl
    rw [hname, hx] at hl
    obtain rfl := Except.ok.inj hl
    decide
  · rw [hitems]
    simp only [pairwise_cons, mem_cons, not_mem_nil, or_false, forall_eq_or_imp, forall_eq]
    exact ⟨⟨apart_growing (by simp) (by simp) _ _, apart_growing (by simp) (by simp) _ _⟩,
      apart_growing (by simp) (by simp) _ _, fun _ h => h.elim, .nil⟩

theorem sinks_agree_growing : ∃ z returned m,
    ZarrSink.run naming appending (tree Nat String) opened growing = some (z, returned) ∧
      arrayAt (z.store ["a", "x"]) = some ⟨"int64", [2], [1, 3], rfl⟩ ∧
      MemorySink.run naming appending .new growing = some (m, returned) ∧
      Agrees naming appending (tree Nat String)
        ((Buffer.drains naming appending .new growing).flatMap Buffer.items) z m := by
  have hleaves : leaves appending growing ["a", "x"] = some (some ⟨"int64", [2], [1, 3], rfl⟩) := by
    decide
  obtain ⟨⟨z, returned⟩, hrun, harray⟩ := Option.map_eq_some_iff.mp hleaves
  have hnew : new appending (tree Nat String) empty = .ok opened := rfl
  obtain ⟨m, hm, hagrees⟩ := sinks_agree empty_isNewStore hnew hrun growing_clear
  exact ⟨z, returned, m, hrun, harray, hm, hagrees⟩

/-- The array `x` of the key `a/b`, and then an array `b` of the key `a`, which is written over the group
`a/b`. -/
def above : List (Call (List String) (NDArray Nat) String) :=
  [staged ["a", "b"] "x" 1, .drain, staged ["a"] "b" 2, .drain]

/-- Draining one key removes the array drained under the other. -/
theorem array_lost :
    ¬ ∀ z returned, ZarrSink.run naming overwriting (tree Nat String) opened above = some (z, returned) →
      ∃ m, MemorySink.run naming overwriting .new above = some (m, returned) ∧
        Agrees naming overwriting (tree Nat String)
          ((Buffer.drains naming overwriting .new above).flatMap Buffer.items) z m := by
  intro h
  have hleaves : leaves overwriting above ["a", "b", "x"] = some none := by decide
  obtain ⟨⟨z, returned⟩, hrun, hnone⟩ := Option.map_eq_some_iff.mp hleaves
  obtain ⟨m, -, hagrees⟩ := h z returned hrun
  have hplace : place naming (tree Nat String) ["a", "b"] "x" = some ["a", "b", "x"] := by decide
  obtain ⟨p, a, hp, ha, -⟩ := hagrees ⟨["a", "b"], "x", number 1⟩ List.mem_cons_self
  obtain rfl := Option.some.inj (hplace.symm.trans hp)
  have ha : z.store ["a", "b", "x"] = some (.array a) := ha
  rw [ha] at hnone
  cases hnone

end TwoKeys

end Xtrax.StagingBuffer
