import Xtrax.StagingSinkRuns
import Xtrax.ZarrSink

/-! # The Zarr sink and the memory sink

The memory sink keeps what was drained under a key, the Zarr sink at a location, and on disk the names of
arrays and the parts of keys are names alike.  The two hold the same arrays as long as drained arrays and
their locations belong together one to one, and no array is created above one that was drained before
(`Apart`); and what one raises for missing attrs the other does, unless a field of a key comes from
elsewhere (`AttrsOwn`).

The sinks have one buffer at any time, so what is drained is known from the calls alone
(`Buffer.drains`).
-/
namespace Xtrax.StagingBuffer

open StagingSink List

open StagingSink (NDArray Reject concatenate concatenate_append stack)
open ZarrNodes

/-- An array that a drain writes. -/
structure Item (Q E : Type) where
  key : Q
  name : String
  array : NDArray E

section Defs

variable {S Q K E V X : Type} [DecidableEq K] (N : Naming Q K) (spec : Spec V) (Z : Zarr S E V X)

/-! ## What is drained -/

namespace Buffer

/-- The arrays that a drain writes, in order. -/
def items (b : Buffer Q K (NDArray E) V) : List (Item Q E) :=
  b.pending.entries.flatMap fun e => e.2.2.entries.map fun a => ⟨e.2.1, a.1, a.2⟩

/-- The keys that a drain writes, with their attrs. -/
def keys (b : Buffer Q K (NDArray E) V) : List (Q × Dict String V) :=
  b.pending.entries.map fun e => (e.2.1, lookup N b.pendingAttrs e.2.1)

/-- The buffers that are drained in calls of which none raises. -/
def drains (b : Buffer Q K (NDArray E) V) :
    List (Call Q (NDArray E) V) → List (Buffer Q K (NDArray E) V)
  | [] => []
  | .stage key attrs arrays :: calls =>
    let b := b.merge N key attrs arrays
    if spec.flushEvery ≤ b.stagedSinceDrain then b :: drains .new calls else drains b calls
  | .take key :: calls => drains (b.take (R := Empty) N key).1 calls
  | .drain :: calls => b :: drains .new calls

end Buffer

/-- The location of a key's group. -/
def groupPlace (key : Q) : Option Location :=
  if N.path key = "" then some [] else (Z.locate (N.path key)).toOption

/-- The location of an array. -/
def place (key : Q) (name : String) : Option Location := do
  let p ← groupPlace N Z key
  let l ← (Z.locate name).toOption
  return p ++ l

/-- The arrays drained under a key and a name. -/
def valuesOf (items : List (Item Q E)) (k : K) (name : String) : List (NDArray E) :=
  (items.filter fun i => N.ident i.key = k ∧ i.name = name).map Item.array

/-- The arrays drained to a location. -/
def valuesAt (items : List (Item Q E)) (p : Location) : List (NDArray E) :=
  (items.filter fun i => place N Z i.key i.name = some p).map Item.array

/-- What drained arrays come to: the last one, or all of them one behind the other. -/
def Kept (append : Bool) (values : List (NDArray E)) (there : Option (NDArray E)) : Prop :=
  if append then concatenate none values = some there else values.getLast? = there

/-- A drain of a key writes an attr of this name. -/
def Stamps (d : Q × Dict String V) (field : String) : Prop :=
  d.2.get? field ≠ none ∨ field ∈ spec.provenance.pointer.map Prod.fst

/-! ## When they agree -/

/-- Two drained arrays, the first before the second. -/
structure Apart (i j : Item Q E) : Prop where
  /-- They are written to one place if and only if they have one key and one name. -/
  same : N.ident i.key = N.ident j.key ∧ i.name = j.name ↔ place N Z i.key i.name = place N Z j.key j.name
  /-- An array that is created takes away what is below it. -/
  below : spec.append = false → ∀ p q, place N Z i.key i.name = some p →
    place N Z j.key j.name = some q → q <+: p → q = p
  /-- Nor is the second among the chunks of the first. -/
  chunks : ∀ p q, place N Z i.key i.name = some p → place N Z j.key j.name = some q →
    ¬ p ++ ["c"] <+: q

/-- A field that is asked for and that the store has at the key's group was drained with the key. -/
def AttrsOwn (before : List (Q × Dict String V)) (b : Buffer Q K (NDArray E) V) : Prop :=
  ∀ e ∈ b.pendingAttrs.entries, ∀ schema, spec.schemaForKey N e.2.1 = some schema →
    ∀ field ∈ schema.required, e.2.2.get? field = none →
      ((∃ d ∈ before, groupPlace N Z d.1 = groupPlace N Z e.2.1 ∧ Stamps spec d field) ∨
        groupPlace N Z e.2.1 = some [] ∧ field ∈ spec.provenance.record.map Prod.fst) →
      ∃ d ∈ before, N.ident d.1 = N.ident e.2.1 ∧ Stamps spec d field

/-- **The condition.** -/
structure Clear (drained : List (Buffer Q K (NDArray E) V)) : Prop where
  /-- No array has the place of its group. -/
  named : ∀ i ∈ drained.flatMap Buffer.items, ∀ l, Z.locate i.name = .ok l → l ≠ []
  apart : (drained.flatMap Buffer.items).Pairwise (Apart N spec Z)
  attrs : ∀ before b after, drained = before ++ b :: after →
    AttrsOwn N spec Z (before.flatMap (Buffer.keys N)) b

/-- A store without nodes below its root, which has no attrs. -/
structure IsNewStore (store : S) : Prop where
  root : Z.node store [] = some (.group ∅)
  below : ∀ p, p ≠ [] → Z.node store p = none

/-- Both sinks hold what was drained, under the key and at the location. -/
def Agrees (items : List (Item Q E)) (z : ZarrSink S Q K E V) (m : MemorySink Q K (NDArray E) V) :
    Prop :=
  ∀ i ∈ items, ∃ p a, place N Z i.key i.name = some p ∧ Z.node z.store p = some (.array a) ∧
    (lookup N m.committed i.key).get? i.name = some a ∧
    Kept spec.append (valuesAt N Z items p) (some a)

/-- `MemorySink` after some calls and what they returned; nothing where one of them raises. -/
def MemorySink.run (m : MemorySink Q K (NDArray E) V) :
    List (Call Q (NDArray E) V) → Option (MemorySink Q K (NDArray E) V × List (Returned (NDArray E)))
  | [] => some (m, [])
  | c :: calls =>
    match m.call N spec (StagingSink.storeArray spec.append) c with
    | (_, .error _) => none
    | (m, .ok r) => (MemorySink.run m calls).map fun (m, returned) => (m, r :: returned)

end Defs

/-! ## Values one behind the other -/

section Kept

variable {E : Type} {append : Bool} {values : List (NDArray E)} {there there' : Option (NDArray E)}
  {a : NDArray E}

theorem kept_nil (append : Bool) : Kept append ([] : List (NDArray E)) none := by
  unfold Kept
  split <;> rfl

theorem Kept.unique (h : Kept append values there) (h' : Kept append values there') : there = there' := by
  unfold Kept at h h'
  split at h
  · rw [if_pos ‹_›, h] at h'
    exact Option.some.inj h'
  · rw [if_neg ‹_›] at h'
    exact h.symm.trans h'

theorem concatenate_ne_none (hne : values ≠ []) : concatenate none values ≠ some none := by
  obtain ⟨front, a, rfl⟩ := (eq_nil_or_concat values).resolve_left hne
  rw [concat_eq_append, concatenate_append]
  intro h
  obtain ⟨o, -, ho⟩ := Option.bind_eq_some_iff.mp h
  rw [concatenate, foldlM_cons] at ho
  cases hstack : stack o a with
  | none => simp [hstack] at ho
  | some b => simp [hstack] at ho

theorem Kept.ne_none (h : Kept append values there) (hne : values ≠ []) : there ≠ none := by
  rintro rfl
  unfold Kept at h
  split at h
  · exact concatenate_ne_none hne h
  · exact hne (getLast?_eq_none_iff.mp h)

theorem storeArray_eq_ok {b : NDArray E} (h : storeArray append there a = .ok b) :
    if append then stack there a = some b else b = a := by
  unfold storeArray at h
  cases append with
  | false => exact (Except.ok.inj h).symm
  | true =>
    cases there with
    | none => exact congrArg some (Except.ok.inj h)
    | some existing =>
      have happend : appendTo none existing a = .ok b := h
      by_cases hfits : existing.Fits a
      · rw [appendTo_ok hfits] at happend
        simpa [stack, hfits] using happend
      · obtain ⟨e, he⟩ := appendTo_error none hfits
        rw [he] at happend
        cases happend

/-- **One more value** is stored. -/
theorem Kept.push (h : Kept append values there) {b : NDArray E}
    (hstore : storeArray append there a = .ok b) :
    Kept append (values ++ [a]) (some b) := by
  have hb := storeArray_eq_ok hstore
  unfold Kept at h ⊢
  cases append with
  | false => simpa using hb.symm
  | true =>
    rw [if_pos rfl] at h hb ⊢
    rw [concatenate_append, h, Option.bind_some, concatenate, foldlM_cons, hb]
    rfl

end Kept

/-! ## One array -/

section Arrays

variable {S Q K E V X : Type} {N : Naming Q K} {spec : Spec V} {Z : Zarr S E V X}
  {items : List (Item Q E)} {node node' : Nodes E V} {s s' : S} {key : Q} {name : String}
  {array b : NDArray E} {group p : Location} {attrs : Dict String V}

/-- **The arrays of a store** are those that were drained. -/
structure Holds (N : Naming Q K) (spec : Spec V) (Z : Zarr S E V X) (node : Nodes E V)
    (items : List (Item Q E)) : Prop where
  arrays : ∀ p, Kept spec.append (valuesAt N Z items p) (arrayAt (node p))
  closed : Closed node
  root : ∃ attrs, node [] = some (.group attrs)

theorem valuesAt_concat (hplace : place N Z key name = some p) (q : Location) :
    valuesAt N Z (items ++ [⟨key, name, array⟩]) q =
      valuesAt N Z items q ++ if q = p then [array] else [] := by
  unfold valuesAt
  rw [filter_append, map_append]
  by_cases hq : q = p
  · simp [hplace, hq]
  · simp [hplace, hq, Ne.symm hq]

theorem Holds.exists_item (h : Holds N spec Z node items) (ha : arrayAt (node p) ≠ none) :
    ∃ i ∈ items, place N Z i.key i.name = some p := by
  have hkept := h.arrays p
  have hne : valuesAt N Z items p ≠ [] := by
    intro hnil
    rw [hnil] at hkept
    exact ha (hkept.unique (kept_nil spec.append))
  obtain ⟨i, hi⟩ := exists_mem_of_ne_nil _ (fun hnil => hne (map_eq_nil_iff.mpr hnil))
  obtain ⟨hmem, hplace⟩ := mem_filter.mp hi
  exact ⟨i, hmem, by simpa using hplace⟩

theorem Holds.wrote (h : Holds N spec Z node items) (hplace : place N Z key name = some p)
    (hstore : storeArray spec.append (arrayAt (node p)) array = .ok b)
    (hwrote : Wrote node node' p b) (hne : p ≠ []) :
    Holds N spec Z node' (items ++ [⟨key, name, array⟩]) where
  arrays q := by
    rw [valuesAt_concat hplace, hwrote.arrays]
    by_cases hq : q = p
    · rw [if_pos hq, if_pos hq, hq]
      exact (h.arrays p).push hstore
    · rw [if_neg hq, if_neg hq, append_nil]
      exact h.arrays q
  closed := hwrote.closed h.closed
  root := by
    obtain ⟨attrs, hroot⟩ := h.root
    exact ⟨attrs, hwrote.parents [] attrs nil_prefix (Ne.symm hne) hroot⟩

/-- **Writing an array** stores what the memory sink would, and spares the others. -/
theorem writeArray_spec (h : Holds N spec Z (Z.node s) items) (hgroup : groupPlace N Z key = some group)
    (hwrite : ZarrSink.writeArray Z spec.append s group name array = .ok s')
    (hapart : ∀ i ∈ items, Apart N spec Z i ⟨key, name, array⟩)
    (hnamed : ∀ l, Z.locate name = .ok l → l ≠ []) :
    ∃ p b, place N Z key name = some p ∧ group <+: p ∧ group ≠ p ∧
      StagingSink.storeArray spec.append (arrayAt (Z.node s p)) array = .ok b ∧
      Wrote (Z.node s) (Z.node s') p b := by
  unfold ZarrSink.writeArray at hwrite
  cases hlocate : Z.locate name with
  | error e => simp [hlocate, Except.mapError, bind, Except.bind] at hwrite
  | ok l =>
    simp only [hlocate, Except.mapError, bind, Except.bind] at hwrite
    have hplace : place N Z key name = some (group ++ l) := by
      simp [place, hgroup, hlocate, Except.toOption]
    have hne : group ≠ group ++ l := by
      intro heq
      exact hnamed l hlocate (by simpa using heq.symm)
    have hchunks : ∀ q, ¬ InChunks (Z.node s) q (group ++ l) := by
      rintro q ⟨⟨a, ha⟩, hc⟩
      obtain ⟨i, hi, hq⟩ := h.exists_item (p := q) (by rw [ha]; exact Option.some_ne_none _)
      exact (hapart i hi).chunks q _ hq hplace hc
    refine ⟨group ++ l, ?_⟩
    cases hthere : if spec.append = true then Z.node s (group ++ l) else none with
    | none =>
      -- the array is created
      simp only [hthere] at hwrite
      have hstore : StagingSink.storeArray spec.append (arrayAt (Z.node s (group ++ l))) array =
          .ok array := by
        unfold StagingSink.storeArray
        by_cases happend : spec.append = true
        · rw [if_pos happend] at hthere
          simp [hthere, arrayAt]
        · simp [happend]
      cases hcreate : Z.createArray s (group ++ l) array with
      | error e => simp [hcreate] at hwrite
      | ok created =>
        obtain rfl : created = s' := by simpa [hcreate] using hwrite
        refine ⟨array, hplace, prefix_append .., hne, hstore,
          (Z.createArray_ok _ _ _ _ hcreate).wrote (fun q hq hqne => ?_) hchunks⟩
        by_cases happend : spec.append = true
        · rw [if_pos happend] at hthere
          have hnone : Z.node s q = none := by
            by_contra hsome
            exact h.closed q _ hq hsome hthere
          rw [hnone]
          rfl
        · by_contra hsome
          obtain ⟨i, hi, hplace'⟩ := h.exists_item hsome
          exact hqne ((hapart i hi).below (by simpa using happend) q _ hplace' hplace hq).symm
    | some n =>
      cases n with
      | group attrs => simp [hthere] at hwrite
      | array existing =>
        -- the array is extended
        have happend : spec.append = true := by
          by_contra happend
          simp [happend] at hthere
        rw [if_pos happend] at hthere
        simp only [happend, if_true, hthere] at hwrite
        cases hconflict : StagingSink.conflict (some name) existing array with
        | some e => simp [hconflict] at hwrite
        | none =>
          simp only [hconflict] at hwrite
          have hfits := StagingSink.conflict_eq_none_iff.mp hconflict
          cases hextend : Z.extendArray s (group ++ l) array with
          | error e => simp [hextend] at hwrite
          | ok extended =>
            obtain rfl : extended = s' := by simpa [hextend] using hwrite
            refine ⟨existing.extend array hfits.toStackable, hplace, prefix_append .., hne, ?_,
              (Z.extendArray_ok _ _ _ _ _ hthere hfits.toStackable hextend).wrote ?_⟩
            · rw [hthere, happend]
              exact StagingSink.appendTo_ok hfits
            · simp [hthere]

/-! ## The arrays of a key -/

variable [DecidableEq K]

theorem valuesOf_concat (k : K) (n : String) :
    valuesOf N (items ++ [⟨key, name, array⟩]) k n =
      valuesOf N items k n ++ if N.ident key = k ∧ name = n then [array] else [] := by
  unfold valuesOf
  rw [filter_append, map_append]
  by_cases hk : N.ident key = k ∧ name = n
  · simp [hk]
  · simp [hk]

theorem valuesOf_eq_valuesAt
    (hapart : ∀ i ∈ items, Apart N spec Z i ⟨key, name, array⟩) (hplace : place N Z key name = some p) :
    valuesOf N items (N.ident key) name = valuesAt N Z items p := by
  unfold valuesOf valuesAt
  refine congrArg (map Item.array) (filter_congr fun i hi => ?_)
  have hsame := (hapart i hi).same
  rw [hplace] at hsame
  rw [Bool.eq_iff_iff]
  simpa using hsame

/-- What a key's drain leaves of the nodes other than its arrays. -/
structure Spares (node node' : Nodes E V) (group : Location) : Prop where
  attrs : ∀ q f, (groupAttrs (node' q)).get? f ≠ none → (groupAttrs (node q)).get? f ≠ none
  group : ∀ attrs, node group = some (.group attrs) → node' group = some (.group attrs)

theorem Spares.refl (node : Nodes E V) (group : Location) : Spares node node group :=
  ⟨fun _ _ => id, fun _ => id⟩

theorem Spares.trans {node'' : Nodes E V} (h : Spares node node' group) (h' : Spares node' node'' group) :
    Spares node node'' group :=
  ⟨fun q f hf => h.attrs q f (h'.attrs q f hf), fun attrs hg => h'.group attrs (h.group attrs hg)⟩

/-- The arrays of a key, as items. -/
def itemsOf (key : Q) (arrays : List (String × NDArray E)) : List (Item Q E) :=
  arrays.map fun e => ⟨key, e.1, e.2⟩

/-- **Writing the arrays of a key**: the memory sink can plan them, and its plan is what is written. -/
theorem writeArrays_spec {stored : Dict String (NDArray E)} (hgroup : groupPlace N Z key = some group) :
    ∀ {arrays : List (String × NDArray E)} {items : List (Item Q E)} {s : S},
      Holds N spec Z (Z.node s) items →
      ZarrSink.writeArrays Z spec.append group arrays s = (s', none) →
      (arrays.map Prod.fst).Nodup →
      (∀ e ∈ arrays, Kept spec.append (valuesOf N items (N.ident key) e.1) (stored.get? e.1)) →
      (items ++ itemsOf key arrays).Pairwise (Apart N spec Z) →
      (∀ e ∈ arrays, ∀ l, Z.locate e.1 = .ok l → l ≠ []) →
      ∃ plan, MemorySink.planned (storeArray spec.append) stored arrays = .ok plan ∧
        plan.map Prod.fst = arrays.map Prod.fst ∧
        (∀ e ∈ plan, Kept spec.append
          (valuesOf N (items ++ itemsOf key arrays) (N.ident key) e.1) (some e.2)) ∧
        (∀ e ∈ arrays, place N Z key e.1 ≠ none) ∧
        Holds N spec Z (Z.node s') (items ++ itemsOf key arrays) ∧
        Spares (Z.node s) (Z.node s') group := by
  intro arrays
  induction arrays with
  | nil =>
    intro items s hholds hwrite _ _ _ _
    obtain ⟨rfl, -⟩ := Prod.mk.inj hwrite
    refine ⟨[], rfl, rfl, by simp, by simp, ?_, Spares.refl _ _⟩
    simpa [itemsOf] using hholds
  | cons e rest ih =>
    intro items s hholds hwrite hnodup hstored hapart hnamed
    obtain ⟨name, array⟩ := e
    obtain ⟨hfresh, hnodup⟩ := nodup_cons.mp hnodup
    obtain ⟨hkept, hstored⟩ := forall_mem_cons.mp hstored
    obtain ⟨hname, hnamed⟩ := forall_mem_cons.mp hnamed
    have hitems : items ++ itemsOf key ((name, array) :: rest) =
        items ++ [⟨key, name, array⟩] ++ itemsOf key rest := by simp [itemsOf]
    rw [hitems] at hapart ⊢
    have hbefore : ∀ i ∈ items, Apart N spec Z i ⟨key, name, array⟩ := by
      have hfront := (pairwise_append.mp hapart).1
      exact fun i hi => (pairwise_append.mp hfront).2.2 i hi _ (mem_singleton.mpr rfl)
    rw [ZarrSink.writeArrays] at hwrite
    cases hone : ZarrSink.writeArray Z spec.append s group name array with
    | error e => simp [hone] at hwrite
    | ok s₁ =>
      simp only [hone] at hwrite
      obtain ⟨p, b, hplace, hprefix, hne, hstore, hwrote⟩ :=
        writeArray_spec hholds hgroup hone hbefore hname
      have hp : p ≠ [] := by
        rintro rfl
        exact hne (prefix_nil.mp hprefix)
      have hnext := hholds.wrote hplace hstore hwrote hp
      -- the names of the rest are others
      have hrest : ∀ e ∈ rest, Kept spec.append
          (valuesOf N (items ++ [⟨key, name, array⟩]) (N.ident key) e.1) (stored.get? e.1) := by
        intro e he
        have hother : name ≠ e.1 := fun heq => hfresh (mem_map.mpr ⟨e, he, heq.symm⟩)
        rw [valuesOf_concat, if_neg (by simp [hother]), append_nil]
        exact hstored e he
      obtain ⟨plan, hplan, hnames, hvalues, hplaces, hholds', hspares⟩ :=
        ih hnext hwrite hnodup hrest hapart hnamed
      have hsame : stored.get? name = arrayAt (Z.node s p) := by
        refine hkept.unique ?_
        rw [valuesOf_eq_valuesAt hbefore hplace]
        exact hholds.arrays p
      refine ⟨(name, b) :: plan, ?_, by simp [hnames], ?_, ?_, hholds', ?_⟩
      · rw [MemorySink.planned, hsame, hstore, hplan]
        rfl
      · refine forall_mem_cons.mpr ⟨?_, hvalues⟩
        have hlater : valuesOf N (items ++ [⟨key, name, array⟩] ++ itemsOf key rest) (N.ident key) name =
            valuesOf N items (N.ident key) name ++ [array] := by
          have hnone : valuesOf N (itemsOf key rest) (N.ident key) name = [] := by
            refine map_eq_nil_iff.mpr (filter_eq_nil_iff.mpr fun i hi => ?_)
            obtain ⟨e, he, rfl⟩ := mem_map.mp hi
            have hother : e.1 ≠ name := fun heq => hfresh (mem_map.mpr ⟨e, he, heq⟩)
            simp [hother]
          have happend : ∀ l l' : List (Item Q E), valuesOf N (l ++ l') (N.ident key) name =
              valuesOf N l (N.ident key) name ++ valuesOf N l' (N.ident key) name := by
            intro l l'
            rw [valuesOf, filter_append, map_append]
            rfl
          rw [happend, hnone, append_nil, valuesOf_concat, if_pos ⟨rfl, rfl⟩]
        rw [hlater]
        exact hkept.push (hsame ▸ hstore)
      · exact forall_mem_cons.mpr ⟨by rw [hplace]; exact nofun, hplaces⟩
      · exact Spares.trans ⟨hwrote.attrs, fun attrs hg => hwrote.parents _ attrs hprefix hne hg⟩ hspares

end Arrays

end Xtrax.StagingBuffer
