import Xtrax.Machine
import Xtrax.StagingSink

/-! # What drains write over a sink's life

The buffer of a sink over any sequence of `stage`, `take` and `drain`, with drains that
`stage` starts by itself and drains that are refused.  The log `written` is what the drains
have written, and the array a name has in a group is always what the log says (`Stacked`).

That a staged value is written once, and in the order of staging (`InOrder`), needs more: a
drain that is rejected leaves the whole buffer pending, so what it has written for earlier keys
is written again by the next drain.  It holds in the runs in which a drain that is rejected is
rejected at the first key that has arrays (`FailsFirst`).
-/
namespace Xtrax.StagingSink

open Function Dict List Option Interleaving

/-- An array that a drain has written. -/
structure Written (K E : Type) where
  key : K
  name : String
  staged : Staged E

/-- A sink in exclusive mode; `groups` is its store. -/
structure Sink (K P E : Type) where
  pending : Dict K (Dict String (Staged E))
  stagedSinceDrain : Nat
  groups : P → Group E
  nextId : Nat
  written : List (Written K E)

inductive Refusal
  | incomplete
  | rejected (e : Reject)
  | noPending
  deriving DecidableEq, Repr

/-- `incomplete` says whether `_validate_required_before_drain` raises, if it is reached. -/
inductive Event (K E : Type)
  | stage (key : K) (arrays : List (String × NDArray E)) (incomplete : Bool)
  | take (key : K)
  | drain (incomplete : Bool)

section
variable {K P E : Type} [DecidableEq K] [DecidableEq P]
variable (f : Format) (append : Bool) (path : K → P) (flushEvery : Nat)

/-- The loop of `drain` over the keys: the store, what was written, and the exception. -/
def drainKeys (groups : P → Group E) :
    List (K × Dict String (Staged E)) → (P → Group E) × List (Written K E) × Option Reject
  | [] => (groups, [], none)
  | (key, arrays) :: rest =>
    let (group, written, e) := drainKey E f append (groups (path key)) arrays.entries
    let groups := Function.update groups (path key) group
    let log := written.map fun e => Written.mk key e.1 e.2
    match e with
    | some e => (groups, log, some e)
    | none =>
      let (groups, more, e) := drainKeys groups rest
      (groups, log ++ more, e)

def drain (s : Sink K P E) (incomplete : Bool) : Sink K P E × Except Refusal Unit :=
  if incomplete then (s, .error .incomplete)
  else
    match drainKeys f append path s.groups s.pending.entries with
    | (groups, log, some e) =>
      ({ s with groups := groups, written := s.written ++ log }, .error (.rejected e))
    | (groups, log, none) =>
      ({ s with
          pending := ∅
          stagedSinceDrain := 0
          groups := groups
          written := s.written ++ log }, .ok ())

/-- The staged arrays of a call, numbered. -/
def number (nextId : Nat) (arrays : List (String × NDArray E)) : List (String × Staged E) :=
  (arrays.zipIdx nextId).map fun e => (e.1.1, { id := e.2, value := e.1.2 })

/-- `stage` up to its drain. -/
def buffer (s : Sink K P E) (key : K) (arrays : List (String × NDArray E)) : Sink K P E :=
  { s with
    pending :=
      s.pending.set key (((s.pending.get? key).getD ∅).update (number s.nextId arrays))
    stagedSinceDrain := s.stagedSinceDrain + 1
    nextId := s.nextId + arrays.length }

def stage (s : Sink K P E) (key : K) (arrays : List (String × NDArray E)) (incomplete : Bool) :
    Sink K P E × Except Refusal Unit :=
  let s := buffer s key arrays
  if flushEvery ≤ s.stagedSinceDrain then drain f append path s incomplete else (s, .ok ())

def take (s : Sink K P E) (key : K) : Sink K P E × Except Refusal (Dict String (Staged E)) :=
  match s.pending.get? key with
  | some arrays => ({ s with pending := s.pending.erase key }, .ok arrays)
  | none => (s, .error .noPending)

def step (s : Sink K P E) : Event K E → Sink K P E
  | .stage key arrays incomplete => (stage f append path flushEvery s key arrays incomplete).1
  | .take key => (take s key).1
  | .drain incomplete => (drain f append path s incomplete).1

/-- A new sink over a store that may have arrays. -/
structure Opened (groups₀ : P → Group E) (s : Sink K P E) : Prop where
  pending : s.pending.entries = []
  written : s.written = []
  groups : s.groups = groups₀

def machine (groups₀ : P → Group E) : Machine (Sink K P E) (Event K E) where
  init := Opened groups₀
  step s e := some (step f append path flushEvery s e)

end

/-! ## What is wanted -/

section
variable {K P E : Type} [DecidableEq K] [DecidableEq P] (path : K → P)

/-- The values that were written to a name of a group. -/
def values (p : P) (name : String) (log : List (Written K E)) : List (NDArray E) :=
  (log.filter fun w => path w.key = p ∧ w.name = name).map (·.staged.value)

/-- The arrays one behind the other, behind what was there; `none` if they do not fit. -/
def concatenate (start : Option (NDArray E)) (arrays : List (NDArray E)) :
    Option (Option (NDArray E)) :=
  arrays.foldlM (fun there array => (stack there array).map some) start

/-- What is stored is what was stored at first with the written values behind it. -/
def Stacked (groups₀ groups : P → Group E) (log : List (Written K E)) : Prop :=
  ∀ p name, concatenate (groups₀ p name) (values path p name log) = some (groups p name)

/-- Of one key and name, the written values are in the order they were staged in, and each
is there once. -/
def InOrder (log : List (Written K E)) : Prop :=
  log.Pairwise fun w w' => w.key = w'.key → w.name = w'.name → w.staged.id < w'.staged.id

/-! ## A drain that fails writes nothing -/

/-- What is known of the arrays a drain finds, once it has written a key: the first of a name
decides what can be appended. -/
def remember (known : P → Group E) (p : P) (arrays : List (String × Staged E)) : P → Group E :=
  Function.update known p fun name =>
    (known p name).or ((arrays.find? fun e => e.1 = name).map (·.2.value))

/-- No array of any key is rejected, one key after the other. -/
def AppendsAll (known : P → Group E) : List (K × Dict String (Staged E)) → Prop
  | [] => True
  | (key, arrays) :: rest =>
    Appendable (known (path key)) arrays.entries ∧
      AppendsAll (remember known (path key) arrays.entries) rest

/-- If an array is rejected, then one of the first key that has arrays. -/
def FailsFirst (known : P → Group E) : List (K × Dict String (Staged E)) → Prop
  | [] => True
  | (key, arrays) :: rest =>
    if arrays.entries = [] then FailsFirst known rest
    else Appendable (known (path key)) arrays.entries →
      AppendsAll path (remember known (path key) arrays.entries) rest

/-- The event starts no drain, or one that is refused before it writes, or one whose
rejection comes first. -/
def SparesBuffer (flushEvery : Nat) (s : Sink K P E) : Event K E → Prop
  | .stage key arrays incomplete =>
    flushEvery ≤ (buffer s key arrays).stagedSinceDrain → incomplete = false →
      FailsFirst path s.groups (buffer s key arrays).pending.entries
  | .take _ => True
  | .drain incomplete => incomplete = false → FailsFirst path s.groups s.pending.entries

instance (log : List (Written K E)) : Decidable (InOrder log) :=
  inferInstanceAs (Decidable (List.Pairwise _ _))

instance decidableAppendsAll : ∀ (known : P → Group E) (l : List (K × Dict String (Staged E))),
    Decidable (AppendsAll path known l)
  | _, [] => .isTrue trivial
  | known, (key, arrays) :: rest =>
    have := decidableAppendsAll (remember known (path key) arrays.entries) rest
    inferInstanceAs (Decidable (_ ∧ _))

instance decidableFailsFirst (known : P → Group E) : ∀ l : List (K × Dict String (Staged E)),
    Decidable (FailsFirst path known l)
  | [] => .isTrue trivial
  | (key, arrays) :: rest => by
    have := decidableFailsFirst known rest
    unfold FailsFirst
    exact match arrays.entries with
      | [] => by
        rw [if_pos rfl]
        exact this
      | e :: l => by
        rw [if_neg (List.cons_ne_nil e l)]
        infer_instance

instance (flushEvery : Nat) (s : Sink K P E) : DecidablePred (SparesBuffer path flushEvery s)
  | .stage .. => inferInstanceAs (Decidable (_ ≤ _ → _ = _ → FailsFirst ..))
  | .take _ => .isTrue trivial
  | .drain _ => inferInstanceAs (Decidable (_ = _ → FailsFirst ..))

end

/-! ## One drain -/

section
variable {E : Type}

theorem extend_fits_iff {a b c : NDArray E} (h : a.Stackable b) :
    (a.extend b h).Fits c ↔ a.Fits c := by
  constructor
  · intro hfits
    exact ⟨⟨h.left, hfits.right, hfits.trailing⟩, hfits.dtype⟩
  · intro hfits
    exact ⟨⟨by simp [NDArray.extend], hfits.right, hfits.trailing⟩, hfits.dtype⟩

theorem stack_isSome_iff {there array : NDArray E} :
    (stack (some there) array).isSome = true ↔ there.Fits array := by
  simp [stack]

/-- The same arrays are there, up to how many rows they have. -/
def Alike (a b : Option (NDArray E)) : Prop :=
  a.isSome = b.isSome ∧ ∀ array, (stack a array).isSome = (stack b array).isSome

theorem Alike.refl (a : Option (NDArray E)) : Alike a a := ⟨rfl, fun _ => rfl⟩

theorem Alike.stacked {a b : Option (NDArray E)} (h : Alike a b) {array : NDArray E}
    (hfits : (stack b array).isSome) : Alike (a.or (some array)) (stack b array) := by
  cases hb : b with
  | none =>
    have ha : a = none := by
      rw [← not_isSome_iff_eq_none, h.1, hb]
      simp
    subst ha
    exact Alike.refl _
  | some there =>
    obtain ⟨known, rfl⟩ : ∃ known, a = some known := by
      rw [← isSome_iff_exists, h.1, hb]
      rfl
    rw [hb] at h hfits
    by_cases hf : there.Fits array
    · refine ⟨by simp [stack, hf], fun other => ?_⟩
      have hlater : stack (some there) array = some (there.extend array hf.toStackable) := by
        simp [stack, hf]
      rw [some_or, h.2 other, hlater, Bool.eq_iff_iff, stack_isSome_iff,
        stack_isSome_iff, extend_fits_iff]
    · simp [stack, hf] at hfits

theorem concatenate_append (start : Option (NDArray E)) (l₁ l₂ : List (NDArray E)) :
    concatenate start (l₁ ++ l₂) = (concatenate start l₁).bind fun o => concatenate o l₂ := by
  rw [concatenate, foldlM_append]
  rfl

end

section
variable {K P E : Type} [DecidableEq P] (path : K → P)

theorem values_append (p : P) (name : String) (l₁ l₂ : List (Written K E)) :
    values path p name (l₁ ++ l₂) = values path p name l₁ ++ values path p name l₂ := by
  simp only [values, filter_append, map_append]

variable {path}

theorem alike_remember {known groups : P → Group E} (h : ∀ p name, Alike (known p name) (groups p name))
    {p : P} {group' : Group E} {arrays : List (String × Staged E)}
    (hnd : (arrays.map (·.1)).Nodup) (hext : Extended (groups p) group' arrays) (q : P)
    (name : String) :
    Alike (remember known p arrays q name) (update groups p group' q name) := by
  unfold remember
  by_cases hq : q = p
  · subst hq
    rw [update_self, update_self]
    by_cases hname : name ∈ arrays.map (·.1)
    · obtain ⟨e, he, rfl⟩ := mem_map.mp hname
      have hfind : (arrays.find? fun e' => e'.1 = e.1).map (·.2) = some e.2 :=
        get?_eq_some_iff (d := ⟨arrays, hnd⟩).mpr he
      have hvalue : (arrays.find? fun e' => e'.1 = e.1).map (·.2.value) = some e.2.value := by
        obtain ⟨e', he', hsnd⟩ := map_eq_some_iff.mp hfind
        rw [he', map_some, hsnd]
      rw [hext.self e he, hvalue]
      exact (h q e.1).stacked (hext.fits e he)
    · have hnone : arrays.find? (fun e => e.1 = name) = none := by
        rw [find?_eq_none]
        intro e he heq
        exact hname (mem_map.mpr ⟨e, he, by simpa using heq⟩)
      rw [hext.other name hname, hnone, map_none, or_none]
      exact h q name
  · rw [update_of_ne hq, update_of_ne hq]
    exact h q name

theorem appendable_congr {group group' : Group E} (h : ∀ name, Alike (group name) (group' name))
    (arrays : List (String × Staged E)) : Appendable group arrays ↔ Appendable group' arrays := by
  refine forall₂_congr fun e _ => ?_
  rw [rejectUnappendable_eq_none_iff, rejectUnappendable_eq_none_iff, (h e.1).2]

theorem concatenate_key {group group' : Group E} {arrays : List (String × Staged E)}
    (hnd : (arrays.map (·.1)).Nodup) (hext : Extended group group' arrays) (key : K) (name : String) :
    concatenate (group name) (values path (path key) name
      (arrays.map fun e => Written.mk key e.1 e.2)) = some (group' name) := by
  have hvalues : values path (path key) name (arrays.map fun e => Written.mk key e.1 e.2) =
      (arrays.filter fun e => e.1 = name).map (·.2.value) := by
    rw [values, List.filter_map, List.map_map]
    simp only [comp_def, true_and]
  rw [hvalues]
  by_cases hname : name ∈ arrays.map (·.1)
  · obtain ⟨e, he, rfl⟩ := List.mem_map.mp hname
    have hfilter : (arrays.filter fun e' => e'.1 = e.1) = [e] := filter_key hnd he
    obtain ⟨a, ha⟩ := Option.isSome_iff_exists.mp (hext.fits e he)
    rw [hfilter, hext.self e he, ha]
    simp [concatenate, ha]
  · have hfilter : (arrays.filter fun e => e.1 = name) = [] := by
      refine List.filter_eq_nil_iff.mpr fun e he heq => hname ?_
      exact List.mem_map.mpr ⟨e, he, by simpa using heq⟩
    rw [hfilter, hext.other name hname]
    rfl

/-- What `drainKeys` writes of keys that are all appended. -/
def writtenAll (l : List (K × Dict String (Staged E))) : List (Written K E) :=
  l.flatMap fun e => e.2.entries.map fun a => Written.mk e.1 a.1 a.2

variable (f : Format)

theorem drainKeys_cons {groups : P → Group E} {key : K} {arrays : Dict String (Staged E)}
    {group' : Group E} {rest : List (K × Dict String (Staged E))}
    (h : drainKey E f true (groups (path key)) arrays.entries = (group', arrays.entries, none)) :
    drainKeys f true path groups ((key, arrays) :: rest) =
      let later := drainKeys f true path (update groups (path key) group') rest
      (later.1, (arrays.entries.map fun e => Written.mk key e.1 e.2) ++ later.2.1, later.2.2) := by
  rw [drainKeys, h]

theorem drainKeys_spec {known groups : P → Group E}
    (halike : ∀ p name, Alike (known p name) (groups p name))
    (l : List (K × Dict String (Staged E))) :
    ((drainKeys f true path groups l).2.2 = none ↔ AppendsAll path known l) ∧
      ((drainKeys f true path groups l).2.2 = none →
        (drainKeys f true path groups l).2.1 = writtenAll l) ∧
      Stacked path groups (drainKeys f true path groups l).1 (drainKeys f true path groups l).2.1 := by
  induction l generalizing known groups with
  | nil => exact ⟨iff_of_true rfl trivial, fun _ => rfl, fun _ _ => rfl⟩
  | cons e rest ih =>
    obtain ⟨key, arrays⟩ := e
    have hcongr := appendable_congr (halike (path key)) arrays.entries
    rcases drainKey_spec f (groups (path key)) arrays.nodup with
      ⟨happ, group', hdrain, hext⟩ | ⟨hrejects, r, hdrain⟩
    · obtain ⟨hiff, hall, hstacked⟩ := ih (alike_remember halike arrays.nodup hext)
      rw [drainKeys_cons f hdrain]
      refine ⟨?_, fun hnone => ?_, fun p name => ?_⟩
      · rw [AppendsAll, hcongr]
        exact hiff.trans ⟨fun h => ⟨happ, h⟩, And.right⟩
      · dsimp only
        rw [hall hnone]
        rfl
      · rw [values_append, concatenate_append]
        by_cases hp : path key = p
        · subst hp
          rw [concatenate_key arrays.nodup hext, Option.bind_some]
          have := hstacked (path key) name
          rwa [update_self] at this
        · -- nothing of this key goes into the group
          have hvalues : values path p name
              (arrays.entries.map fun e => Written.mk key e.1 e.2) = [] := by
            simp [values, List.filter_map, comp_def, hp]
          rw [hvalues]
          have := hstacked p name
          rwa [update_of_ne (Ne.symm hp)] at this
    · have heq : drainKeys f true path groups ((key, arrays) :: rest) = (groups, [], some r) := by
        rw [drainKeys, hdrain]
        simp
      rw [heq]
      refine ⟨iff_of_false (by simp) fun h => hrejects (hcongr.mp h.1), fun h => ?_, fun _ _ => rfl⟩
      cases h

theorem drainKeys_of_failsFirst {groups : P → Group E} {l : List (K × Dict String (Staged E))}
    (h : FailsFirst path groups l) :
    (drainKeys f true path groups l).2.2 = none ∨ (drainKeys f true path groups l).2.1 = [] := by
  induction l with
  | nil => exact .inl rfl
  | cons e rest ih =>
    obtain ⟨key, arrays⟩ := e
    rcases drainKey_spec f (groups (path key)) arrays.nodup with
      ⟨happ, group', hdrain, hext⟩ | ⟨-, r, hdrain⟩
    · have heq : drainKeys f true path groups ((key, arrays) :: rest) =
          let later := drainKeys f true path (update groups (path key) group') rest
          (later.1, (arrays.entries.map fun e => Written.mk key e.1 e.2) ++ later.2.1, later.2.2) := by
        rw [drainKeys, hdrain]
      rw [heq]
      rw [FailsFirst] at h
      by_cases hempty : arrays.entries = []
      · rw [if_pos hempty] at h
        -- the group stays as it was
        have hgroup : group' = groups (path key) := by
          funext name
          exact hext.other name (by simp [hempty])
        rw [hempty, hgroup, update_eq_self]
        exact ih h
      · rw [if_neg hempty] at h
        left
        have halike := alike_remember (fun p name => Alike.refl (groups p name)) arrays.nodup hext
        exact (drainKeys_spec f halike rest).1.mpr (h happ)
    · right
      rw [drainKeys, hdrain]
      rfl

/-! ## The sink -/

variable [DecidableEq K] {f}

/-- Every staged value in the buffer has a number of its own, newer than what is written. -/
structure Numbered (s : Sink K P E) : Prop where
  pending_lt : ∀ e ∈ s.pending.entries, ∀ a ∈ e.2.entries, a.2.id < s.nextId
  written_lt : ∀ w ∈ s.written, w.staged.id < s.nextId
  newer : ∀ w ∈ s.written, ∀ e ∈ s.pending.entries, ∀ a ∈ e.2.entries, w.staged.id < a.2.id

/-- What holds of the sink as long as no rejected drain writes. -/
structure Valid (path : K → P) (groups₀ : P → Group E) (s : Sink K P E) : Prop
    extends Numbered s where
  inOrder : InOrder s.written
  stacked : Stacked path groups₀ s.groups s.written

variable {groups₀ : P → Group E} {s : Sink K P E}

omit [DecidableEq P] [DecidableEq K] in
theorem inOrder_writtenAll (d : Dict K (Dict String (Staged E))) : InOrder (writtenAll d.entries) := by
  unfold InOrder writtenAll
  rw [pairwise_flatMap]
  constructor
  · -- one key: the names differ
    intro e _
    rw [pairwise_map]
    refine (pairwise_map.mp e.2.nodup).imp fun hne _ hname => ?_
    exact absurd hname hne
  · -- two keys
    refine (pairwise_map.mp d.nodup).imp fun hne w hw w' hw' hkey => ?_
    obtain ⟨a, -, rfl⟩ := mem_map.mp hw
    obtain ⟨a', -, rfl⟩ := mem_map.mp hw'
    exact absurd hkey hne

omit [DecidableEq P] [DecidableEq K] in
theorem mem_writtenAll {l : List (K × Dict String (Staged E))} {w : Written K E}
    (h : w ∈ writtenAll l) : ∃ e ∈ l, ∃ a ∈ e.2.entries, w.staged = a.2 := by
  obtain ⟨e, he, hw⟩ := mem_flatMap.mp h
  obtain ⟨a, ha, rfl⟩ := mem_map.mp hw
  exact ⟨e, he, a, ha, rfl⟩

omit [DecidableEq K] in
theorem Valid.drained (h : Valid path groups₀ s) (incomplete : Bool)
    (hspares : incomplete = false → FailsFirst path s.groups s.pending.entries) :
    Valid path groups₀ (drain f true path s incomplete).1 := by
  unfold StagingSink.drain
  cases incomplete with
  | true => exact h
  | false =>
    obtain ⟨-, hall, hstacked⟩ := drainKeys_spec f (fun p name => Alike.refl (s.groups p name))
      s.pending.entries
    have hfirst := drainKeys_of_failsFirst f (hspares rfl)
    -- the store goes on from what it was
    have hlog : Stacked path groups₀ (drainKeys f true path s.groups s.pending.entries).1
        (s.written ++ (drainKeys f true path s.groups s.pending.entries).2.1) := by
      intro p name
      rw [values_append, concatenate_append, h.stacked p name, bind_some]
      exact hstacked p name
    rcases hresult : drainKeys f true path s.groups s.pending.entries with ⟨groups, log, e⟩
    rw [hresult] at hall hlog hfirst
    cases e with
    | some e =>
      obtain rfl : log = [] := hfirst.resolve_left (some_ne_none e)
      rw [append_nil] at hlog
      simp only [Bool.false_eq_true, if_false, append_nil]
      exact { h with stacked := hlog }
    | none =>
      obtain rfl : log = writtenAll s.pending.entries := hall rfl
      simp only [Bool.false_eq_true, if_false]
      refine ⟨⟨fun e he => (not_mem_nil he).elim, fun w hw => ?_,
        fun _ _ e he => (not_mem_nil he).elim⟩, ?_, hlog⟩
      · rcases mem_append.mp hw with hw | hw
        · exact h.written_lt w hw
        · obtain ⟨e, he, a, ha, hstaged⟩ := mem_writtenAll hw
          rw [hstaged]
          exact h.pending_lt e he a ha
      · refine pairwise_append.mpr ⟨h.inOrder, inOrder_writtenAll _, ?_⟩
        intro w hw w' hw' _ _
        obtain ⟨e, he, a, ha, hstaged⟩ := mem_writtenAll hw'
        rw [hstaged]
        exact h.newer w hw e he a ha

theorem mem_number {nextId : Nat} {arrays : List (String × NDArray E)} {a : String × Staged E}
    (h : a ∈ number nextId arrays) :
    nextId ≤ a.2.id ∧ a.2.id < nextId + arrays.length := by
  obtain ⟨e, he, rfl⟩ := mem_map.mp h
  have := mem_zipIdx he
  dsimp only
  omega

theorem Valid.buffered (h : Valid path groups₀ s) (key : K)
    (arrays : List (String × NDArray E)) : Valid path groups₀ (buffer s key arrays) := by
  -- an array in the buffer was there or is one of the new ones
  have hmem : ∀ e ∈ (buffer s key arrays).pending.entries, ∀ a ∈ e.2.entries,
      a ∈ number s.nextId arrays ∨ ∃ e ∈ s.pending.entries, a ∈ e.2.entries := by
    intro e he a ha
    rcases mem_set.mp he with rfl | ⟨he, -⟩
    · rcases mem_update ha with ha | ha
      · exact .inl ha
      · cases hget : s.pending.get? key with
        | none =>
          rw [hget] at ha
          cases ha
        | some old =>
          rw [hget] at ha
          exact .inr ⟨(key, old), get?_eq_some_iff.mp hget, ha⟩
    · exact .inr ⟨e, he, ha⟩
  refine ⟨⟨fun e he a ha => ?_, fun w hw => ?_, fun w hw e he a ha => ?_⟩, h.inOrder, h.stacked⟩
  · show a.2.id < s.nextId + arrays.length
    rcases hmem e he a ha with hnew | ⟨e, he, ha⟩
    · exact (mem_number hnew).2
    · have := h.pending_lt e he a ha
      omega
  · show w.staged.id < s.nextId + arrays.length
    have := h.written_lt w hw
    omega
  · rcases hmem e he a ha with hnew | ⟨e, he, ha⟩
    · have := h.written_lt w hw
      have := (mem_number hnew).1
      omega
    · exact h.newer w hw e he a ha

theorem Valid.stepped {flushEvery : Nat} (h : Valid path groups₀ s) {e : Event K E}
    (hspares : SparesBuffer path flushEvery s e) :
    Valid path groups₀ (step f true path flushEvery s e) := by
  cases e with
  | stage key arrays incomplete =>
    have hbuffer := h.buffered key arrays
    show Valid path groups₀ (stage f true path flushEvery s key arrays incomplete).1
    unfold stage
    dsimp only
    by_cases hflush : flushEvery ≤ (StagingSink.buffer s key arrays).stagedSinceDrain
    · rw [if_pos hflush]
      exact hbuffer.drained incomplete (hspares hflush)
    · rw [if_neg hflush]
      exact hbuffer
  | take key =>
    show Valid path groups₀ (take s key).1
    unfold take
    cases s.pending.get? key with
    | none => exact h
    | some arrays =>
      refine ⟨⟨fun e he => ?_, h.written_lt, fun w hw e he => ?_⟩, h.inOrder, h.stacked⟩
      · exact h.pending_lt e (mem_erase.mp he).1
      · exact h.newer w hw e (mem_erase.mp he).1
  | drain incomplete => exact h.drained incomplete hspares

/-- **Every staged value is stored once.**  In a run in which a rejected drain is rejected at
the first key that has arrays, what is stored under a name is what was there at first with the
drained values behind it, each once and in the order of staging. -/
theorem stored_once {flushEvery : Nat} (hr : (machine f true path flushEvery groups₀).Reaches
      (SparesBuffer path flushEvery) s) :
    Stacked path groups₀ s.groups s.written ∧ InOrder s.written := by
  have h : Valid path groups₀ s := by
    refine hr.invariant (fun s hopen => ?_) fun s e t h hspares ht => ?_
    · refine ⟨⟨?_, ?_, ?_⟩, ?_, ?_⟩
      · simp [hopen.pending]
      · simp [hopen.written]
      · simp [hopen.written]
      · rw [hopen.written]
        exact List.Pairwise.nil
      · intro p name
        rw [hopen.written, hopen.groups]
        rfl
    · obtain rfl := Option.some.inj ht
      exact h.stepped hspares
  exact ⟨h.stacked, h.inOrder⟩

end

/-! ## Two keys, one of which is rejected -/

namespace TwoKeys

/-- `np.array([x], dtype=dtype)`. -/
def row (dtype : String) (x : Nat) : NDArray Nat := ⟨dtype, [1], [x], rfl⟩

/-- A new store, drained by calls of `drain` only. -/
def sink : Machine (Sink String String Nat) (Event String Nat) :=
  machine .zarr true id 10 fun _ _ => none

def opened : Sink String String Nat where
  pending := ∅
  stagedSinceDrain := 0
  groups _ _ := none
  nextId := 0
  written := []

theorem opened_opened : Opened (fun _ _ => none) opened := ⟨rfl, rfl, rfl⟩

/-- The key `b` is rejected at first, and taken back. -/
def takenBack : List (Event String Nat) :=
  [.stage "b" [("y", row "int64" 1)] false, .drain false,
    .stage "b" [("y", row "float64" 2)] false, .stage "a" [("x", row "int64" 7)] false,
    .drain false, .take "b", .drain false, .stage "a" [("x", row "int64" 8)] false, .drain false]

theorem stored_once_taken_back :
    ∃ s : Sink String String Nat, (s.groups "a" "x").map (·.data) = some [7, 8] ∧
      Stacked id (fun _ _ => none) s.groups s.written ∧ InOrder s.written := by
  have hr : (sink.run opened takenBack).map (fun s => (s.groups "a" "x").map (·.data)) =
      some (some [7, 8]) := by
    decide
  obtain ⟨s, hrun, hdata⟩ := Option.map_eq_some_iff.mp hr
  have hreach := Machine.reaches_of_allowed (M := sink) (G := SparesBuffer id 10)
    opened_opened (by decide) hrun
  exact ⟨s, hdata, stored_once hreach⟩

/-- The drain fails at `b`, after it has written `a`, and is called again. -/
def retried : List (Event String Nat) :=
  [.stage "b" [("y", row "int64" 1)] false, .drain false,
    .stage "a" [("x", row "int64" 7)] false, .stage "b" [("y", row "float64" 2)] false,
    .drain false, .drain false]

/-- **A value is stored twice.** -/
theorem stored_twice :
    ∃ s, sink.Reachable s ∧ (s.groups "a" "x").map (·.data) = some [7, 7] ∧
      ¬ InOrder s.written := by
  have hr : (sink.run opened retried).map
      (fun s => ((s.groups "a" "x").map (·.data), decide (InOrder s.written))) =
        some (some [7, 7], false) := by
    decide
  obtain ⟨s, hrun, hs⟩ := Option.map_eq_some_iff.mp hr
  obtain ⟨hdata, horder⟩ := Prod.mk.inj hs
  exact ⟨s, Machine.reachable_of_run opened_opened hrun, hdata, of_decide_eq_false horder⟩

end TwoKeys

end Xtrax.StagingSink
