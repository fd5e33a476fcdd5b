import Xtrax.Dict

/-! # Staging sinks that append

A sink buffers arrays under keys and writes them when it is drained.  With `append` an array
that is there already is extended along its leading axis, and an array that cannot be extended
is rejected: a scalar, another trailing shape, another dtype.

`ZarrStagingSink` in exclusive mode looks at all arrays of a key before it writes the first, and
`MemorySink` plans them all: for one key the two do the same (`drainKey_spec`).  A drain goes
through the keys one after the other, and what it has written for the keys before the one that
is rejected stays written, in either sink.
-/
namespace Xtrax.StagingSink

open Function List

/-! ## Arrays -/

/-- A numpy array in row-major order. -/
structure NDArray (E : Type) where
  dtype : String
  shape : List Nat
  data : List E
  size : data.length = shape.prod
  deriving DecidableEq

namespace NDArray
variable {E : Type}

abbrev ndim (a : NDArray E) : Nat := a.shape.length

/-- Two arrays that can stand one behind the other along the leading axis. -/
structure Stackable (a b : NDArray E) : Prop where
  left : a.shape ≠ []
  right : b.shape ≠ []
  trailing : b.shape.tail = a.shape.tail

/-- `existing.resize(...)` and `existing[old:] = array`. -/
def extend (a b : NDArray E) (h : Stackable a b) : NDArray E where
  dtype := a.dtype
  shape := (a.shape.headD 0 + b.shape.headD 0) :: a.shape.tail
  data := a.data ++ b.data
  size := by
    obtain ⟨n, rest, ha⟩ := List.exists_cons_of_ne_nil h.left
    obtain ⟨m, rest', hb⟩ := List.exists_cons_of_ne_nil h.right
    have htail := h.trailing
    rw [ha, hb] at htail
    obtain rfl : rest' = rest := htail
    rw [List.length_append, a.size, b.size, ha, hb]
    simp only [List.prod_cons, List.headD_cons, List.tail_cons]
    exact (Nat.add_mul ..).symm

end NDArray

variable {E : Type} {group : Group E} {existing array : NDArray E} {name : Option String}

/-- A `ValueError` of an append.  `MemorySink` does not name the array. -/
inductive Reject
  | scalar (name : Option String)
  | trailing (name : Option String) (got stored : List Nat)
  | dtype (name : Option String) (got stored : String)
  deriving DecidableEq, Repr

/-- The checks both sinks make on an array that is there and the one to append. -/
def conflict (name : Option String) (existing array : NDArray E) : Option Reject :=
  if array.ndim = 0 ∨ existing.ndim = 0 then some (.scalar name)
  else if array.ndim ≠ existing.ndim ∨ array.shape.tail ≠ existing.shape.tail then
    some (.trailing name array.shape.tail existing.shape.tail)
  else if array.dtype ≠ existing.dtype then some (.dtype name array.dtype existing.dtype)
  else none

theorem stackable_of_conflict (h : conflict name existing array = none) :
    existing.Stackable array := by
  unfold conflict at h
  split at h
  · cases h
  · rename_i hscalar
    split at h
    · cases h
    · rename_i htrailing
      rw [not_or] at hscalar htrailing
      exact
        { left := fun hnil => hscalar.2 (by rw [NDArray.ndim, hnil, length_nil])
          right := fun hnil => hscalar.1 (by rw [NDArray.ndim, hnil, length_nil])
          trailing := not_not.mp htrailing.2 }

/-- Extends the array that is there, or rejects the other. -/
def appendTo (name : Option String) (existing array : NDArray E) : Except Reject (NDArray E) :=
  match h : conflict name existing array with
  | some e => .error e
  | none => .ok (existing.extend array (stackable_of_conflict h))

/-! ## One key -/

/-- An array in the buffer.  Numbers in the order of staging tell the staged arrays apart. -/
structure Staged (E : Type) where
  id : Nat
  value : NDArray E

/-- The arrays of a group. -/
abbrev Group (E : Type) := String → Option (NDArray E)

def rejectUnappendable (group : Group E) (name : String) (array : NDArray E) : Option Reject :=
  (group name).bind fun existing => conflict (some name) existing array

def writeArray (append : Bool) (group : Group E) (name : String) (array : NDArray E) :
    Except Reject (Group E) :=
  match if append then group name else none with
  | some existing =>
    (appendTo (some name) existing array).map fun a => Function.update group name (some a)
  | none => .ok (Function.update group name (some array))

/-- The second loop of `ZarrStagingSink.drain` over the arrays of a key: the group, the
arrays that were written, and the exception. -/
def writeArrays (append : Bool) (group : Group E) :
    List (String × Staged E) → Group E × List (String × Staged E) × Option Reject
  | [] => (group, [], none)
  | (name, staged) :: rest =>
    match writeArray append group name staged.value with
    | .error e => (group, [], some e)
    | .ok group =>
      let (group, written, e) := writeArrays append group rest
      (group, (name, staged) :: written, e)

def zarrDrainKey (append : Bool) (group : Group E) (arrays : List (String × Staged E)) :
    Group E × List (String × Staged E) × Option Reject :=
  match if append then arrays.findSome? fun (name, staged) =>
      rejectUnappendable group name staged.value else none with
  | some e => (group, [], some e)
  | none => writeArrays append group arrays

def storeArray (append : Bool) (previous : Option (NDArray E)) (array : NDArray E) :
    Except Reject (NDArray E) :=
  match if append then previous else none with
  | some previous => appendTo none previous array
  | none => .ok array

/-- The plan of `MemorySink.drain` for one key. -/
def planned (append : Bool) (group : Group E) :
    List (String × Staged E) → Except Reject (List (String × NDArray E))
  | [] => .ok []
  | (name, staged) :: rest => do
    let a ← storeArray append (group name) staged.value
    let plan ← planned append group rest
    return (name, a) :: plan

def memoryDrainKey (append : Bool) (group : Group E) (arrays : List (String × Staged E)) :
    Group E × List (String × Staged E) × Option Reject :=
  match planned append group arrays with
  | .error e => (group, [], some e)
  | .ok plan => (plan.foldl (fun group e => Function.update group e.1 (some e.2)) group, arrays, none)

inductive Format
  | zarr | memory
  deriving DecidableEq, Repr

def drainKey (E : Type) : Format → Bool → Group E → List (String × Staged E) →
    Group E × List (String × Staged E) × Option Reject
  | .zarr => zarrDrainKey
  | .memory => memoryDrainKey

/-! ## What one key's drain does -/

/-- The array that is there, if one is, can be extended by the other. -/
structure NDArray.Fits (a b : NDArray E) : Prop extends NDArray.Stackable a b where
  dtype : b.dtype = a.dtype

theorem conflict_eq_none_iff : conflict name existing array = none ↔ existing.Fits array := by
  constructor
  · intro h
    refine ⟨stackable_of_conflict h, ?_⟩
    unfold conflict at h
    split at h
    · cases h
    · split at h
      · cases h
      · split at h
        · cases h
        · rename_i hdtype
          exact not_not.mp hdtype
  · intro h
    have hleft : existing.ndim ≠ 0 := fun hz => h.left (length_eq_zero_iff.mp hz)
    have hndim : array.ndim = existing.ndim := by
      have hright : array.ndim ≠ 0 := fun hz => h.right (length_eq_zero_iff.mp hz)
      have htail := congrArg length h.trailing
      rw [length_tail, length_tail] at htail
      unfold NDArray.ndim at *
      omega
    simp [conflict, hleft, hndim, h.trailing, h.dtype]

instance (a b : NDArray E) : Decidable (a.Fits b) :=
  decidable_of_iff (conflict none a b = none) conflict_eq_none_iff

/-- What is there with the array behind it. -/
def stack : Option (NDArray E) → NDArray E → Option (NDArray E)
  | none, array => some array
  | some existing, array =>
    if h : existing.Fits array then some (existing.extend array h.toStackable) else none

/-- No array of the key is rejected. -/
def Appendable (group : Group E) (arrays : List (String × Staged E)) : Prop :=
  ∀ e ∈ arrays, rejectUnappendable group e.1 e.2.value = none

instance (group : Group E) (arrays : List (String × Staged E)) :
    Decidable (Appendable group arrays) :=
  inferInstanceAs (Decidable (∀ e ∈ arrays, _))

/-- All arrays of the key stand behind what was there. -/
structure Extended (group group' : Group E) (arrays : List (String × Staged E)) : Prop where
  other : ∀ name, name ∉ arrays.map (·.1) → group' name = group name
  self : ∀ e ∈ arrays, group' e.1 = stack (group e.1) e.2.value
  fits : ∀ e ∈ arrays, (stack (group e.1) e.2.value).isSome

theorem appendTo_ok (h : existing.Fits array) :
    appendTo name existing array = .ok (existing.extend array h.toStackable) := by
  have hnone : conflict name existing array = none := conflict_eq_none_iff.mpr h
  unfold appendTo
  split
  · rename_i heq
    rw [hnone] at heq
    cases heq
  · rfl

theorem appendTo_error (name : Option String) (h : ¬ existing.Fits array) :
    ∃ e, appendTo name existing array = .error e := by
  unfold appendTo
  split
  · rename_i e _
    exact ⟨e, rfl⟩
  · rename_i hnone
    exact absurd (conflict_eq_none_iff.mp hnone) h

theorem rejectUnappendable_eq_none_iff {name : String} {array : NDArray E} :
    rejectUnappendable group name array = none ↔ (stack (group name) array).isSome := by
  unfold rejectUnappendable
  cases group name with
  | none => simp [stack]
  | some existing => simp [stack, conflict_eq_none_iff]

theorem writeArray_ok {name : String} {array : NDArray E} (h : (stack (group name) array).isSome) :
    writeArray true group name array = .ok (update group name (stack (group name) array)) := by
  unfold writeArray
  cases hg : group name with
  | none => simp [stack]
  | some existing =>
    by_cases hfits : existing.Fits array
    · simp [stack, hfits, appendTo_ok hfits, Except.map]
    · simp [hg, stack, hfits] at h

theorem writeArrays_extends {arrays : List (String × Staged E)} (hnd : (arrays.map (·.1)).Nodup)
    (h : Appendable group arrays) :
    ∃ group', writeArrays true group arrays = (group', arrays, none) ∧
      Extended group group' arrays := by
  induction arrays generalizing group with
  | nil => exact ⟨group, rfl, fun _ _ => rfl, fun _ he => (not_mem_nil he).elim,
      fun _ he => (not_mem_nil he).elim⟩
  | cons e rest ih =>
    obtain ⟨hnot, hrest⟩ := nodup_cons.mp hnd
    have hfits := rejectUnappendable_eq_none_iff.mp (h e mem_cons_self)
    -- writing one array leaves the others alone
    have hother : ∀ e' ∈ rest, update group e.1 (stack (group e.1) e.2.value) e'.1 =
        group e'.1 := by
      intro e' he'
      refine update_of_ne (fun heq => hnot ?_) ..
      exact mem_map.mpr ⟨e', he', heq⟩
    have happ : Appendable (update group e.1 (stack (group e.1) e.2.value)) rest := by
      intro e' he'
      rw [rejectUnappendable, hother e' he']
      exact h e' (mem_cons_of_mem _ he')
    obtain ⟨group', hwrite, hext⟩ := ih hrest happ
    refine ⟨group', ?_, fun name hname => ?_, fun e' he' => ?_, fun e' he' => ?_⟩
    · rw [writeArrays, writeArray_ok hfits]
      simp only [hwrite]
    · rw [map_cons, mem_cons, not_or] at hname
      rw [hext.other name hname.2, update_of_ne hname.1]
    · rcases mem_cons.mp he' with rfl | he'
      · rw [hext.other _ hnot, update_self]
      · rw [hext.self e' he', hother e' he']
    · rcases mem_cons.mp he' with rfl | he'
      · exact hfits
      · rw [← hother e' he']
        exact hext.fits e' he'

theorem planned_ok {arrays : List (String × Staged E)} (h : Appendable group arrays) :
    ∃ plan, planned true group arrays = .ok plan ∧
      plan.map (fun e => (e.1, some e.2)) =
        arrays.map fun e => (e.1, stack (group e.1) e.2.value) := by
  induction arrays with
  | nil => exact ⟨[], rfl, rfl⟩
  | cons e rest ih =>
    obtain ⟨plan, hplan, heq⟩ := ih fun e' he' => h e' (mem_cons_of_mem _ he')
    have hfits := rejectUnappendable_eq_none_iff.mp (h e mem_cons_self)
    have hstore : ∃ a, storeArray true (group e.1) e.2.value = .ok a ∧
        stack (group e.1) e.2.value = some a := by
      unfold storeArray
      cases hg : group e.1 with
      | none => exact ⟨e.2.value, rfl, rfl⟩
      | some existing =>
        by_cases hf : existing.Fits e.2.value
        · exact ⟨existing.extend e.2.value hf.toStackable, by simp [appendTo_ok hf],
            by simp [stack, hf]⟩
        · simp [hg, stack, hf] at hfits
    obtain ⟨a, hstore, hstack⟩ := hstore
    refine ⟨(e.1, a) :: plan, ?_, ?_⟩
    · rw [planned, hstore, hplan]
      rfl
    · rw [map_cons, map_cons, heq, hstack]

theorem planned_error {arrays : List (String × Staged E)} (h : ¬ Appendable group arrays) :
    ∃ e, planned true group arrays = .error e := by
  induction arrays with
  | nil => exact absurd (fun _ he => (not_mem_nil he).elim) h
  | cons e rest ih =>
    rw [planned]
    cases hstore : storeArray true (group e.1) e.2.value with
    | error r => exact ⟨r, rfl⟩
    | ok a =>
      have hhead : rejectUnappendable group e.1 e.2.value = none := by
        rw [rejectUnappendable_eq_none_iff]
        unfold storeArray at hstore
        cases hg : group e.1 with
        | none => rfl
        | some existing =>
          by_cases hf : existing.Fits e.2.value
          · simp [stack, hf]
          · obtain ⟨r, hr⟩ := appendTo_error none hf
            rw [hg] at hstore
            simp [hr] at hstore
      have hrest : ¬ Appendable group rest := by
        intro hall
        refine h fun e' he' => ?_
        rcases mem_cons.mp he' with rfl | he'
        · exact hhead
        · exact hall e' he'
      obtain ⟨r, hr⟩ := ih hrest
      exact ⟨r, by rw [hr]; rfl⟩

theorem foldl_update {plan : List (String × NDArray E)} (hnd : (plan.map (·.1)).Nodup)
    (name : String) :
    plan.foldl (fun (group : Group E) e => update group e.1 (some e.2)) group name =
      ((plan.find? fun e => e.1 = name).map (·.2)).or (group name) := by
  induction plan generalizing group with
  | nil => rfl
  | cons e rest ih =>
    obtain ⟨hnot, hrest⟩ := nodup_cons.mp hnd
    rw [foldl_cons, ih hrest]
    by_cases he : e.1 = name
    · subst he
      have hnone : rest.find? (fun e' => e'.1 = e.1) = none := by
        rw [find?_eq_none]
        intro e' he' heq
        exact hnot (mem_map.mpr ⟨e', he', by simpa using heq⟩)
      simp [hnone]
    · rw [update_of_ne (Ne.symm he), find?_cons_of_neg (by simpa using he)]

theorem planned_extends {arrays : List (String × Staged E)} {plan : List (String × NDArray E)}
    (hnd : (arrays.map (·.1)).Nodup) (happ : Appendable group arrays)
    (hplan : plan.map (fun e => (e.1, some e.2)) = arrays.map fun e => (e.1, stack (group e.1) e.2.value)) :
    Extended group
      (plan.foldl (fun (group : Group E) e => update group e.1 (some e.2)) group) arrays := by
  have hkeys : plan.map (·.1) = arrays.map (·.1) := by
    have := congrArg (map Prod.fst) hplan
    rw [map_map, map_map] at this
    exact this
  have hplannd : (plan.map (·.1)).Nodup := hkeys ▸ hnd
  refine ⟨fun name hname => ?_, fun e he => ?_, fun e he =>
    rejectUnappendable_eq_none_iff.mp (happ e he)⟩
  · rw [foldl_update hplannd]
    have hnone : plan.find? (fun e => e.1 = name) = none := by
      rw [find?_eq_none]
      intro e he heq
      refine hname (hkeys ▸ mem_map.mpr ⟨e, he, by simpa using heq⟩)
    rw [hnone]
    rfl
  · rw [foldl_update hplannd]
    -- the plan has an entry for the name, and only one
    have hmem : (e.1, stack (group e.1) e.2.value) ∈ plan.map fun e => (e.1, some e.2) := by
      rw [hplan]
      exact mem_map.mpr ⟨e, he, rfl⟩
    obtain ⟨e', he', heq⟩ := mem_map.mp hmem
    obtain ⟨hname, hvalue⟩ := Prod.mk.inj heq
    have hfind : plan.find? (fun p => p.1 = e.1) = some e' := by
      have hget := Dict.get?_eq_some_iff (d := ⟨plan, hplannd⟩) (k := e'.1) (v := e'.2)
      obtain ⟨e'', hfind, hsnd⟩ := Option.map_eq_some_iff.mp (hget.mpr he')
      have hfst : e''.1 = e'.1 := by simpa using find?_some hfind
      rw [← hname, show e' = e'' from Prod.ext hfst.symm hsnd.symm, hfst]
      exact hfind
    rw [hfind, ← hvalue]
    rfl

/-- **One key is drained as a whole or not at all**, by either sink. -/
theorem drainKey_spec (f : Format) (group : Group E) {arrays : List (String × Staged E)}
    (hnd : (arrays.map (·.1)).Nodup) :
    (Appendable group arrays ∧ ∃ group', drainKey E f true group arrays = (group', arrays, none) ∧
        Extended group group' arrays) ∨
      ¬ Appendable group arrays ∧ ∃ e, drainKey E f true group arrays = (group, [], some e) := by
  by_cases happ : Appendable group arrays
  · refine .inl ⟨happ, ?_⟩
    cases f with
    | zarr =>
      obtain ⟨group', hwrite, hext⟩ := writeArrays_extends hnd happ
      refine ⟨group', ?_, hext⟩
      have hnone : (arrays.findSome? fun (name, staged) =>
          rejectUnappendable group name staged.value) = none :=
        findSome?_eq_none_iff.mpr happ
      simp only [drainKey, zarrDrainKey, if_true, hnone, hwrite]
    | memory =>
      obtain ⟨plan, hplan, heq⟩ := planned_ok happ
      refine ⟨_, ?_, planned_extends hnd happ heq⟩
      simp only [drainKey, memoryDrainKey, hplan]
  · refine .inr ⟨happ, ?_⟩
    cases f with
    | zarr =>
      have hsome : ∃ e, (arrays.findSome? fun (name, staged) =>
          rejectUnappendable group name staged.value) = some e := by
        by_contra hnone
        refine happ (findSome?_eq_none_iff.mp ?_)
        exact Option.eq_none_iff_forall_ne_some.mpr fun e he => hnone ⟨e, he⟩
      obtain ⟨e, he⟩ := hsome
      exact ⟨e, by simp only [drainKey, zarrDrainKey, if_true, he]⟩
    | memory =>
      obtain ⟨e, he⟩ := planned_error happ
      exact ⟨e, by simp only [drainKey, memoryDrainKey, he]⟩

end Xtrax.StagingSink
