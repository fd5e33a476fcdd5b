import Mathlib

/-!
# Arrays

An array has a shape and an entry for each index below the shape.  What it is at other lists of
numbers does not count: two arrays are the same when they have one shape and the same entries at
the indices below it (`Same`).  `indices` lists these in row-major order.
-/

/-- An array: its entries by index. -/
structure NdArray (V : Type*) where
  shape : List Nat
  get : List Nat → V

namespace NdArray

open List

variable {V W : Type*} {shape idx lead : List Nat} {n i : Nat}

/-- Each number is below the length of its axis. -/
def Below (shape idx : List Nat) : Prop := List.Forall₂ (· < ·) idx shape

/-- The indices below a shape, the last axis the fastest. -/
def indices : List Nat → List (List Nat)
  | [] => [[]]
  | n :: shape => (List.range n).flatMap fun i => (indices shape).map (i :: ·)

theorem mem_indices : idx ∈ indices shape ↔ Below shape idx := by
  induction shape generalizing idx with
  | nil =>
    rw [indices, mem_singleton]
    constructor
    · rintro rfl
      exact .nil
    · rintro ⟨⟩
      rfl
  | cons n shape ih =>
    rw [indices, mem_flatMap]
    constructor
    · rintro ⟨i, hi, hidx⟩
      obtain ⟨rest, hrest, rfl⟩ := mem_map.mp hidx
      exact .cons (mem_range.mp hi) (ih.mp hrest)
    · intro h
      cases h with
      | cons hi hrest => exact ⟨_, mem_range.mpr hi, mem_map.mpr ⟨_, ih.mpr hrest, rfl⟩⟩

theorem not_below_of_zero (h : 0 ∈ shape) : ¬ Below shape idx := by
  intro hbelow
  induction hbelow with
  | nil => exact not_mem_nil h
  | cons hlt _ ih =>
    rcases mem_cons.mp h with rfl | h
    · exact Nat.not_lt_zero _ hlt
    · exact ih h

theorem below_append_singleton :
    Below (lead ++ [n]) idx ↔ ∃ init i, idx = init ++ [i] ∧ Below lead init ∧ i < n := by
  constructor
  · induction lead generalizing idx with
    | nil =>
      rintro (_ | ⟨hlt, hnil⟩)
      obtain rfl := forall₂_nil_right_iff.mp hnil
      exact ⟨[], _, rfl, .nil, hlt⟩
    | cons m lead ih =>
      rintro (_ | ⟨hlt, hrest⟩)
      obtain ⟨init, i, rfl, hinit, hi⟩ := ih hrest
      exact ⟨_ :: init, i, rfl, .cons hlt hinit, hi⟩
  · rintro ⟨init, i, rfl, hinit, hi⟩
    exact rel_append hinit (.cons hi .nil)

/-- Every entry, in row-major order. -/
def entries (a : NdArray V) : List V := (indices a.shape).map a.get

/-- The number of entries. -/
def size (a : NdArray V) : Nat := a.shape.prod

def map (f : V → W) (a : NdArray V) : NdArray W where
  shape := a.shape
  get := fun idx => f (a.get idx)

/-! ### The leading axis -/

/-- `a[i]`. -/
def row (a : NdArray V) (i : Nat) : NdArray V where
  shape := a.shape.tail
  get := fun idx => a.get (i :: idx)

/-- `a[start:start + length]`. -/
def slice (a : NdArray V) (start length : Nat) : NdArray V where
  shape := length :: a.shape.tail
  get
    | [] => a.get []
    | i :: idx => a.get ((start + i) :: idx)

/-- A new axis of length one. -/
def expandDims (a : NdArray V) : NdArray V where
  shape := 1 :: a.shape
  get := fun idx => a.get idx.tail

/-- The arrays one after the other. -/
def append (a b : NdArray V) : NdArray V where
  shape := (a.shape.headD 0 + b.shape.headD 0) :: a.shape.tail
  get
    | [] => a.get []
    | i :: idx => if i < a.shape.headD 0 then a.get (i :: idx)
      else b.get ((i - a.shape.headD 0) :: idx)

/-- An array of one value. -/
def full (shape : List Nat) (v : V) : NdArray V where
  shape := shape
  get := fun _ => v

/-- These rows, of one shape. -/
def stack (shape : List Nat) (n : Nat) (rows : Nat → NdArray V) (v : V) : NdArray V where
  shape := n :: shape
  get
    | [] => v
    | i :: idx => (rows i).get idx

/-- These rows, in this order. -/
def take (a : NdArray V) (rows : List Nat) : NdArray V where
  shape := rows.length :: a.shape.tail
  get
    | [] => a.get []
    | i :: idx => a.get (rows.getD i 0 :: idx)

def moveToFront (a : NdArray V) (axis : Nat) : NdArray V where
  shape := a.shape.getD axis 0 :: a.shape.eraseIdx axis
  get
    | [] => a.get []
    | i :: idx => a.get (idx.insertIdx axis i)

theorem row_append_left {a b : NdArray V} {i : Nat} (h : i < a.shape.headD 0) :
    (a.append b).row i = a.row i := by
  show NdArray.mk _ _ = NdArray.mk _ _
  simp only [append, if_pos h, tail_cons]

theorem row_append_right {a b : NdArray V} {i : Nat} (h : a.shape.headD 0 ≤ i)
    (hshape : a.shape.tail = b.shape.tail) :
    (a.append b).row i = b.row (i - a.shape.headD 0) := by
  show NdArray.mk _ _ = NdArray.mk _ _
  simp only [append, if_neg (Nat.not_lt.mpr h), tail_cons, hshape]

/-- One shape and the same entries. -/
structure Same (a b : NdArray V) : Prop where
  shape : a.shape = b.shape
  entry : ∀ idx, Below b.shape idx → a.get idx = b.get idx

theorem Same.refl (a : NdArray V) : a.Same a := ⟨rfl, fun _ _ => rfl⟩

theorem Same.symm {a b : NdArray V} (h : a.Same b) : b.Same a :=
  ⟨h.shape.symm, fun idx hidx => (h.entry idx (h.shape ▸ hidx)).symm⟩

theorem Same.trans {a b c : NdArray V} (hab : a.Same b) (hbc : b.Same c) : a.Same c :=
  ⟨hab.shape.trans hbc.shape, fun idx hidx =>
    (hab.entry idx (hbc.shape.symm ▸ hidx)).trans (hbc.entry idx hidx)⟩

theorem same_iff_entries {a b : NdArray V} (hshape : a.shape = b.shape) :
    a.Same b ↔ a.entries = b.entries := by
  rw [entries, entries, hshape, map_inj_left]
  constructor
  · intro h idx hidx
    exact h.entry idx (mem_indices.mp hidx)
  · intro h
    exact ⟨hshape, fun idx hidx => h idx (mem_indices.mpr hidx)⟩

theorem length_entries {a b : NdArray V} (hshape : a.shape = b.shape) :
    a.entries.length = b.entries.length := by
  rw [entries, entries, length_map, length_map, hshape]

theorem moveToFront_zero {a : NdArray V} (h : a.shape ≠ []) (i : Nat) :
    (a.moveToFront 0).row i = a.row i := by
  cases hshape : a.shape with
  | nil => exact absurd hshape h
  | cons n shape =>
    show NdArray.mk _ _ = NdArray.mk _ _
    simp only [moveToFront, hshape, eraseIdx_cons_zero, tail_cons, insertIdx_zero]

theorem same_of_zero {a b : NdArray V} (hshape : a.shape = b.shape) (hzero : 0 ∈ b.shape) :
    a.Same b := ⟨hshape, fun _ hidx => absurd hidx (not_below_of_zero hzero)⟩

end NdArray
