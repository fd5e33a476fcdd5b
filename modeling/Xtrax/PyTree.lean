import Mathlib.Order.MinMax

/-!
# Trees of leaves

A tree is its structure and its leaves in order; the structure says how many there are.  Trees of
one structure are compared, mapped and zipped leaf by leaf.
-/

/-- What a structure says: how many leaves it takes. -/
class Treedef (T : Type) where
  numLeaves : T → Nat

/-- Lists of leaves are trees. -/
class ListTreedef (T : Type) extends Treedef T where
  list : Nat → T
  numLeaves_list : ∀ n, numLeaves (list n) = n

structure PyTree (T : Type) [Treedef T] (α : Type) where
  treedef : T
  leaves : List α
  length_leaves : leaves.length = Treedef.numLeaves treedef

namespace PyTree

variable {T α β : Type} [Treedef T] {s t : PyTree T α}

def map (f : α → β) (t : PyTree T α) : PyTree T β where
  treedef := t.treedef
  leaves := t.leaves.map f
  length_leaves := by rw [List.length_map, t.length_leaves]

/-- Two trees of one structure, leaf by leaf. -/
def zipWith {γ : Type} (f : α → β → γ) (s : PyTree T α) (t : PyTree T β)
    (h : s.treedef = t.treedef) : PyTree T γ where
  treedef := s.treedef
  leaves := List.zipWith f s.leaves t.leaves
  length_leaves := by rw [List.length_zipWith, s.length_leaves, t.length_leaves, h, min_self]

/-- A list of leaves. -/
def ofList {U : Type} [ListTreedef U] (leaves : List α) : PyTree U α where
  treedef := ListTreedef.list leaves.length
  leaves := leaves
  length_leaves := (ListTreedef.numLeaves_list _).symm

theorem length_eq (h : s.treedef = t.treedef) : s.leaves.length = t.leaves.length := by
  rw [s.length_leaves, t.length_leaves, h]

@[ext]
theorem ext (htreedef : s.treedef = t.treedef) (hleaves : s.leaves = t.leaves) : s = t := by
  cases s
  cases t
  cases htreedef
  cases hleaves
  rfl

end PyTree
