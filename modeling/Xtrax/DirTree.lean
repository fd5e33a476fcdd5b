import Mathlib.Data.List.Dedup
import Mathlib.Data.List.Infix
import Mathlib.Data.List.Sort

/-! # Directory trees

A tree of directories is the list of its directories, each with its path below the
root and what it holds itself.  `os.rename` of a directory takes a whole subtree
along: `sub` is the tree below a path, `remove` what is left without it, and `graft`
puts a tree in place below a path.  Everything is said through `get?`, what a path
holds.
-/
namespace DirTree

open List

/-- Names from the root down. -/
abbrev Path := List String

/-- The directories of a tree, with their values. -/
abbrev Tree (V : Type*) := List (Path × V)

namespace Tree
variable {V : Type*} (t : Tree V)

/-- What the directory at the path holds. -/
def get? (p : Path) : Option V := (t.find? fun e => e.1 = p).map (·.2)

/-- There is a directory at the path: something is listed there or below. -/
def IsDir (p : Path) : Prop := ∃ e ∈ t, p <+: e.1

instance (p : Path) : Decidable (t.IsDir p) := inferInstanceAs (Decidable (∃ e ∈ t, _))

/-- The tree below a path. -/
def sub (k : Path) : Tree V :=
  t.filterMap fun e => if k <+: e.1 then some (e.1.drop k.length, e.2) else none

/-- What is not below a path. -/
def remove (k : Path) : Tree V := t.filter fun e => ¬ k <+: e.1

/-- The tree `s` stands at `k`. -/
def graft (k : Path) (s : Tree V) : Tree V := t.remove k ++ s.map fun e => (k ++ e.1, e.2)

/-- The names in a directory, sorted. -/
def children (p : Path) : List String :=
  ((t.sub p).filterMap fun e => e.1.head?).dedup.insertionSort (· ≤ ·)

variable {t} {s : Tree V} {k p q : Path} {v : V}

theorem get?_nil (p : Path) : get? ([] : Tree V) p = none := rfl

theorem get?_cons (e : Path × V) (t : Tree V) (p : Path) :
    get? (e :: t) p = if e.1 = p then some e.2 else get? t p := by
  by_cases h : e.1 = p
  · simp [get?, h]
  · simp [get?, h]

theorem mem_of_get? (h : t.get? p = some v) : (p, v) ∈ t := by
  obtain ⟨e, he, rfl⟩ := Option.map_eq_some_iff.mp h
  obtain rfl : e.1 = p := by simpa using find?_some he
  exact mem_of_find?_eq_some he

theorem isDir_of_get? (h : t.get? p = some v) (hq : q <+: p) : t.IsDir q :=
  ⟨(p, v), mem_of_get? h, hq⟩

theorem get?_append (t₁ t₂ : Tree V) (p : Path) :
    get? (t₁ ++ t₂) p = (get? t₁ p).or (get? t₂ p) := by
  induction t₁ with
  | nil => rfl
  | cons e t₁ ih =>
    rw [cons_append, get?_cons, get?_cons, ih]
    by_cases h : e.1 = p <;> simp [h]

theorem get?_sub (t : Tree V) (k p : Path) : (t.sub k).get? p = t.get? (k ++ p) := by
  induction t with
  | nil => rfl
  | cons e t ih =>
    rw [get?_cons, ← ih]
    by_cases hk : k <+: e.1
    · obtain ⟨rest, hrest⟩ := hk
      have hsub : sub (e :: t) k = (rest, e.2) :: sub t k := by simp [sub, ← hrest]
      rw [hsub, get?_cons, ← hrest]
      simp
    · have hsub : sub (e :: t) k = sub t k := by simp [sub, hk]
      have hne : e.1 ≠ k ++ p := by
        rintro he
        exact hk (he ▸ prefix_append k p)
      rw [hsub, if_neg hne]

theorem get?_remove (t : Tree V) (k p : Path) :
    (t.remove k).get? p = if k <+: p then none else t.get? p := by
  induction t with
  | nil => simp [remove, get?_nil]
  | cons e t ih =>
    by_cases hk : k <+: e.1
    · have hrem : remove (e :: t) k = remove t k := by simp [remove, hk]
      rw [hrem, ih, get?_cons]
      by_cases he : e.1 = p
      · subst he
        simp [hk]
      · simp [he]
    · have hrem : remove (e :: t) k = e :: remove t k := by simp [remove, hk]
      rw [hrem, get?_cons, ih, get?_cons]
      by_cases he : e.1 = p
      · subst he
        simp [hk]
      · simp [he]

theorem get?_map_append (s : Tree V) (k p : Path) :
    get? (s.map fun e => (k ++ e.1, e.2)) (k ++ p) = s.get? p := by
  induction s with
  | nil => rfl
  | cons e s ih => simp [get?_cons, ih]

theorem get?_graft_append (t s : Tree V) (k p : Path) : (t.graft k s).get? (k ++ p) = s.get? p := by
  rw [graft, get?_append, get?_remove, if_pos (prefix_append k p), get?_map_append]
  rfl

theorem get?_graft_of_not_prefix (t s : Tree V) (h : ¬ k <+: p) :
    (t.graft k s).get? p = t.get? p := by
  have hmap : get? (s.map fun e => (k ++ e.1, e.2)) p = none := by
    rw [get?, Option.map_eq_none_iff, find?_eq_none]
    intro e he
    obtain ⟨e', -, rfl⟩ := mem_map.mp he
    intro hp
    exact h ((of_decide_eq_true hp) ▸ prefix_append k e'.1)
  rw [graft, get?_append, get?_remove, if_neg h, hmap, Option.or_none]

theorem mem_children {c : String} {rest : Path} (h : t.get? (p ++ c :: rest) = some v) :
    c ∈ t.children p := by
  have hsub : (c :: rest, v) ∈ t.sub p := mem_of_get? (by rwa [get?_sub])
  rw [children, mem_insertionSort, mem_dedup, mem_filterMap]
  exact ⟨_, hsub, rfl⟩

end Tree
end DirTree
