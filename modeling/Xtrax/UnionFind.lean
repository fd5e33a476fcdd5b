import Mathlib.Algebra.Order.Group.Nat
import Mathlib.Data.Finset.Card
import Mathlib.Data.Finset.Range
import Mathlib.Logic.Function.Basic
import Mathlib.Tactic.Common

/-!
# Union-find on the numbers

Every number has a parent, which is not greater, and the roots are their own parents.  `find` walks
up from a number and halves the path behind it; `union` makes the smaller of two roots the parent of
the other.  The roots after a union are those of before with one replaced (`root_union`), so a union
joins two classes and no others (`same_union_iff`) and takes one root away
(`card_roots_union_lt`).
-/

structure UnionFind where
  parent : Nat → Nat
  parent_le : ∀ x, parent x ≤ x

namespace UnionFind

open List

variable {uf : UnionFind} {x y a b n : Nat}

/-- Every number on its own. -/
def singletons : UnionFind := ⟨fun x => x, fun _ => Nat.le_refl _⟩

/-- The root above a number. -/
def root (uf : UnionFind) (x : Nat) : Nat :=
  if uf.parent x = x then x else uf.root (uf.parent x)
termination_by x
decreasing_by
  have hle := uf.parent_le x
  omega

/-- `parent[x] = parent[parent[x]]`. -/
def halve (uf : UnionFind) (x : Nat) : UnionFind where
  parent := Function.update uf.parent x (uf.parent (uf.parent x))
  parent_le y := by
    by_cases hy : y = x
    · subst hy
      rw [Function.update_self]
      exact (uf.parent_le _).trans (uf.parent_le y)
    · rw [Function.update_of_ne hy]
      exact uf.parent_le y

theorem halve_parent_self : (uf.halve x).parent x = uf.parent (uf.parent x) :=
  Function.update_self ..

theorem halve_parent_of_ne (h : y ≠ x) : (uf.halve x).parent y = uf.parent y :=
  Function.update_of_ne h ..

/-- The root above a number, and the forest with the path to it halved. -/
def find (uf : UnionFind) (x : Nat) : Nat × UnionFind :=
  if uf.parent x = x then (x, uf) else (uf.halve x).find ((uf.halve x).parent x)
termination_by x
decreasing_by
  have hle := uf.parent_le x
  have hle' := uf.parent_le (uf.parent x)
  rw [halve_parent_self]
  omega

/-- The root `low` becomes the parent of the root `high`. -/
def link (uf : UnionFind) (low high : Nat) (h : low ≤ high) : UnionFind where
  parent := Function.update uf.parent high low
  parent_le y := by
    by_cases hy : y = high
    · subst hy
      rw [Function.update_self]
      exact h
    · rw [Function.update_of_ne hy]
      exact uf.parent_le y

/-- The roots of both are found, and the greater gets the smaller for a parent. -/
def union (uf : UnionFind) (a b : Nat) : UnionFind :=
  let (ra, uf) := uf.find a
  let (rb, uf) := uf.find b
  if ra = rb then uf else uf.link (min ra rb) (max ra rb) min_le_max

/-! ### Roots -/

theorem root_of_parent_eq (h : uf.parent x = x) : uf.root x = x := by rw [root, if_pos h]

theorem root_parent (uf : UnionFind) (x : Nat) : uf.root (uf.parent x) = uf.root x := by
  by_cases h : uf.parent x = x
  · rw [h]
  · rw [root.eq_1 uf x, if_neg h]

theorem parent_root (uf : UnionFind) (x : Nat) : uf.parent (uf.root x) = uf.root x := by
  induction x using Nat.strong_induction_on with
  | _ x ih =>
    by_cases h : uf.parent x = x
    · rw [root_of_parent_eq h, h]
    · have hlt : uf.parent x < x := lt_of_le_of_ne (uf.parent_le x) h
      rw [← root_parent]
      exact ih _ hlt

theorem root_le (uf : UnionFind) (x : Nat) : uf.root x ≤ x := by
  induction x using Nat.strong_induction_on with
  | _ x ih =>
    by_cases h : uf.parent x = x
    · rw [root_of_parent_eq h]
    · have hlt : uf.parent x < x := lt_of_le_of_ne (uf.parent_le x) h
      rw [← root_parent]
      exact (ih _ hlt).trans hlt.le

theorem root_root (uf : UnionFind) (x : Nat) : uf.root (uf.root x) = uf.root x :=
  root_of_parent_eq (uf.parent_root x)

theorem root_singletons (x : Nat) : singletons.root x = x := root_of_parent_eq rfl

theorem root_halve (uf : UnionFind) (x y : Nat) : (uf.halve x).root y = uf.root y := by
  induction y using Nat.strong_induction_on with
  | _ y ih =>
    by_cases hy : y = x
    · subst hy
      have hself : (uf.halve y).parent y = uf.parent (uf.parent y) := halve_parent_self
      have hup : uf.root (uf.parent (uf.parent y)) = uf.root y := by rw [root_parent, root_parent]
      by_cases h : uf.parent (uf.parent y) = y
      · -- the parent of the parent is not greater than the parent
        have heq : uf.parent y = y := by
          have hle := uf.parent_le y
          have hle' := uf.parent_le (uf.parent y)
          omega
        rw [root_of_parent_eq heq, root_of_parent_eq (hself.trans h)]
      · have hlt : uf.parent (uf.parent y) < y :=
          lt_of_le_of_ne ((uf.parent_le _).trans (uf.parent_le y)) h
        rw [← root_parent (uf.halve y), hself, ih _ hlt, hup]
    · have hparent : (uf.halve x).parent y = uf.parent y := halve_parent_of_ne hy
      by_cases h : uf.parent y = y
      · rw [root_of_parent_eq h, root_of_parent_eq (hparent.trans h)]
      · have hlt : uf.parent y < y := lt_of_le_of_ne (uf.parent_le y) h
        rw [← root_parent (uf.halve x), hparent, ih _ hlt, root_parent]

theorem find_spec (uf : UnionFind) (x : Nat) :
    (uf.find x).1 = uf.root x ∧ ∀ y, (uf.find x).2.root y = uf.root y := by
  induction x using Nat.strong_induction_on generalizing uf with
  | _ x ih =>
    rw [find.eq_1]
    by_cases h : uf.parent x = x
    · rw [if_pos h]
      exact ⟨(root_of_parent_eq h).symm, fun _ => rfl⟩
    · have hlt : (uf.halve x).parent x < x := by
        have hle := uf.parent_le x
        have hle' := uf.parent_le (uf.parent x)
        rw [halve_parent_self]
        omega
      obtain ⟨hfst, hsnd⟩ := ih _ hlt (uf.halve x)
      rw [if_neg h]
      constructor
      · rw [hfst, root_parent, root_halve]
      · intro y
        rw [hsnd, root_halve]

theorem find_fst (uf : UnionFind) (x : Nat) : (uf.find x).1 = uf.root x := (uf.find_spec x).1

theorem root_find (uf : UnionFind) (x y : Nat) : (uf.find x).2.root y = uf.root y :=
  (uf.find_spec x).2 y

/-- `[find(x) for x in xs]`. -/
def findAll (uf : UnionFind) : List Nat → List Nat × UnionFind
  | [] => ([], uf)
  | x :: xs =>
    let (r, uf) := uf.find x
    let (rs, uf) := uf.findAll xs
    (r :: rs, uf)

theorem findAll_spec (uf : UnionFind) (xs : List Nat) :
    (uf.findAll xs).1 = xs.map uf.root ∧ ∀ y, (uf.findAll xs).2.root y = uf.root y := by
  induction xs generalizing uf with
  | nil => exact ⟨rfl, fun _ => rfl⟩
  | cons x xs ih =>
    obtain ⟨hfst, hsnd⟩ := ih (uf.find x).2
    have hmap : xs.map (uf.find x).2.root = xs.map uf.root :=
      map_congr_left fun y _ => uf.root_find x y
    constructor
    · show (uf.find x).1 :: ((uf.find x).2.findAll xs).1 = uf.root x :: xs.map uf.root
      rw [find_fst, hfst, hmap]
    · intro y
      show ((uf.find x).2.findAll xs).2.root y = uf.root y
      rw [hsnd, root_find]

theorem findAll_fst (uf : UnionFind) (xs : List Nat) : (uf.findAll xs).1 = xs.map uf.root :=
  (uf.findAll_spec xs).1

theorem root_findAll (uf : UnionFind) (xs : List Nat) (y : Nat) :
    (uf.findAll xs).2.root y = uf.root y := (uf.findAll_spec xs).2 y

theorem root_link {low high : Nat} (hlt : low < high) (hlow : uf.parent low = low)
    (hhigh : uf.parent high = high) (y : Nat) :
    (uf.link low high hlt.le).root y = if uf.root y = high then low else uf.root y := by
  have hof : ∀ z, z ≠ high → (uf.link low high hlt.le).parent z = uf.parent z := fun z hz =>
    Function.update_of_ne hz ..
  have hroot : (uf.link low high hlt.le).root low = low :=
    root_of_parent_eq ((hof low hlt.ne).trans hlow)
  induction y using Nat.strong_induction_on with
  | _ y ih =>
    by_cases hy : y = high
    · subst hy
      have hparent : (uf.link low y hlt.le).parent y = low := Function.update_self ..
      rw [if_pos (root_of_parent_eq hhigh), ← root_parent, hparent, hroot]
    · by_cases h : uf.parent y = y
      · rw [root_of_parent_eq h, if_neg hy, root_of_parent_eq ((hof y hy).trans h)]
      · have hup : uf.parent y < y := lt_of_le_of_ne (uf.parent_le y) h
        rw [← root_parent (uf.link low high hlt.le), hof y hy, ih _ hup, root_parent]

theorem find_find (uf : UnionFind) (a b : Nat) : (uf.find a).1 = uf.root a ∧
    ((uf.find a).2.find b).1 = uf.root b ∧ ∀ z, ((uf.find a).2.find b).2.root z = uf.root z := by
  refine ⟨uf.find_fst a, by rw [find_fst, root_find], fun z => ?_⟩
  rw [root_find, root_find]

theorem root_union (uf : UnionFind) (a b y : Nat) : (uf.union a b).root y =
    if uf.root y = max (uf.root a) (uf.root b) then min (uf.root a) (uf.root b)
    else uf.root y := by
  obtain ⟨hfirst, hsecond, hroots⟩ := uf.find_find a b
  show (if (uf.find a).1 = ((uf.find a).2.find b).1 then _ else _ : UnionFind).root y = _
  by_cases heq : uf.root a = uf.root b
  · rw [if_pos (by rw [hfirst, hsecond, heq]), hroots, heq, max_self, min_self]
    by_cases hy : uf.root y = uf.root b
    · rw [if_pos hy, hy]
    · rw [if_neg hy]
  · rw [if_neg (by rw [hfirst, hsecond]; exact heq)]
    have hfixed : ∀ z, ((uf.find a).2.find b).2.parent (uf.root z) = uf.root z := by
      intro z
      rw [← hroots z]
      exact parent_root _ z
    have hlt : min (uf.root a) (uf.root b) < max (uf.root a) (uf.root b) := min_lt_max.mpr heq
    have hlow : ((uf.find a).2.find b).2.parent (min (uf.root a) (uf.root b)) =
        min (uf.root a) (uf.root b) := by
      rcases min_choice (uf.root a) (uf.root b) with h | h <;> rw [h] <;> exact hfixed _
    have hhigh : ((uf.find a).2.find b).2.parent (max (uf.root a) (uf.root b)) =
        max (uf.root a) (uf.root b) := by
      rcases max_choice (uf.root a) (uf.root b) with h | h <;> rw [h] <;> exact hfixed _
    have hlink := root_link hlt hlow hhigh y
    rw [hroots] at hlink
    rw [← hlink]
    simp only [hfirst, hsecond]

/-! ### Classes -/

/-- The two have one root. -/
def Same (uf : UnionFind) (x y : Nat) : Prop := uf.root x = uf.root y

theorem Same.symm (h : uf.Same x y) : uf.Same y x := Eq.symm h

theorem Same.trans {z : Nat} (hxy : uf.Same x y) (hyz : uf.Same y z) : uf.Same x z :=
  Eq.trans hxy hyz

theorem same_union_iff : (uf.union a b).Same x y ↔
    uf.Same x y ∨ (uf.Same x a ∧ uf.Same b y) ∨ (uf.Same x b ∧ uf.Same a y) := by
  unfold Same
  rw [root_union, root_union]
  rcases le_total (uf.root a) (uf.root b) with h | h
  · rw [max_eq_right h, min_eq_left h]
    split <;> split <;> omega
  · rw [max_eq_left h, min_eq_right h]
    split <;> split <;> omega

/-- The roots below `n`. -/
def roots (uf : UnionFind) (n : Nat) : Finset Nat := (Finset.range n).filter fun x => uf.root x = x

theorem roots_congr {uf' : UnionFind} (h : ∀ x, uf'.root x = uf.root x) (n : Nat) :
    uf'.roots n = uf.roots n := by
  unfold roots
  simp only [h]

theorem roots_of_map_eq {uf' : UnionFind} (h : (range n).map uf.root = (range n).map uf'.root) :
    uf.roots n = uf'.roots n := by
  refine Finset.filter_congr fun x hx => ?_
  have hroot := map_inj_left.mp h x (mem_range.mpr (Finset.mem_range.mp hx))
  rw [hroot]

theorem card_roots_le (uf : UnionFind) (n : Nat) : (uf.roots n).card ≤ n := by
  have hle := Finset.card_filter_le (Finset.range n) fun x => uf.root x = x
  rwa [Finset.card_range] at hle

theorem card_roots_union_lt (ha : a < n) (hb : b < n) (h : ¬ uf.Same a b) :
    ((uf.union a b).roots n).card < (uf.roots n).card := by
  have hne : uf.root a ≠ uf.root b := h
  have hmin : min (uf.root a) (uf.root b) ≠ max (uf.root a) (uf.root b) := (min_lt_max.mpr hne).ne
  apply Finset.card_lt_card
  rw [Finset.ssubset_iff_of_subset]
  · -- the greater root is gone
    refine ⟨max (uf.root a) (uf.root b), Finset.mem_filter.mpr ⟨?_, ?_⟩, ?_⟩
    · have hra := uf.root_le a
      have hrb := uf.root_le b
      rw [Finset.mem_range]
      omega
    · rcases max_choice (uf.root a) (uf.root b) with h | h <;> rw [h] <;> exact uf.root_root _
    · intro hmem
      have hroot := (Finset.mem_filter.mp hmem).2
      have hfixed : uf.root (max (uf.root a) (uf.root b)) = max (uf.root a) (uf.root b) := by
        rcases max_choice (uf.root a) (uf.root b) with h | h <;> rw [h] <;> exact uf.root_root _
      rw [root_union, if_pos hfixed] at hroot
      exact hmin hroot
  · intro x hx
    obtain ⟨hrange, hroot⟩ := Finset.mem_filter.mp hx
    refine Finset.mem_filter.mpr ⟨hrange, ?_⟩
    rw [root_union] at hroot
    by_cases hmax : uf.root x = max (uf.root a) (uf.root b)
    · rw [if_pos hmax] at hroot
      have hle := uf.root_le x
      have hlt := min_lt_max.mpr hne
      omega
    · rwa [if_neg hmax] at hroot

/-! ### Many unions -/

/-- A pair is joined where it is not yet, which is noted. -/
def join (s : UnionFind × Bool) (pair : Nat × Nat) : UnionFind × Bool :=
  let (ra, uf) := s.1.find pair.1
  let (rb, uf) := uf.find pair.2
  if ra = rb then (uf, s.2) else (uf.union pair.1 pair.2, true)

theorem root_union_congr {uf' : UnionFind} (h : ∀ x, uf'.root x = uf.root x) (a b y : Nat) :
    (uf'.union a b).root y = (uf.union a b).root y := by
  rw [root_union, root_union, h, h, h]

theorem join_cases (uf : UnionFind) (changed : Bool) (a b : Nat) :
    (uf.Same a b ∧ (∀ x, (join (uf, changed) (a, b)).1.root x = uf.root x) ∧
      (join (uf, changed) (a, b)).2 = changed) ∨
    (¬ uf.Same a b ∧ (∀ x, (join (uf, changed) (a, b)).1.root x = (uf.union a b).root x) ∧
      (join (uf, changed) (a, b)).2 = true) := by
  obtain ⟨hfirst, hsecond, hroots⟩ := uf.find_find a b
  have hjoin : join (uf, changed) (a, b) =
      if uf.root a = uf.root b then (((uf.find a).2.find b).2, changed)
      else (((uf.find a).2.find b).2.union a b, true) := by
    show (if (uf.find a).1 = ((uf.find a).2.find b).1 then _ else _) = _
    rw [hfirst, hsecond]
  rw [hjoin]
  by_cases heq : uf.root a = uf.root b
  · rw [if_pos heq]
    exact .inl ⟨heq, hroots, rfl⟩
  · rw [if_neg heq]
    exact .inr ⟨heq, root_union_congr hroots a b, rfl⟩

/-- Pairs one after the other. -/
def joinAll (s : UnionFind × Bool) (pairs : List (Nat × Nat)) : UnionFind × Bool :=
  pairs.foldl join s

section

variable {changed : Bool} {pairs : List (Nat × Nat)}

/-- What relates the members of each class and the pairs relates the members afterwards. -/
theorem joinAll_least {R : Nat → Nat → Prop} (hsymm : ∀ {x y}, R x y → R y x)
    (htrans : ∀ {x y z}, R x y → R y z → R x z)
    (hpairs : ∀ pair ∈ pairs, pair.1 < n ∧ pair.2 < n ∧ R pair.1 pair.2)
    (h : ∀ x < n, ∀ y < n, uf.Same x y → R x y) :
    ∀ x < n, ∀ y < n, (joinAll (uf, changed) pairs).1.Same x y → R x y := by
  induction pairs generalizing uf changed with
  | nil => exact h
  | cons pair pairs ih =>
    obtain ⟨⟨ha, hb, hab⟩, hrest⟩ := forall_mem_cons.mp hpairs
    have hnext : ∀ x < n, ∀ y < n, (UnionFind.join (uf, changed) pair).1.Same x y → R x y := by
      intro x hx y hy hxy
      unfold Same at hxy
      rcases join_cases uf changed pair.1 pair.2 with ⟨-, hroot, -⟩ | ⟨-, hroot, -⟩
      · rw [hroot, hroot] at hxy
        exact h x hx y hy hxy
      · rw [hroot, hroot] at hxy
        rcases same_union_iff.mp hxy with hsame | ⟨hxa, hby⟩ | ⟨hxb, hay⟩
        · exact h x hx y hy hsame
        · exact htrans (h x hx _ ha hxa) (htrans hab (h _ hb y hy hby))
        · exact htrans (h x hx _ hb hxb) (htrans (hsymm hab) (h _ ha y hy hay))
    exact ih hrest hnext

theorem joinAll_cons {changed' : Bool} {pair : Nat × Nat}
    (h : (UnionFind.join (uf, changed) pair).2 = changed') : joinAll (uf, changed) (pair :: pairs) =
      joinAll ((UnionFind.join (uf, changed) pair).1, changed') pairs := by
  subst h
  rfl

theorem joinAll_noted (hpairs : ∀ pair ∈ pairs, pair.1 < n ∧ pair.2 < n) (uf : UnionFind) :
    (joinAll (uf, true) pairs).2 = true ∧
      ((joinAll (uf, true) pairs).1.roots n).card ≤ (uf.roots n).card := by
  induction pairs generalizing uf with
  | nil => exact ⟨rfl, le_rfl⟩
  | cons pair pairs ih =>
    obtain ⟨⟨ha, hb⟩, hrest⟩ := forall_mem_cons.mp hpairs
    have hstep : (UnionFind.join (uf, true) pair).2 = true ∧
        ((UnionFind.join (uf, true) pair).1.roots n).card ≤ (uf.roots n).card := by
      rcases join_cases uf true pair.1 pair.2 with ⟨-, hroot, hc⟩ | ⟨hnot, hroot, hc⟩
      · exact ⟨hc, (congrArg _ (roots_congr hroot n)).le⟩
      · refine ⟨hc, ?_⟩
        rw [roots_congr hroot n]
        exact (card_roots_union_lt ha hb hnot).le
    obtain ⟨hc, hle⟩ := ih hrest (UnionFind.join (uf, true) pair).1
    rw [joinAll_cons hstep.1]
    exact ⟨hc, hle.trans hstep.2⟩

/-- Either nothing changed and every pair was in one class, or there are fewer roots. -/
theorem joinAll_cases (hpairs : ∀ pair ∈ pairs, pair.1 < n ∧ pair.2 < n) (uf : UnionFind) :
    ((joinAll (uf, false) pairs).2 = false ∧
      (∀ x, (joinAll (uf, false) pairs).1.root x = uf.root x) ∧
      ∀ pair ∈ pairs, uf.Same pair.1 pair.2) ∨
    ((joinAll (uf, false) pairs).2 = true ∧
      ((joinAll (uf, false) pairs).1.roots n).card < (uf.roots n).card) := by
  induction pairs generalizing uf with
  | nil => exact .inl ⟨rfl, fun _ => rfl, fun _ h => absurd h not_mem_nil⟩
  | cons pair pairs ih =>
    obtain ⟨⟨ha, hb⟩, hrest⟩ := forall_mem_cons.mp hpairs
    rcases join_cases uf false pair.1 pair.2 with ⟨hsame, hroot, hc⟩ | ⟨hnot, hroot, hc⟩
    · rw [joinAll_cons hc]
      rcases ih hrest (UnionFind.join (uf, false) pair).1 with ⟨hno, hroots, hall⟩ | ⟨hyes, hlt⟩
      · refine .inl ⟨hno, fun x => (hroots x).trans (hroot x), ?_⟩
        refine forall_mem_cons.mpr ⟨hsame, fun p hp => ?_⟩
        have hp' := hall p hp
        unfold Same at hp'
        rwa [hroot, hroot] at hp'
      · refine .inr ⟨hyes, ?_⟩
        rwa [roots_congr hroot n] at hlt
    · -- the first pair of two classes
      obtain ⟨hyes, hle⟩ := joinAll_noted hrest (UnionFind.join (uf, false) pair).1
      rw [joinAll_cons hc]
      refine .inr ⟨hyes, hle.trans_lt ?_⟩
      rw [roots_congr hroot n]
      exact card_roots_union_lt ha hb hnot

end

end UnionFind
