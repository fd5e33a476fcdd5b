import Xtrax.Extended
import Xtrax.NdArray
import Xtrax.PyTree

/-!
# Parity of a kernel with its reference

`compareOutputs` compares two trees of arrays: integers exactly, and of other arrays the real
parts, up to a tolerance that grows with the largest magnitude in the reference (`peak`).  When
that is infinite the tolerance is infinite too, and any numbers are close.  So what passes is
right just when no real part is infinite and the imaginary parts are close (`parity_sound_iff`).
-/

namespace Xtrax.KernelParity

open List Extended

inductive ExactDtype
  | bool | int8 | int16 | int32 | int64 | uint8 | uint16 | uint32 | uint64
  deriving DecidableEq

inductive FloatDtype
  | float16 | bfloat16 | float32 | float64
  deriving DecidableEq

inductive ComplexDtype
  | complex64 | complex128
  deriving DecidableEq

inductive Dtype
  | exact (dtype : ExactDtype)
  | float (dtype : FloatDtype)
  | complex (dtype : ComplexDtype)
  deriving DecidableEq

/-- An array: integers or booleans, floats, or pairs of a real and an imaginary part. -/
inductive Leaf
  | exact (dtype : ExactDtype) (values : NdArray Int)
  | float (dtype : FloatDtype) (values : NdArray Extended)
  | complex (dtype : ComplexDtype) (values : NdArray (Extended × Extended))

namespace Leaf

def dtype : Leaf → Dtype
  | exact dtype _ => .exact dtype
  | float dtype _ => .float dtype
  | complex dtype _ => .complex dtype

def shape : Leaf → List Nat
  | exact _ values => values.shape
  | float _ values => values.shape
  | complex _ values => values.shape

def isInexact : Leaf → Bool
  | exact _ _ => false
  | _ => true

/-- `astype(np.float64)`, which drops imaginary parts. -/
def asFloat64 : Leaf → NdArray Extended
  | exact _ values => values.map fun n : Int => finite n
  | float _ values => values
  | complex _ values => values.map Prod.fst

/-- The elements of an array of integers. -/
def integers : Leaf → List Int
  | exact _ values => values.entries
  | _ => []

end Leaf

/-! ### The comparison -/

/-- `np.max(np.abs(arr))`, or zero for an empty array. -/
def peak : List Extended → Extended
  | [] => finite 0
  | x :: entries => maxOf x.abs (entries.map abs)

def scaleRelativeAtol (ref : NdArray Extended) (rel : Extended) : Extended :=
  rel.mul (pyMax (finite 1) (peak ref.entries))

/-- `rel` when the caller gives none. -/
def defaultRel : Extended := finite (1 / 100000)

/-- A reason why outputs are not equal. -/
inductive Difference (T : Type)
  | structures (got want : T)
  | arrays (leaf : Nat) (got want : Dtype × List Nat)
  | exceeds (leaf : Nat) (err atol : Extended)
  | integers (leaf bad : Nat)

structure ParityResult (T : Type) where
  ok : Bool
  maxAbsErr : Extended
  intMismatches : Nat
  detail : List (Difference T)

/-- What the loop over the leaves has found. -/
structure Found (T : Type) where
  maxErr : Extended
  intBad : Nat
  detail : List (Difference T)

/-- `np.max(np.abs(g - w), initial=0.0)`. -/
def maxDiff (g w : NdArray Extended) : Extended :=
  maxOf (finite 0) (List.zipWith (fun a b => (a.sub b).abs) g.entries w.entries)

/-- `np.sum(g != w)`. -/
def differing (g w : List Int) : Nat := (List.zipWith (fun a b => decide (a ≠ b)) g w).count true

section Compare

variable {T : Type} (rel : Extended)

/-- The body of the loop. -/
def compareLeaf (found : Found T) (i : Nat) (g w : Leaf) : Found T :=
  if g.shape ≠ w.shape ∨ g.dtype ≠ w.dtype then
    { found with detail := found.detail ++ [.arrays i (g.dtype, g.shape) (w.dtype, w.shape)] }
  else if w.isInexact then
    let err := maxDiff g.asFloat64 w.asFloat64
    let atol := scaleRelativeAtol w.asFloat64 rel
    { found with
      maxErr := pyMax found.maxErr err
      detail := if le err atol then found.detail else found.detail ++ [.exceeds i err atol] }
  else
    let bad := differing g.integers w.integers
    { found with
      intBad := found.intBad + bad
      detail := if bad = 0 then found.detail else found.detail ++ [.integers i bad] }

variable [DecidableEq T] [Treedef T]

def compareOutputs (got want : PyTree T Leaf) : ParityResult T :=
  if got.treedef ≠ want.treedef then
    { ok := false
      maxAbsErr := infinity false
      intMismatches := 0
      detail := [.structures got.treedef want.treedef] }
  else
    let found := ((got.leaves.zip want.leaves).zipIdx).foldl
      (fun found p => compareLeaf rel found p.2 p.1.1 p.1.2) ⟨finite 0, 0, []⟩
    { ok := found.detail.isEmpty
      maxAbsErr := found.maxErr
      intMismatches := found.intBad
      detail := found.detail }

end Compare

/-! ### Matching outputs -/

/-- The tolerance for a leaf with these numbers: relative to the largest finite one. -/
def tolerance (rel : Extended) (entries : List Extended) : Extended :=
  rel.mul (finite (max 1 (finitePeak entries)))

/-- An infinity that is repeated, or finite numbers that differ by no more than `atol`. -/
def Close (atol g w : Extended) : Prop :=
  (∃ n, w = infinity n ∧ g = w) ∨
    ∃ p q, g = finite p ∧ w = finite q ∧ le (finite |p - q|) atol = true

/-- Arrays of one shape whose numbers are close. -/
def ArraysClose (atol : Extended) (g w : NdArray Extended) : Prop :=
  g.shape = w.shape ∧ ∀ idx, NdArray.Below w.shape idx → Close atol (g.get idx) (w.get idx)

/-- Real and imaginary parts. -/
def parts (values : NdArray (Extended × Extended)) : List Extended :=
  (values.map Prod.fst).entries ++ (values.map Prod.snd).entries

inductive LeafMatches (rel : Extended) : Leaf → Leaf → Prop
  | exact {d g w} : g.Same w → LeafMatches rel (.exact d g) (.exact d w)
  | float {d g w} : ArraysClose (tolerance rel w.entries) g w →
      LeafMatches rel (.float d g) (.float d w)
  | complex {d g w} : ArraysClose (tolerance rel (parts w)) (g.map Prod.fst) (w.map Prod.fst) →
      ArraysClose (tolerance rel (parts w)) (g.map Prod.snd) (w.map Prod.snd) →
      LeafMatches rel (.complex d g) (.complex d w)

/-- Outputs that match: one structure, and leaf by leaf one shape, one dtype and close numbers. -/
structure Matches {T : Type} [Treedef T] (rel : Extended) (got want : PyTree T Leaf) : Prop where
  treedef : got.treedef = want.treedef
  leaves : List.Forall₂ (LeafMatches rel) got.leaves want.leaves

/-! ### What passes -/

/-- Infinite as soon as a number is, else the largest magnitude, at least one. -/
def scale (entries : List Extended) : Extended :=
  if infinity false ∈ entries ∨ infinity true ∈ entries then infinity false else finite (max 1 (finitePeak entries))

/-- The differences are numbers within `rel` of the scale. -/
structure Passes (rel : Extended) (g w : NdArray Extended) : Prop where
  shape : g.shape = w.shape
  nonneg : le (finite 0) (rel.mul (scale w.entries)) = true
  within : ∀ idx, NdArray.Below w.shape idx →
    le ((g.get idx).sub (w.get idx)).abs (rel.mul (scale w.entries)) = true

/-- Leaves that pass: integers are equal, and real parts pass. -/
inductive LeafPasses (rel : Extended) : Leaf → Leaf → Prop
  | exact {d g w} : g.Same w → LeafPasses rel (.exact d g) (.exact d w)
  | float {d g w} : Passes rel g w → LeafPasses rel (.float d g) (.float d w)
  | complex {d g w} : Passes rel (g.map Prod.fst) (w.map Prod.fst) →
      LeafPasses rel (.complex d g) (.complex d w)

variable {rel t : Extended} {entries : List Extended} {g w : NdArray Extended}

theorem peak_of_infinite (hnan : nan ∉ entries)
    (hinf : infinity false ∈ entries ∨ infinity true ∈ entries) :
    peak entries = infinity false := by
  cases entries with
  | nil => exact absurd hinf (by simp)
  | cons x l =>
    have habs : infinity false ∈ (x :: l).map abs := by
      rcases hinf with h | h
      · exact mem_map.mpr ⟨_, h, rfl⟩
      · exact mem_map.mpr ⟨_, h, rfl⟩
    have hnone : nan ∉ (x :: l).map abs := by
      intro h
      obtain ⟨y, hy, habsNan⟩ := mem_map.mp h
      cases y with
      | nan => exact hnan hy
      | _ => cases habsNan
    exact infinity_le.mp (le_maxOf hnone _ habs)

theorem peak_of_finite (hfinite : ∀ x ∈ entries, ∃ q, x = finite q) :
    peak entries = finite (finitePeak entries) := by
  cases entries with
  | nil => rfl
  | cons x l => exact maxOf_abs hfinite

theorem scaleRelativeAtol_eq (hnan : nan ∉ w.entries) :
    scaleRelativeAtol w rel = rel.mul (scale w.entries) := by
  unfold scaleRelativeAtol scale
  by_cases hinf : infinity false ∈ w.entries ∨ infinity true ∈ w.entries
  · rw [if_pos hinf, peak_of_infinite hnan hinf]
    rfl
  · rw [if_neg hinf, peak_of_finite, pyMax_finite]
    intro x hx
    cases x with
    | finite q => exact ⟨q, rfl⟩
    | nan => exact absurd hx hnan
    | infinity n =>
      cases n with
      | false => exact absurd (.inl hx) hinf
      | true => exact absurd (.inr hx) hinf

theorem maxDiff_le_iff (hshape : g.shape = w.shape) : le (maxDiff g w) t = true ↔
    le (finite 0) t = true ∧
      ∀ idx, NdArray.Below w.shape idx → le ((g.get idx).sub (w.get idx)).abs t = true := by
  rw [maxDiff, maxOf_le_iff, NdArray.entries, NdArray.entries, hshape, zipWith_map, zipWith_self]
  refine and_congr_right fun _ => ?_
  simp only [forall_mem_map, NdArray.mem_indices]

theorem passes_iff (hshape : g.shape = w.shape) :
    le (maxDiff g w) (scaleRelativeAtol w rel) = true ↔ Passes rel g w := by
  rw [maxDiff_le_iff hshape]
  by_cases hnan : nan ∈ w.entries
  · -- a difference from NaN is within no tolerance
    obtain ⟨idx, hidx, heq⟩ := mem_map.mp hnan
    have hbelow : NdArray.Below w.shape idx := NdArray.mem_indices.mp hidx
    constructor
    · rintro ⟨-, hwithin⟩
      have hdiff := hwithin idx hbelow
      rw [heq, sub_nan] at hdiff
      exact absurd hdiff nan_le
    · intro h
      have hdiff := h.within idx hbelow
      rw [heq, sub_nan] at hdiff
      exact absurd hdiff nan_le
  · rw [scaleRelativeAtol_eq hnan]
    exact ⟨fun h => ⟨hshape, h.1, h.2⟩, fun h => ⟨h.nonneg, h.within⟩⟩

theorem differing_eq_zero_iff {g w : NdArray Int} (hshape : g.shape = w.shape) :
    differing g.entries w.entries = 0 ↔ g.Same w := by
  rw [differing, NdArray.entries, NdArray.entries, hshape, zipWith_map, zipWith_self, count_eq_zero]
  constructor
  · intro h
    refine ⟨hshape, fun idx hidx => ?_⟩
    by_contra hne
    exact h (mem_map.mpr ⟨idx, NdArray.mem_indices.mpr hidx, decide_eq_true hne⟩)
  · intro h htrue
    obtain ⟨idx, hidx, hne⟩ := mem_map.mp htrue
    exact of_decide_eq_true hne (h.entry idx (NdArray.mem_indices.mp hidx))

theorem LeafPasses.same_kind {g w : Leaf} (h : LeafPasses rel g w) :
    g.shape = w.shape ∧ g.dtype = w.dtype := by
  cases h with
  | exact h => exact ⟨h.shape, rfl⟩
  | float h => exact ⟨h.shape, rfl⟩
  | complex h => exact ⟨h.shape, rfl⟩

theorem added_eq_nil {α : Type} {c : Prop} [Decidable c] {found : List α} {reason : α} :
    (if c then found else found ++ [reason]) = [] ↔ found = [] ∧ c := by
  by_cases h : c
  · rw [if_pos h]
    exact ⟨fun hnil => ⟨hnil, h⟩, And.left⟩
  · rw [if_neg h]
    exact ⟨fun hnil => absurd hnil (by simp), fun hboth => absurd hboth.2 h⟩

theorem compareLeaf_detail {T : Type} {found : Found T} {i : Nat} {g w : Leaf} :
    (compareLeaf rel found i g w).detail = [] ↔ found.detail = [] ∧ LeafPasses rel g w := by
  unfold compareLeaf
  by_cases hkind : g.shape ≠ w.shape ∨ g.dtype ≠ w.dtype
  · rw [if_pos hkind]
    constructor
    · intro h
      exact absurd h (by simp)
    · rintro ⟨-, h⟩
      obtain ⟨hshape, hdtype⟩ := h.same_kind
      exact absurd hkind (by simp [hshape, hdtype])
  rw [if_neg hkind]
  obtain ⟨hshape, hdtype⟩ := not_or.mp hkind
  have hshape := not_not.mp hshape
  have hdtype := not_not.mp hdtype
  cases g with
  | exact d g =>
    cases w with
    | exact e w =>
      cases hdtype
      rw [if_neg (by simp [Leaf.isInexact])]
      dsimp only [Leaf.integers]
      rw [added_eq_nil, differing_eq_zero_iff hshape]
      exact and_congr_right fun _ => ⟨.exact, fun | .exact h => h⟩
    | float => cases hdtype
    | complex => cases hdtype
  | float d g =>
    cases w with
    | exact => cases hdtype
    | complex => cases hdtype
    | float e w =>
      cases hdtype
      rw [if_pos (by simp [Leaf.isInexact])]
      dsimp only [Leaf.asFloat64]
      rw [added_eq_nil, passes_iff hshape]
      exact and_congr_right fun _ => ⟨.float, fun | .float h => h⟩
  | complex d g =>
    cases w with
    | exact => cases hdtype
    | float => cases hdtype
    | complex e w =>
      cases hdtype
      rw [if_pos (by simp [Leaf.isInexact])]
      dsimp only [Leaf.asFloat64]
      rw [added_eq_nil, passes_iff hshape]
      exact and_congr_right fun _ => ⟨.complex, fun | .complex h => h⟩

theorem compareLeaves_detail {T : Type} {gs ws : List Leaf} (hlen : gs.length = ws.length)
    {found : Found T} {k : Nat} :
    (((gs.zip ws).zipIdx k).foldl (fun found p => compareLeaf rel found p.2 p.1.1 p.1.2)
        found).detail = [] ↔ found.detail = [] ∧ List.Forall₂ (LeafPasses rel) gs ws := by
  induction gs generalizing ws found k with
  | nil =>
    cases ws with
    | nil => simp
    | cons => cases hlen
  | cons g gs ih =>
    cases ws with
    | nil => cases hlen
    | cons w ws =>
      rw [zip_cons_cons, zipIdx_cons, foldl_cons, ih (Nat.succ.inj hlen),
        compareLeaf_detail, forall₂_cons, and_assoc]

/-- **The outputs compare equal** just when their structures are equal and every leaf passes. -/
theorem compareOutputs_ok_iff {T : Type} [DecidableEq T] [Treedef T] {got want : PyTree T Leaf} :
    (compareOutputs rel got want).ok = true ↔
      got.treedef = want.treedef ∧ List.Forall₂ (LeafPasses rel) got.leaves want.leaves := by
  unfold compareOutputs
  by_cases htreedef : got.treedef = want.treedef
  · rw [if_neg (not_not.mpr htreedef)]
    dsimp only
    rw [List.isEmpty_iff, compareLeaves_detail (PyTree.length_eq htreedef)]
    exact ⟨fun h => ⟨htreedef, h.2⟩, fun h => ⟨rfl, h.2⟩⟩
  · rw [if_pos htreedef]
    exact ⟨fun h => absurd h Bool.false_ne_true, fun h => absurd h.1 htreedef⟩

/-! ### What passes and matches -/

/-- No number of the array is infinite. -/
def NoInfinity (a : NdArray Extended) : Prop :=
  ∀ idx, NdArray.Below a.shape idx → ∀ n, a.get idx ≠ infinity n

/-- Leaves without infinite real parts whose imaginary parts are close: `compare_outputs` does not look
at these, so they are a condition of their own. -/
inductive LeafPlain (rel : Extended) : Leaf → Leaf → Prop
  | exact {d e g w} : LeafPlain rel (.exact d g) (.exact e w)
  | float {d e g w} : NoInfinity g → NoInfinity w → LeafPlain rel (.float d g) (.float e w)
  | complex {d e g w} : NoInfinity (g.map Prod.fst) → NoInfinity (w.map Prod.fst) →
      ArraysClose (tolerance rel (parts w)) (g.map Prod.snd) (w.map Prod.snd) →
      LeafPlain rel (.complex d g) (.complex e w)

theorem tolerance_mono {l m : List Extended} (hsub : l ⊆ m)
    (hnonneg : le (finite 0) (tolerance rel l) = true) :
    le (tolerance rel l) (tolerance rel m) = true := by
  have hone : ∀ entries : List Extended, (0 : ℚ) < max 1 (finitePeak entries) := fun entries =>
    lt_of_lt_of_le one_pos (le_max_left _ _)
  cases rel with
  | nan => exact absurd hnonneg Bool.false_ne_true
  | finite q =>
    have hq : 0 ≤ q :=
      nonneg_of_mul_nonneg_left (finite_le_finite.mp hnonneg) (hone l)
    exact finite_le_finite.mpr
      (mul_le_mul_of_nonneg_left (max_le_max le_rfl (finitePeak_mono hsub)) hq)
  | infinity n =>
    have hinf : ∀ entries : List Extended, tolerance (infinity n) entries = infinity n := by
      intro entries
      rw [tolerance, mul, if_neg (hone entries).ne', decide_eq_false (hone entries).le.not_gt,
        Bool.false_xor]
    rw [hinf] at hnonneg
    rw [hinf, hinf]
    cases n with
    | false => rfl
    | true => exact absurd hnonneg Bool.false_ne_true

theorem scale_of_noInfinity (h : NoInfinity w) :
    scale w.entries = finite (max 1 (finitePeak w.entries)) := by
  refine if_neg ?_
  rintro (hmem | hmem)
  · obtain ⟨idx, hidx, heq⟩ := mem_map.mp hmem
    exact h idx (NdArray.mem_indices.mp hidx) false heq
  · obtain ⟨idx, hidx, heq⟩ := mem_map.mp hmem
    exact h idx (NdArray.mem_indices.mp hidx) true heq

/-- Without infinities what passes is close, also within the tolerance for more numbers. -/
theorem Passes.close (h : Passes rel g w) (hg : NoInfinity g) (hw : NoInfinity w)
    {entries : List Extended} (hsub : w.entries ⊆ entries) :
    ArraysClose (tolerance rel entries) g w := by
  refine ⟨h.shape, fun idx hidx => .inr ?_⟩
  have hnonneg := h.nonneg
  have hwithin := h.within idx hidx
  rw [scale_of_noInfinity hw] at hnonneg hwithin
  have hle := Extended.le_trans hwithin (tolerance_mono hsub hnonneg)
  have hginf := hg idx (h.shape ▸ hidx)
  have hwinf := hw idx hidx
  cases hgv : g.get idx with
  | nan =>
    rw [hgv, nan_sub] at hle
    exact absurd hle nan_le
  | infinity n => exact absurd hgv (hginf n)
  | finite p =>
    cases hwv : w.get idx with
    | nan =>
      rw [hwv, sub_nan] at hle
      exact absurd hle nan_le
    | infinity n => exact absurd hwv (hwinf n)
    | finite q =>
      rw [hgv, hwv, sub_finite] at hle
      exact ⟨p, q, rfl, rfl, hle⟩

/-- Where what passes is close there is no infinity: a repeated one would differ by NaN. -/
theorem Passes.noInfinity (h : Passes rel g w) {atol : Extended} (hclose : ArraysClose atol g w) :
    NoInfinity g ∧ NoInfinity w := by
  have hfinite : ∀ idx, NdArray.Below w.shape idx →
      ∃ p q, g.get idx = finite p ∧ w.get idx = finite q := by
    intro idx hidx
    rcases hclose.2 idx hidx with ⟨n, hw, hg⟩ | ⟨p, q, hg, hw, -⟩
    · have hwithin := h.within idx hidx
      rw [hg, hw, infinity_sub_self] at hwithin
      exact absurd hwithin nan_le
    · exact ⟨p, q, hg, hw⟩
  constructor
  · intro idx hidx n heq
    obtain ⟨p, q, hg, -⟩ := hfinite idx (h.shape ▸ hidx)
    rw [hg] at heq
    cases heq
  · intro idx hidx n heq
    obtain ⟨p, q, -, hw⟩ := hfinite idx hidx
    rw [hw] at heq
    cases heq

theorem LeafPasses.matches_iff {g w : Leaf} (h : LeafPasses rel g w) :
    LeafMatches rel g w ↔ LeafPlain rel g w := by
  cases h with
  | exact h => exact ⟨fun _ => .exact, fun _ => .exact h⟩
  | float h =>
    constructor
    · intro hmatches
      cases hmatches with
      | float hclose =>
        obtain ⟨hg, hw⟩ := h.noInfinity hclose
        exact .float hg hw
    · intro hplain
      cases hplain with
      | float hg hw => exact .float (h.close hg hw (List.Subset.refl _))
  | complex h =>
    constructor
    · intro hmatches
      cases hmatches with
      | complex hreal himag =>
        obtain ⟨hg, hw⟩ := h.noInfinity hreal
        exact .complex hg hw himag
    · intro hplain
      cases hplain with
      | complex hg hw himag => exact .complex (h.close hg hw (subset_append_left _ _)) himag

/-- **What compares equal matches** just when outputs of one structure, whose leaves pass, have no
infinite real parts and close imaginary parts. -/
theorem parity_sound_iff {T : Type} [DecidableEq T] [Treedef T] (rel : Extended)
    (got want : PyTree T Leaf) :
    ((compareOutputs rel got want).ok = true → Matches rel got want) ↔
      (got.treedef = want.treedef → List.Forall₂ (LeafPasses rel) got.leaves want.leaves →
        List.Forall₂ (LeafPlain rel) got.leaves want.leaves) := by
  have hleaves : ∀ {gs ws : List Leaf}, List.Forall₂ (LeafPasses rel) gs ws →
      (List.Forall₂ (LeafMatches rel) gs ws ↔ List.Forall₂ (LeafPlain rel) gs ws) := by
    intro gs ws hpasses
    induction hpasses with
    | nil => exact ⟨fun _ => .nil, fun _ => .nil⟩
    | cons h _ ih => rw [List.forall₂_cons, List.forall₂_cons, h.matches_iff, ih]
  rw [compareOutputs_ok_iff]
  constructor
  · intro h htreedef hpasses
    exact (hleaves hpasses).mp (h ⟨htreedef, hpasses⟩).leaves
  · rintro h ⟨htreedef, hpasses⟩
    exact ⟨htreedef, (hleaves hpasses).mpr (h htreedef hpasses)⟩

/-! ### An infinite reference -/

/-- The structure of one array. -/
inductive Single
  | leaf
  deriving DecidableEq

instance : Treedef Single := ⟨fun _ => 1⟩

/-- An array of two floats. -/
def pair (a b : Extended) : PyTree Single Leaf where
  treedef := .leaf
  leaves := [.float .float32 ⟨[2], fun idx => if idx = [0] then a else b⟩]
  length_leaves := rfl

theorem not_parity_sound :
    (compareOutputs defaultRel (pair (finite 0) (finite 5))
        (pair (infinity false) (finite 1))).ok = true ∧
      ¬ Matches defaultRel (pair (finite 0) (finite 5)) (pair (infinity false) (finite 1)) := by
  have hscale : defaultRel.mul (scale [infinity false, finite 1]) = infinity false := by
    rw [scale, if_pos (.inl List.mem_cons_self)]
    norm_num [defaultRel, mul]
  refine ⟨compareOutputs_ok_iff.mpr ⟨rfl, .cons (.float ⟨rfl, ?_, fun idx hidx => ?_⟩) .nil⟩, ?_⟩
  · show le (finite 0) (defaultRel.mul (scale [infinity false, finite 1])) = true
    rw [hscale]
    rfl
  · show le _ (defaultRel.mul (scale [infinity false, finite 1])) = true
    rw [hscale, le_infinity]
    by_cases hzero : idx = [0]
    · simp [hzero, sub, neg, add, Extended.abs]
    · simp [hzero, sub, neg, add, Extended.abs]
  · intro h
    cases h.leaves with
    | cons hleaf _ =>
      cases hleaf with
      | float hclose =>
        rcases hclose.2 [0] (.cons (by decide) .nil) with ⟨n, -, heq⟩ | ⟨p, q, -, heq, -⟩
        · cases heq
        · cases heq

end Xtrax.KernelParity
