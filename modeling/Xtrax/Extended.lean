import Mathlib.Algebra.Order.Ring.Rat
import Mathlib.Algebra.Order.Group.Abs
import Mathlib.Tactic.Linarith

/-!
# Numbers with infinities and NaN

Floats without rounding: the rationals, two infinities and NaN.  A difference of equal infinities
is NaN, a comparison with NaN is false, and the maximum of an array is NaN when one of its entries
is (`npMax`), while the maximum of two Python numbers is the first one when they do not compare
(`pyMax`).
-/

inductive Extended
  | finite (q : ℚ)
  | infinity (negative : Bool)
  | nan
  deriving DecidableEq

namespace Extended

open List

variable {a b t x : Extended} {l : List Extended}

def abs : Extended → Extended
  | finite q => finite |q|
  | infinity _ => infinity false
  | nan => nan

def neg : Extended → Extended
  | finite q => finite (-q)
  | infinity negative => infinity (!negative)
  | nan => nan

def add : Extended → Extended → Extended
  | nan, _ => nan
  | _, nan => nan
  | finite p, finite q => finite (p + q)
  | finite _, infinity negative => infinity negative
  | infinity negative, finite _ => infinity negative
  | infinity a, infinity b => if a = b then infinity a else nan

def sub (a b : Extended) : Extended := a.add b.neg

/-- The product with an infinity has the sign of both, and is NaN for zero. -/
def mul : Extended → Extended → Extended
  | nan, _ => nan
  | _, nan => nan
  | finite p, finite q => finite (p * q)
  | finite p, infinity negative => if p = 0 then nan else infinity (decide (p < 0) ^^ negative)
  | infinity negative, finite p => if p = 0 then nan else infinity (decide (p < 0) ^^ negative)
  | infinity a, infinity b => infinity (a ^^ b)

/-- `a <= b`. -/
def le : Extended → Extended → Bool
  | nan, _ => false
  | _, nan => false
  | finite p, finite q => p ≤ q
  | infinity true, _ => true
  | _, infinity false => true
  | infinity false, _ => false
  | _, infinity true => false

def npMax (a b : Extended) : Extended :=
  if a = nan ∨ b = nan then nan else if le a b then b else a

/-- `max(a, b)` of Python: the first, unless the second is greater. -/
def pyMax (a b : Extended) : Extended := if le b a = false ∧ le a b = true then b else a

/-- `np.max(entries, initial=a)`. -/
def maxOf (a : Extended) (entries : List Extended) : Extended := entries.foldl npMax a

/-- The magnitude of a finite number. -/
def magnitude? : Extended → Option ℚ
  | finite q => some |q|
  | _ => none

/-- The largest finite magnitude, or zero. -/
def finitePeak (entries : List Extended) : ℚ := (entries.filterMap magnitude?).foldl max 0

/-! ### The order -/

theorem le_or_le (ha : a ≠ nan) (hb : b ≠ nan) : le a b = true ∨ le b a = true := by
  cases a with
  | nan => exact absurd rfl ha
  | finite p =>
    cases b with
    | nan => exact absurd rfl hb
    | finite q =>
      rcases Rat.le_total (a := p) (b := q) with h | h
      · exact .inl (decide_eq_true h)
      · exact .inr (decide_eq_true h)
    | infinity n =>
      cases n
      · exact .inl rfl
      · exact .inr rfl
  | infinity m =>
    cases b with
    | nan => exact absurd rfl hb
    | finite q =>
      cases m
      · exact .inr rfl
      · exact .inl rfl
    | infinity n => cases m <;> cases n <;> decide

theorem le_self (ha : a ≠ nan) : le a a = true := by
  cases a with
  | finite q => exact decide_eq_true le_rfl
  | infinity n => cases n <;> rfl
  | nan => exact absurd rfl ha

theorem nan_le : le nan t ≠ true := Bool.false_ne_true

theorem ne_nan_of_le (h : le a b = true) : a ≠ nan := by
  rintro rfl
  exact nan_le h

theorem infinity_le : le (infinity false) t = true ↔ t = infinity false := by
  cases t with
  | infinity n => cases n <;> decide
  | _ => exact ⟨nofun, nofun⟩

theorem le_infinity : le a (infinity false) = true ↔ a ≠ nan := by
  cases a with
  | infinity n => cases n <;> decide
  | finite q => exact ⟨fun _ => nofun, fun _ => rfl⟩
  | nan => decide

theorem finite_le_finite {p q : ℚ} : le (finite p) (finite q) = true ↔ p ≤ q := decide_eq_true_iff

theorem le_trans (hab : le a b = true) (hbt : le b t = true) : le a t = true := by
  cases a with
  | nan => exact absurd hab nan_le
  | finite p =>
    cases b with
    | nan => exact absurd hbt nan_le
    | finite q =>
      cases t with
      | nan => exact absurd hbt Bool.false_ne_true
      | finite r =>
        exact finite_le_finite.mpr ((finite_le_finite.mp hab).trans (finite_le_finite.mp hbt))
      | infinity n =>
        cases n
        · rfl
        · exact absurd hbt Bool.false_ne_true
    | infinity m =>
      cases m with
      | false => rw [infinity_le.mp hbt, le_infinity]; exact ne_nan_of_le hab
      | true => exact absurd hab Bool.false_ne_true
  | infinity n =>
    cases n with
    | false => rwa [← infinity_le.mp hab]
    | true =>
      cases t with
      | nan => cases b with
        | infinity m => cases m <;> exact absurd hbt Bool.false_ne_true
        | _ => exact absurd hbt Bool.false_ne_true
      | _ => rfl

theorem npMax_le_iff : le (npMax a b) t = true ↔ le a t = true ∧ le b t = true := by
  by_cases hnan : a = nan ∨ b = nan
  · rw [npMax, if_pos hnan]
    constructor
    · intro h
      exact absurd h nan_le
    · rintro ⟨ha, hb⟩
      rcases hnan with rfl | rfl
      · exact ha
      · exact hb
  · rw [npMax, if_neg hnan]
    obtain ⟨ha, hb⟩ := not_or.mp hnan
    by_cases hab : le a b = true
    · rw [if_pos hab]
      exact ⟨fun h => ⟨le_trans hab h, h⟩, And.right⟩
    · rw [if_neg hab]
      have hba : le b a = true := (le_or_le ha hb).resolve_left hab
      exact ⟨fun h => ⟨h, le_trans hba h⟩, And.left⟩

theorem maxOf_le_iff : le (maxOf a l) t = true ↔ le a t = true ∧ ∀ x ∈ l, le x t = true := by
  induction l generalizing a with
  | nil => simp [maxOf]
  | cons b l ih => rw [maxOf, foldl_cons, ← maxOf, ih, npMax_le_iff, forall_mem_cons, and_assoc]

theorem npMax_eq : npMax a b = a ∨ npMax a b = b := by
  by_cases hnan : a = nan ∨ b = nan
  · rw [npMax, if_pos hnan]
    exact hnan.imp Eq.symm Eq.symm
  · rw [npMax, if_neg hnan]
    by_cases hab : le a b = true
    · exact .inr (if_pos hab)
    · exact .inl (if_neg hab)

theorem maxOf_mem : maxOf a l ∈ a :: l := by
  induction l generalizing a with
  | nil => exact mem_cons_self
  | cons b l ih =>
    have hmem : maxOf a (b :: l) ∈ npMax a b :: l := ih
    rcases mem_cons.mp hmem with heq | hl
    · rw [heq]
      rcases npMax_eq (a := a) (b := b) with h | h
      · rw [h]
        exact mem_cons_self
      · rw [h]
        exact mem_cons_of_mem _ mem_cons_self
    · exact mem_cons_of_mem _ (mem_cons_of_mem _ hl)

theorem le_maxOf (hnan : nan ∉ a :: l) : ∀ x ∈ a :: l, le x (maxOf a l) = true := by
  have hself : le (maxOf a l) (maxOf a l) = true :=
    le_self fun h => hnan (h ▸ maxOf_mem)
  obtain ⟨ha, hl⟩ := maxOf_le_iff.mp hself
  exact forall_mem_cons.mpr ⟨ha, hl⟩

theorem pyMax_finite {p q : ℚ} : pyMax (finite p) (finite q) = finite (max p q) := by
  by_cases hpq : p < q
  · have hle : le (finite q) (finite p) = false := decide_eq_false (not_le.mpr hpq)
    rw [pyMax, if_pos ⟨hle, finite_le_finite.mpr hpq.le⟩, max_eq_right hpq.le]
  · have hle : le (finite q) (finite p) = true := finite_le_finite.mpr (not_lt.mp hpq)
    rw [pyMax, if_neg (by simp [hle]), max_eq_left (not_lt.mp hpq)]

/-! ### Finite magnitudes -/

theorem finitePeak_le_iff {c : ℚ} : finitePeak l ≤ c ↔ 0 ≤ c ∧ ∀ q, finite q ∈ l → |q| ≤ c := by
  have hfold : ∀ (qs : List ℚ) (p : ℚ), qs.foldl max p ≤ c ↔ p ≤ c ∧ ∀ q ∈ qs, q ≤ c := by
    intro qs
    induction qs with
    | nil => simp
    | cons q qs ih =>
      intro p
      rw [foldl_cons, ih, max_le_iff, forall_mem_cons, and_assoc]
  rw [finitePeak, hfold]
  refine and_congr_right fun _ => ?_
  constructor
  · intro h q hq
    exact h _ (mem_filterMap.mpr ⟨_, hq, rfl⟩)
  · intro h p hp
    obtain ⟨x, hx, hmag⟩ := mem_filterMap.mp hp
    cases x with
    | finite q =>
      obtain rfl := Option.some.inj hmag
      exact h q hx
    | _ => cases hmag

theorem finitePeak_mono {m : List Extended} (hsub : l ⊆ m) : finitePeak l ≤ finitePeak m := by
  obtain ⟨hzero, hle⟩ := finitePeak_le_iff.mp (le_rfl : finitePeak m ≤ finitePeak m)
  exact finitePeak_le_iff.mpr ⟨hzero, fun q hq => hle q (hsub hq)⟩

theorem maxOf_abs (hfinite : ∀ x ∈ a :: l, ∃ q, x = finite q) :
    maxOf a.abs (l.map abs) = finite (finitePeak (a :: l)) := by
  have hmem : maxOf a.abs (l.map abs) ∈ (a :: l).map abs := maxOf_mem
  obtain ⟨x, hx, heq⟩ := mem_map.mp hmem
  obtain ⟨q, rfl⟩ := hfinite x hx
  have hnan : nan ∉ (a :: l).map abs := by
    intro h
    obtain ⟨y, hy, hynan⟩ := mem_map.mp h
    obtain ⟨p, rfl⟩ := hfinite y hy
    cases hynan
  have hbound := le_maxOf hnan
  rw [← heq] at hbound ⊢
  have hle : finitePeak (a :: l) ≤ |q| := by
    refine finitePeak_le_iff.mpr ⟨abs_nonneg q, fun p hp => ?_⟩
    exact finite_le_finite.mp (hbound _ (mem_map.mpr ⟨_, hp, rfl⟩))
  have hge : |q| ≤ finitePeak (a :: l) := (finitePeak_le_iff.mp le_rfl).2 q hx
  exact congrArg finite (le_antisymm hge hle)

/-! ### Differences -/

theorem sub_finite {p q : ℚ} : (finite p).sub (finite q) = finite (p - q) := by
  rw [sub_eq_add_neg]
  rfl

theorem sub_nan : a.sub nan = nan := by cases a <;> rfl

theorem nan_sub : nan.sub a = nan := rfl

theorem infinity_sub_self (n : Bool) : (infinity n).sub (infinity n) = nan := by cases n <;> rfl

end Extended
