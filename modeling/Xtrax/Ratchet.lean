import Xtrax.Dict

/-!
# The multi-metric ratchet

`computeRatchetDecision` compares a candidate's fitness dict with the best one so far, metric
by metric, over exact rationals.  The candidate improves on it if it wins on enough metrics, if
that stays so when a few of the metrics it wins on are removed, and if its relative deltas are
large for their spread.

On a metric a round of improvements cannot win at every step (`exists_not_win`), and a step that
wins on three fifths of the metrics leaves too few for a round of two steps, or over two metrics
(`round_trip_long`).  But three metrics go round in three steps (`goes_round`).
-/

namespace Xtrax.Ratchet

/-! ### Effect sizes -/

/-- The effect size `mean / stdev`: the infinite one and the zero of a sample without spread, or a
mean and a positive variance. -/
inductive EffectSize where
  | infinite
  | zero
  | ratio (mean variance : ℚ)
  deriving DecidableEq

/-- The effect size is at least `t`. -/
def EffectSize.atLeast : EffectSize → ℚ → Bool
  | .infinite, _ => true
  | .zero, t => t ≤ 0
  | .ratio mean variance, t =>
    if 0 ≤ t then 0 ≤ mean ∧ t ^ 2 * variance ≤ mean ^ 2
    else 0 ≤ mean ∨ mean ^ 2 ≤ t ^ 2 * variance

/-- The comparison of squares is the comparison with the quotient by the standard deviation. -/
theorem EffectSize.atLeast_ratio {mean variance t : ℚ} (hvar : 0 < variance) (ht : 0 ≤ t) :
    (EffectSize.ratio mean variance).atLeast t = true ↔
      (t : ℝ) ≤ (mean : ℝ) / Real.sqrt (variance : ℝ) := by
  have hsqrt : 0 < Real.sqrt (variance : ℝ) := Real.sqrt_pos.mpr (by exact_mod_cast hvar)
  have hsq : Real.sqrt (variance : ℝ) ^ 2 = variance := Real.sq_sqrt (by exact_mod_cast hvar.le)
  have ht' : (0 : ℝ) ≤ t := by exact_mod_cast ht
  rw [EffectSize.atLeast, if_pos ht, decide_eq_true_eq, le_div_iff₀ hsqrt]
  constructor
  · rintro ⟨hmean, hle⟩
    refine (sq_le_sq₀ (mul_nonneg ht' hsqrt.le) (by exact_mod_cast hmean)).mp ?_
    rw [mul_pow, hsq]
    exact_mod_cast hle
  · intro h
    have hmean : (0 : ℝ) ≤ mean := (mul_nonneg ht' hsqrt.le).trans h
    refine ⟨by exact_mod_cast hmean, ?_⟩
    have hle := (sq_le_sq₀ (mul_nonneg ht' hsqrt.le) hmean).mpr h
    rw [mul_pow, hsq] at hle
    exact_mod_cast hle

/-! ### The decision -/

/-- The structural errors of the input.  Rationals are finite. -/
inductive RatchetInputError where
  | mismatchedKeys
  | tooFewMetrics
  deriving DecidableEq

structure RatchetDecision where
  improved : Bool
  winRate : ℚ
  breakdownPoint : ℚ
  cohensD : EffectSize
  perMetricDelta : List (String × ℚ)

structure Thresholds where
  winRate : ℚ
  breakdownPoint : ℚ
  cohensD : ℚ

def defaultThresholds : Thresholds := ⟨3 / 5, 1 / 5, 1 / 5⟩

def relativeDelta (candidateValue bestValue : ℚ) (higherIsBetter : Bool) : ℚ :=
  let rawDelta := candidateValue - bestValue
  let signed := if higherIsBetter then rawDelta else -rawDelta
  if bestValue = 0 then signed else signed / |bestValue|

def breakdownPoint (winCount n : Nat) (winRateThreshold : ℚ) : ℚ :=
  if n = 0 then 0
  else if (winCount : ℚ) / n < winRateThreshold then 0
  else
    let maxRemovable := min winCount (n - 1)
    match (List.range' 1 maxRemovable).find? fun k =>
      ((winCount : ℚ) - k) / ((n : ℚ) - k) < winRateThreshold with
    | some k => (k : ℚ) / n
    | none => (maxRemovable : ℚ) / n

/-- The names in a dict. -/
def keySet {ν : Type} (d : Dict String ν) : Finset String := (d.entries.map (·.1)).toFinset

/-- `d[k]` of a name that is there. -/
def value (d : Dict String ℚ) (k : String) : ℚ := (d.get? k).getD 0

def mean (xs : List ℚ) : ℚ := xs.sum / xs.length

/-- The square of `statistics.stdev`. -/
def variance (xs : List ℚ) : ℚ :=
  (xs.map fun x => (x - mean xs) ^ 2).sum / ((xs.length : ℚ) - 1)

/-- The effect size of a sample. -/
def cohensD (xs : List ℚ) : EffectSize :=
  if variance xs = 0 then if 0 < mean xs then .infinite else .zero
  else .ratio (mean xs) (variance xs)

/-- The metrics, in order. -/
def sortedMetrics (d : Dict String ℚ) : List String :=
  (d.entries.map (·.1)).insertionSort (· ≤ ·)

section

variable (candidate best : Dict String ℚ) (higherIsBetter : Dict String Bool)

/-- The direction-corrected relative delta of a metric. -/
def metricDelta (m : String) : ℚ :=
  relativeDelta (value candidate m) (value best m) ((higherIsBetter.get? m).getD false)

def computeRatchetDecision (thresholds : Thresholds) : Except RatchetInputError RatchetDecision :=
  if ¬ (keySet candidate = keySet best ∧ keySet best = keySet higherIsBetter) then
    .error .mismatchedKeys
  else
    let metrics := sortedMetrics candidate
    let n := metrics.length
    if n < 2 then .error .tooFewMetrics
    else
      let deltas := metrics.map fun m => (m, metricDelta candidate best higherIsBetter m)
      let winCount := deltas.countP fun d => 0 < d.2
      let winRate := (winCount : ℚ) / n
      let breakdown := breakdownPoint winCount n thresholds.winRate
      let effect := cohensD (deltas.map (·.2))
      .ok ⟨thresholds.winRate ≤ winRate ∧ thresholds.breakdownPoint ≤ breakdown ∧
          effect.atLeast thresholds.cohensD,
        winRate, breakdown, effect, deltas⟩

/-- The candidate is accepted as an improvement over the best, by the default thresholds. -/
def Improves : Prop :=
  ∃ d, computeRatchetDecision candidate best higherIsBetter defaultThresholds = .ok d ∧
    d.improved = true

end

/-- The same names with the same values, in whatever order: `==` of dicts. -/
def SameDict (d e : Dict String ℚ) : Prop := ∀ k, d.get? k = e.get? k

/-! ### What a step wins -/

variable {candidate best : Dict String ℚ} {higherIsBetter : Dict String Bool}

/-- A value in the direction in which it gets better. -/
def directed (higherIsBetter : Dict String Bool) (d : Dict String ℚ) (m : String) : ℚ :=
  if (higherIsBetter.get? m).getD false then value d m else -value d m

theorem metricDelta_pos_iff {m : String} :
    0 < metricDelta candidate best higherIsBetter m ↔
      directed higherIsBetter best m < directed higherIsBetter candidate m := by
  have hsigned : (if (higherIsBetter.get? m).getD false then value candidate m - value best m
      else -(value candidate m - value best m)) =
      directed higherIsBetter candidate m - directed higherIsBetter best m := by
    unfold directed
    split <;> ring
  unfold metricDelta relativeDelta
  dsimp only
  rw [hsigned]
  split
  · exact sub_pos
  · rw [div_pos_iff_of_pos_right (abs_pos.mpr ‹_›), sub_pos]

/-- The metrics that the candidate wins on. -/
def wins (candidate best : Dict String ℚ) (higherIsBetter : Dict String Bool) : Finset String :=
  (keySet candidate).filter fun m => 0 < metricDelta candidate best higherIsBetter m

/-- An improvement is over the same metrics, at least two, and wins on three fifths of
them. -/
theorem Improves.three_fifths (h : Improves candidate best higherIsBetter) :
    keySet candidate = keySet best ∧ 2 ≤ (keySet candidate).card ∧
      3 * (keySet candidate).card ≤ 5 * (wins candidate best higherIsBetter).card := by
  have hperm := List.perm_insertionSort (· ≤ ·) (candidate.entries.map (·.1))
  have hnodup : (sortedMetrics candidate).Nodup := hperm.nodup_iff.mpr candidate.nodup
  have hset : (sortedMetrics candidate).toFinset = keySet candidate := by
    rw [keySet, sortedMetrics, List.toFinset_eq_of_perm _ _ hperm]
  have hlen : (sortedMetrics candidate).length = (keySet candidate).card := by
    rw [← hset, List.toFinset_card_of_nodup hnodup]
  have hcount : ((sortedMetrics candidate).map fun m =>
        (m, metricDelta candidate best higherIsBetter m)).countP (fun d => 0 < d.2) =
      (wins candidate best higherIsBetter).card := by
    rw [wins, ← hset, List.countP_map, List.countP_eq_length_filter,
      ← List.toFinset_card_of_nodup (hnodup.filter _)]
    congr 1
    ext m
    simp
  obtain ⟨d, hd, himproved⟩ := h
  unfold computeRatchetDecision at hd
  rw [ite_eq_iff'] at hd
  obtain ⟨hkeys, hd⟩ := hd
  by_cases hsame : keySet candidate = keySet best ∧ keySet best = keySet higherIsBetter
  · have hd := hd (not_not.mpr hsame)
    dsimp only at hd
    split at hd
    · exact nomatch hd
    · obtain rfl := Except.ok.inj hd
      obtain ⟨hrate, -⟩ := of_decide_eq_true himproved
      have hn : 2 ≤ (keySet candidate).card := by omega
      rw [hcount, hlen] at hrate
      refine ⟨hsame.1, hn, ?_⟩
      have hpos : (0 : ℚ) < (keySet candidate).card := by
        exact_mod_cast (by omega : 0 < (keySet candidate).card)
      have hrate : (3 / 5 : ℚ) ≤ (wins candidate best higherIsBetter).card /
        (keySet candidate).card := hrate
      rw [le_div_iff₀ hpos] at hrate
      have hle : (3 * (keySet candidate).card : ℚ) ≤
          5 * (wins candidate best higherIsBetter).card := by linarith
      exact_mod_cast hle
  · exact nomatch hkeys hsame

/-! ### Rounds -/

/-- **On no metric does every step win when the values come back.** -/
theorem exists_not_win {f : Nat → Dict String ℚ} {i j : Nat} (hij : i < j)
    (hsame : SameDict (f j) (f i)) (m : String) :
    ∃ t, i ≤ t ∧ t < j ∧ ¬ 0 < metricDelta (f (t + 1)) (f t) higherIsBetter m := by
  by_contra hnone
  have hall : ∀ t, i ≤ t → t < j → 0 < metricDelta (f (t + 1)) (f t) higherIsBetter m :=
    fun t hit htj => not_not.mp fun hlost => hnone ⟨t, hit, htj, hlost⟩
  -- the directed value grows from step to step
  have hgrow : ∀ k, i < k → k ≤ j →
      directed higherIsBetter (f i) m < directed higherIsBetter (f k) m := by
    intro k hik
    induction k, hik using Nat.le_induction with
    | base => exact fun hk => metricDelta_pos_iff.mp (hall i le_rfl (by omega))
    | succ k hik ih =>
      intro hk
      exact (ih (by omega)).trans (metricDelta_pos_iff.mp (hall k (by omega) (by omega)))
  have hback : directed higherIsBetter (f j) m = directed higherIsBetter (f i) m := by
    unfold directed value
    rw [hsame m]
  exact absurd hback (hgrow j hij le_rfl).ne'

variable {f : Nat → Dict String ℚ} {i j : Nat}

theorem keySet_eq_of_improves
    (himproves : ∀ t, i ≤ t → t < j → Improves (f (t + 1)) (f t) higherIsBetter) {t : Nat}
    (hit : i ≤ t) (htj : t ≤ j) : keySet (f t) = keySet (f i) := by
  induction t, hit using Nat.le_induction with
  | base => rfl
  | succ t hit ih => rw [(himproves t hit (by omega)).three_fifths.1, ih (by omega)]

/-- **Over a round, the metrics that are not won, counted at every step, are at least as many
as there are metrics.** -/
theorem card_le_sum_not_won (hij : i < j) (hsame : SameDict (f j) (f i))
    (himproves : ∀ t, i ≤ t → t < j → Improves (f (t + 1)) (f t) higherIsBetter) :
    (keySet (f i)).card ≤ ∑ t ∈ Finset.Ico i j,
      ((keySet (f i)).card - (wins (f (t + 1)) (f t) higherIsBetter).card) := by
  have hsub : keySet (f i) ⊆ (Finset.Ico i j).biUnion fun t =>
      keySet (f i) \ wins (f (t + 1)) (f t) higherIsBetter := by
    intro m hm
    obtain ⟨t, hit, htj, hlost⟩ : ∃ t, i ≤ t ∧ t < j ∧
        ¬ 0 < metricDelta (f (t + 1)) (f t) higherIsBetter m := exists_not_win hij hsame m
    refine Finset.mem_biUnion.mpr ⟨t, Finset.mem_Ico.mpr ⟨hit, htj⟩, ?_⟩
    exact Finset.mem_sdiff.mpr ⟨hm, fun hwon => hlost (Finset.mem_filter.mp hwon).2⟩
  refine (Finset.card_le_card hsub).trans (Finset.card_biUnion_le.trans ?_)
  refine Finset.sum_le_sum fun t ht => ?_
  obtain ⟨hit, htj⟩ := Finset.mem_Ico.mp ht
  have hkeys := keySet_eq_of_improves himproves (t := t + 1) (by omega) (by omega)
  have hwon : wins (f (t + 1)) (f t) higherIsBetter ⊆ keySet (f i) := by
    rw [← hkeys]
    exact Finset.filter_subset _ _
  exact (Finset.card_sdiff_of_subset hwon).le

/-- **A round takes at least three steps and three metrics.**  A sequence of fitness dicts,
each accepted as an improvement over the one before, has no dict that equals one that is one or
two steps earlier, and over two metrics none that equals any earlier one. -/
theorem round_trip_long (hij : i < j)
    (himproves : ∀ t, i ≤ t → t < j → Improves (f (t + 1)) (f t) higherIsBetter)
    (hsame : SameDict (f j) (f i)) : i + 3 ≤ j ∧ 3 ≤ (keySet (f i)).card := by
  have hsum := card_le_sum_not_won hij hsame himproves
  have htwo : 2 ≤ (keySet (f i)).card := by
    obtain ⟨hkeys, hn, -⟩ := (himproves i le_rfl hij).three_fifths
    rwa [hkeys] at hn
  -- no step leaves more than two fifths of the metrics
  have hstep : ∀ t ∈ Finset.Ico i j,
      (keySet (f i)).card - (wins (f (t + 1)) (f t) higherIsBetter).card ≤
        2 * (keySet (f i)).card / 5 := by
    intro t ht
    obtain ⟨hit, htj⟩ := Finset.mem_Ico.mp ht
    have hfifths := (himproves t hit htj).three_fifths.2.2
    rw [keySet_eq_of_improves himproves (by omega) (by omega)] at hfifths
    omega
  have hle := hsum.trans (Finset.sum_le_card_nsmul _ _ _ hstep)
  rw [Nat.card_Ico, smul_eq_mul] at hle
  constructor
  · by_contra hshort
    have hsteps : j - i ≤ 2 := by omega
    have := hle.trans (Nat.mul_le_mul_right _ hsteps)
    omega
  · by_contra hfew
    have hn : (keySet (f i)).card = 2 := by omega
    rw [hn] at hle
    omega

namespace Sample

/-- Three metrics, all of them better the higher they are. -/
def higher : Dict String Bool :=
  ⟨[("accuracy", true), ("recall", true), ("speed", true)], by decide⟩

def fitness (a r s : ℚ) : Dict String ℚ :=
  ⟨[("accuracy", a), ("recall", r), ("speed", s)], by simp⟩

/-- Three fitness dicts, one after the other and again. -/
def round (t : Nat) : Dict String ℚ :=
  if t % 3 = 0 then fitness 1 2 3 else if t % 3 = 1 then fitness 2 3 1 else fitness 3 1 2

theorem round_improves : ∀ t, 0 ≤ t → t < 3 → Improves (round (t + 1)) (round t) higher := by
  intro t _ ht
  interval_cases t
  · exact ⟨_, rfl, by decide +kernel⟩
  · exact ⟨_, rfl, by decide +kernel⟩
  · exact ⟨_, rfl, by decide +kernel⟩

theorem round_sameDict : SameDict (round 3) (round 0) := fun _ => rfl

theorem round_trip_long_three : 0 + 3 ≤ 3 ∧ 3 ≤ (keySet (round 0)).card :=
  round_trip_long (by decide) round_improves round_sameDict

/-- Three improvements, one after the other, lead back to where they started. -/
theorem goes_round :
    Improves (fitness 2 3 1) (fitness 1 2 3) higher ∧
      Improves (fitness 3 1 2) (fitness 2 3 1) higher ∧
      Improves (fitness 1 2 3) (fitness 3 1 2) higher :=
  ⟨round_improves 0 le_rfl (by decide), round_improves 1 (by decide) (by decide),
    round_improves 2 (by decide) (by decide)⟩

end Sample

end Xtrax.Ratchet
