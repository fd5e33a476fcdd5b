import Xtrax.BatchPlannerDedup

/-! # Heterogeneous axes

An axis is declared heterogeneous in its spec or in the planner.  The planner's list is read for
axes with a `CarrySpec` only, and the spec's flag under a budget only.  Under a budget the plan is
the first one that fits of a fixed sequence of trial plans, by released dedup axes and by demoted
axes (`trial`, `FirstFit`).  With that, `heterogeneous_iff` says exactly which planners and specs
keep the heterogeneous axes from being mapped at once or scanned.
-/
namespace Xtrax.BatchPlanner

open Except AxisDecision List Option

section
variable {α : Type} {specs : List AxisSpec}

/-- The axis is declared heterogeneous, in one of the two places. -/
def IsHeterogeneous (p : Planner α) (spec : AxisSpec) : Prop :=
  spec.heterogeneous = true ∨ spec.name ∈ p.heterogeneousAxes

/-- `Vmap`, `Scan` or `WhileCarry`: the elements are taken to have one shape. -/
def AxisStrategy.isUniform : AxisStrategy α → Bool
  | .vmap | .scan .. | .whileCarry .. => true
  | _ => false

/-! ## Trial plans -/

section
variable (budget : MemoryBudget α) (decisions : Decisions α specs)
  (pending : List (Fin specs.length))

/-- The decisions with the first `k` candidates demoted, and their estimate. -/
def trialAt : Nat → Decisions α specs × Option Int
  | 0 =>
    let first := initialDecisions pending decisions
    (first, budget.estimate (snapshot first))
  | k + 1 =>
    let (before, estimate) := trialAt k
    match (candidatesOf pending)[k]? with
    | none => (before, estimate)
    | some idx =>
      let spec := specs.get idx
      let trial := before.put idx
        (demotedDecision spec "joint-budget: demoted (pending final estimate)")
      let after := budget.estimate (snapshot trial)
      (trial.put idx (demotedDecision spec
        (demotedText spec (k + 1) (estimate.getD 0) (after.getD 0) budget.bytes)), after)

end

/-- The `k`-th trial plan after `r` dedup axes have been released. -/
def trial (budget : MemoryBudget α) (specs : List AxisSpec) (phases : List (Phase α)) (r k : Nat) :
    Decisions α specs × Option Int :=
  trialAt budget (releasedDecisions phases ((dedupIndices phases).take r))
    (releasedPending phases ((dedupIndices phases).take r)) k

/-- The candidates once `r` dedup axes have been released. -/
def trialCandidates (specs : List AxisSpec) (phases : List (Phase α)) (r : Nat) :
    List (Fin specs.length) :=
  candidatesOf (releasedPending phases ((dedupIndices phases).take r))

def Over (budget : MemoryBudget α) (estimate : Option Int) : Prop :=
  ∃ e, estimate = some e ∧ budget.bytes < e

/-- The trial plan fits, and none before it does. -/
structure FirstFit (budget : MemoryBudget α) (specs : List AxisSpec) (phases : List (Phase α))
    (r k : Nat) : Prop where
  le_released : r ≤ (dedupIndices phases : List (Fin specs.length)).length
  le_demoted : k ≤ (trialCandidates specs phases r).length
  fits : ∃ e, (trial budget specs phases r k).2 = some e ∧ e ≤ budget.bytes
  before : ∀ j < k, Over budget (trial budget specs phases r j).2
  earlier : ∀ r' < r, ∀ j ≤ (trialCandidates specs phases r').length,
    Over budget (trial budget specs phases r' j).2

variable {budget : MemoryBudget α} {decisions decisions' : Decisions α specs}
  {pending : List (Fin specs.length)} {phases : List (Phase α)} {i : Fin specs.length}
  {estimate : Int} {n r k : Nat}

theorem FirstFit.unique {r' k' : Nat} (h : FirstFit budget specs phases r k)
    (h' : FirstFit budget specs phases r' k') : r = r' ∧ k = k' := by
  have hnot : ∀ {estimate : Option Int}, (∃ e, estimate = some e ∧ e ≤ budget.bytes) →
      ¬ Over budget estimate := by
    rintro _ ⟨e, rfl, hle⟩ ⟨e', heq, hlt⟩
    obtain rfl := some.inj heq
    omega
  rcases Nat.lt_trichotomy r r' with hlt | rfl | hgt
  · exact absurd (h'.earlier r hlt k h.le_demoted) (hnot h.fits)
  · rcases Nat.lt_trichotomy k k' with hlt | rfl | hgt
    · exact absurd (h'.before k hlt) (hnot h.fits)
    · exact ⟨rfl, rfl⟩
    · exact absurd (h.before k' hgt) (hnot h'.fits)
  · exact absurd (h.earlier r' hgt k' h'.le_demoted) (hnot h'.fits)

theorem demoteLoop_trial {rest : List (Fin specs.length)} {estimate₀ : Int}
    (hrest : (candidatesOf pending).drop k = rest)
    (hk : trialAt budget decisions pending k = (decisions', some estimate₀))
    {result : Decisions α specs × Int}
    (hloop : demoteLoop budget rest decisions' estimate₀ k = .ok result) :
    ∃ m, k ≤ m ∧ m ≤ max k (candidatesOf pending).length ∧
      trialAt budget decisions pending m = (result.1, some result.2) ∧
      (∀ j, k ≤ j → j < m → Over budget (trialAt budget decisions pending j).2) ∧
      (m < (candidatesOf pending).length → result.2 ≤ budget.bytes) := by
  induction rest generalizing k decisions' estimate₀ with
  | nil =>
    obtain rfl := ok.inj hloop
    have hle := List.drop_eq_nil_iff.mp hrest
    exact ⟨k, le_rfl, le_max_left _ _, hk, fun j hkj hjk => by omega, fun hlt => by omega⟩
  | cons idx rest ih =>
    have hget : (candidatesOf pending)[k]? = some idx := by
      have hhead := congrArg (fun l => l[0]?) hrest
      simpa using hhead
    have hlt : k < (candidatesOf pending).length := (List.getElem?_eq_some_iff.mp hget).1
    unfold demoteLoop at hloop
    by_cases hfits : estimate₀ ≤ budget.bytes
    · rw [if_pos hfits] at hloop
      obtain rfl := ok.inj hloop
      exact ⟨k, le_rfl, le_max_left _ _, hk, fun j hkj hjk => by omega, fun _ => hfits⟩
    · rw [if_neg hfits] at hloop
      dsimp only at hloop
      split at hloop
      · cases hloop
      · rename_i after hafter
        have hnext : trialAt budget decisions pending (k + 1) =
            ((decisions'.put idx (demotedDecision (specs.get idx)
                "joint-budget: demoted (pending final estimate)")).put idx
              (demotedDecision (specs.get idx)
                (demotedText (specs.get idx) (k + 1) estimate₀ after budget.bytes)),
              some after) := by
          rw [trialAt, hk]
          dsimp only
          rw [hget]
          dsimp only
          rw [hafter]
          rfl
        have hdrop : (candidatesOf pending).drop (k + 1) = rest := by
          rw [← List.drop_drop, hrest]
          rfl
        obtain ⟨m, hkm, hm, htrial, hover, hstop⟩ := ih hdrop hnext hloop
        refine ⟨m, by omega, by omega, htrial, fun j hkj hjm => ?_, hstop⟩
        rcases Nat.eq_or_lt_of_le hkj with rfl | hlt
        · rw [hk]
          exact ⟨estimate₀, rfl, not_le.mp hfits⟩
        · exact hover j hlt hjm

theorem greedyDemote_trial
    (h : greedyDemote budget decisions pending = .ok (decisions', estimate, n)) :
    ∃ m ≤ (candidatesOf pending).length,
      trialAt budget decisions pending m = (decisions', some estimate) ∧
      (∀ j < m, Over budget (trialAt budget decisions pending j).2) ∧
      (m < (candidatesOf pending).length → estimate ≤ budget.bytes) := by
  obtain ⟨first, hfirst, hloop⟩ := demoteLoop_of_greedyDemote h
  have hzero : trialAt budget decisions pending 0 =
      (initialDecisions pending decisions, some first) := by
    rw [trialAt, hfirst]
  obtain ⟨m, -, hm, htrial, hover, hstop⟩ := demoteLoop_trial rfl hzero hloop
  exact ⟨m, by omega, htrial, fun j hj => hover j (Nat.zero_le j) hj, hstop⟩

theorem greedyDemote_over
    (h : greedyDemote budget decisions pending = .ok (decisions', estimate, n))
    (hover : budget.bytes < estimate) :
    ∀ j ≤ (candidatesOf pending).length, Over budget (trialAt budget decisions pending j).2 := by
  obtain ⟨m, hm, htrial, hbefore, hstop⟩ := greedyDemote_trial h
  intro j hj
  have hall : m = (candidatesOf pending).length := by
    by_contra hne
    have hle := hstop (by omega)
    omega
  rcases Nat.lt_or_ge j m with hlt | hge
  · exact hbefore j hlt
  · obtain rfl : j = m := by omega
    rw [htrial]
    exact ⟨estimate, rfl, hover⟩

theorem releaseLoop_trial {deviceLimit : Int} {p : Planner α} {rest : List (Fin specs.length)}
    {st st' : JointState α specs} (hdropped : st.dropped = (dedupIndices phases).take r)
    (hrest : (dedupIndices phases).drop r = rest) (h : Planned budget phases st)
    (hearlier : ∀ r' < r, ∀ j ≤ (trialCandidates specs phases r').length,
      Over budget (trial budget specs phases r' j).2)
    (hloop : releaseLoop deviceLimit p budget rest st = .ok st') :
    ∃ m, r ≤ m ∧ m ≤ max r (dedupIndices phases : List (Fin specs.length)).length ∧
      st'.dropped = (dedupIndices phases).take m ∧ Planned budget phases st' ∧
      ∀ r' < m, ∀ j ≤ (trialCandidates specs phases r').length,
        Over budget (trial budget specs phases r' j).2 := by
  induction rest generalizing st r with
  | nil =>
    obtain rfl := ok.inj hloop
    exact ⟨r, le_rfl, le_max_left _ _, hdropped, h, hearlier⟩
  | cons idx rest ih =>
    unfold releaseLoop at hloop
    by_cases hfits : st.estimate ≤ budget.bytes
    · rw [if_pos hfits] at hloop
      obtain rfl := ok.inj hloop
      exact ⟨r, le_rfl, le_max_left _ _, hdropped, h, hearlier⟩
    · rw [if_neg hfits] at hloop
      cases hrelease : release deviceLimit p budget st idx with
      | error e =>
        rw [hrelease] at hloop
        cases hloop
      | ok next =>
        rw [hrelease] at hloop
        have htake : (dedupIndices phases).take (r + 1) = (dedupIndices phases).take r ++ [idx] := by
          rw [take_add, hrest]
          rfl
        have hmem : idx ∈ (dedupIndices phases : List (Fin specs.length)) :=
          mem_of_mem_drop (by rw [hrest]; exact mem_cons_self)
        have hlt : r < (dedupIndices phases : List (Fin specs.length)).length := by
          by_contra hge
          rw [drop_eq_nil_of_le (not_lt.mp hge)] at hrest
          cases hrest
        have hover := h.greedy
        rw [h.pending, hdropped] at hover
        obtain ⟨hplanned, hnext⟩ := release_planned (mem_dedupIndices.mp hmem) h hrelease
        rw [hdropped, ← htake] at hnext
        have hdrop : (dedupIndices phases).drop (r + 1) = rest := by
          rw [← drop_drop, hrest]
          rfl
        have hearlier' : ∀ r' < r + 1, ∀ j ≤ (trialCandidates specs phases r').length,
            Over budget (trial budget specs phases r' j).2 := by
          intro r' hr' j hj
          rcases Nat.lt_succ_iff_lt_or_eq.mp hr' with hr' | rfl
          · exact hearlier r' hr' j hj
          · exact greedyDemote_over hover (not_le.mp hfits) j hj
        obtain ⟨m, hrm, hm, hresult⟩ := ih hnext hdrop hplanned hearlier' hloop
        exact ⟨m, by omega, by omega, hresult⟩

/-- **The plan under a budget** is the first trial plan that fits, up to the reasoning. -/
theorem planJointBudget_trial {deviceLimit : Int} {p : Planner α} {result : Decisions α specs}
    (h : planJointBudget deviceLimit p budget (fun idx => (phaseAt phases idx).decision)
      (pendingIndices phases) (dedupIndices phases) = .ok result) :
    ∃ r k, FirstFit budget specs phases r k ∧ ∃ estimate pending dropped,
      result = noteDropped budget dropped
        (finalizeReasoning budget estimate pending (trial budget specs phases r k).1) := by
  unfold planJointBudget at h
  cases hgreedy : greedyDemote budget (fun idx : Fin specs.length => (phaseAt phases idx).decision)
      (pendingIndices phases) with
  | error e =>
    rw [hgreedy] at h
    cases h
  | ok first =>
    rw [hgreedy] at h
    dsimp only at h
    cases hloop : releaseLoop deviceLimit p budget (dedupIndices phases)
        { decisions := first.1
          pending := pendingIndices phases
          estimate := first.2.1
          candidates := first.2.2
          dropped := [] } with
    | error e =>
      rw [hloop] at h
      cases h
    | ok st =>
      rw [hloop] at h
      dsimp only at h
      by_cases hover : budget.bytes < st.estimate
      · rw [if_pos hover] at h
        cases h
      · rw [if_neg hover] at h
        have hplanned : Planned budget phases
            ⟨first.1, pendingIndices phases, first.2.1, first.2.2, []⟩ := ⟨rfl, hgreedy⟩
        obtain ⟨r, -, hr, hdropped, hfinal, hearlier⟩ := releaseLoop_trial (r := 0) rfl rfl hplanned
          (fun r' hr' => absurd hr' (Nat.not_lt_zero r')) hloop
        have hlast := hfinal.greedy
        rw [hfinal.pending, hdropped] at hlast
        obtain ⟨k, hk, htrial, hbefore, -⟩ := greedyDemote_trial hlast
        have htrial : trial budget specs phases r k = (st.decisions, some st.estimate) := htrial
        refine ⟨r, k, ⟨by omega, hk, ⟨st.estimate, ?_, not_lt.mp hover⟩, hbefore, hearlier⟩,
          st.estimate, st.pending, st.dropped, ?_⟩
        · rw [htrial]
        · rw [htrial]
          exact (ok.inj h).symm

/-! ## Axes and their strategies -/

def AxisDecision.face (d : AxisDecision α) : AxisSpec × AxisStrategy α := (d.spec, d.strategy)

/-- Mapped, or in chunks. -/
def budgetStrategy (spec : AxisSpec) (chunked : Bool) : AxisStrategy α :=
  if chunked then .chunkedMap spec.defaultBatchSize else .vmap

theorem initialDecision_face (spec : AxisSpec) :
    (budgetInitialDecision spec : AxisDecision α).face =
      (spec, budgetStrategy spec spec.heterogeneous) := by
  unfold budgetInitialDecision budgetStrategy
  cases spec.heterogeneous <;> rfl

/-- A trial plan chunks the heterogeneous axes and the demoted ones, and maps the others. -/
theorem trialAt_face : ((trialAt budget decisions pending k).1 i).map face =
    if i ∈ pending then some (specs.get i, budgetStrategy (specs.get i)
      ((specs.get i).heterogeneous || i ∈ (candidatesOf pending).take k))
    else (decisions i).map face := by
  induction k with
  | zero =>
    rw [trialAt]
    dsimp only
    by_cases hi : i ∈ pending
    · rw [if_pos hi, initialDecisions_of_mem hi, map_some, initialDecision_face,
        take_zero, decide_eq_false not_mem_nil, Bool.or_false]
    · rw [if_neg hi, initialDecisions_of_notMem hi]
  | succ k ih =>
    rw [trialAt]
    dsimp only
    cases hget : (candidatesOf pending)[k]? with
    | none =>
      have hlen : (candidatesOf pending).length ≤ k := getElem?_eq_none_iff.mp hget
      rw [take_of_length_le hlen] at ih
      rw [take_of_length_le (by omega)]
      exact ih
    | some idx =>
      have htake : (candidatesOf pending).take (k + 1) = (candidatesOf pending).take k ++ [idx] := by
        rw [take_add_one, hget]
        rfl
      have hidx : idx ∈ pending := (mem_filter.mp (mem_of_getElem? hget)).1
      rw [htake]
      dsimp only
      by_cases hi : i = idx
      · rw [hi, if_pos hidx, Decisions.put, Function.update_self]
        have hmem : idx ∈ (candidatesOf pending).take k ++ [idx] :=
          mem_append_right _ (mem_singleton_self idx)
        rw [decide_eq_true hmem, Bool.or_true]
        rfl
      · rw [put_of_ne _ hi, put_of_ne _ hi, ih]
        have hmem : (i ∈ (candidatesOf pending).take k ++ [idx]) =
            (i ∈ (candidatesOf pending).take k) := by simp [hi]
        simp only [hmem]

/-- The decisions are about the axes they are for. -/
def Placed (decisions : Decisions α specs) : Prop :=
  ∀ i d, decisions i = some d → d.spec = specs.get i

theorem remake_face {f : Fin specs.length → AxisDecision α → AxisDecision α}
    (hf : ∀ idx d, d.spec = specs.get idx → (f idx d).face = d.face)
    {l : List (Fin specs.length)} (h : Placed decisions) :
    Placed (decisions.remake f l) ∧
      ∀ i, (decisions.remake f l i).map face = (decisions i).map face := by
  unfold Decisions.remake
  induction l generalizing decisions with
  | nil => exact ⟨h, fun _ => rfl⟩
  | cons idx l ih =>
    rw [foldl_cons]
    cases hd : decisions idx with
    | none => exact ih h
    | some d =>
      have hface := hf idx d (h idx d hd)
      have hput : ∀ i, (decisions.put idx (f idx d) i).map face = (decisions i).map face := by
        intro i
        by_cases hi : i = idx
        · rw [hi, hd, Decisions.put, Function.update_self, map_some, map_some, hface]
        · rw [put_of_ne _ hi]
      have hplaced : Placed (decisions.put idx (f idx d)) := by
        intro i d' hd'
        by_cases hi : i = idx
        · rw [hi, Decisions.put, Function.update_self] at hd'
          obtain rfl := some.inj hd'
          rw [hi, ← h idx d hd]
          exact congrArg Prod.fst hface
        · rw [put_of_ne _ hi] at hd'
          exact h i d' hd'
      obtain ⟨hrest, hfaces⟩ := ih hplaced
      exact ⟨hrest, fun i => (hfaces i).trans (hput i)⟩

theorem finalDecision_face {spec : AxisSpec} {d : AxisDecision α} (h : d.spec = spec) :
    (finalDecision budget estimate spec d).face = d.face := by
  unfold finalDecision face
  dsimp only
  split
  · split
    · rw [h]
    · rfl
  · split <;> rw [h]
  · rfl

/-! ## What the first pass decides -/

variable {deviceLimit : Int} {p : Planner α} {spec : AxisSpec} {phase : Phase α}
  {dedup : List (DedupSpec α)}

/-- The rules for one axis put it into chunks. -/
def IsChunked (deviceLimit : Int) (p : Planner α) (spec : AxisSpec) : Prop :=
  match p.memoryEstimator with
  | none => spec.defaultBatchSize < spec.cardinality
  | some memoryEstimator => ∃ e, memoryEstimator spec = some e ∧ deviceLimit < e

def HasDedup (dedup : List (DedupSpec α)) (spec : AxisSpec) : Prop :=
  ∃ ds ∈ dedup, ds.axisName = spec.name

theorem find_dedup_eq_none :
    (dedup.find? fun ds => ds.axisName = spec.name) = none ↔ ¬ HasDedup dedup spec := by
  rw [find?_eq_none]
  constructor
  · rintro h ⟨ds, hds, heq⟩
    exact h ds hds (decide_eq_true heq)
  · intro h ds hds heq
    exact h ⟨ds, hds, of_decide_eq_true heq⟩

theorem byCardinality_uniform {prefer : Bool} {d : AxisDecision α}
    (h : byCardinality p spec prefer = .ok d) :
    d.strategy.isUniform = false ↔
      prefer = true ∨ p.memoryEstimator = none ∧ spec.defaultBatchSize < spec.cardinality := by
  unfold byCardinality at h
  dsimp only at h
  by_cases hsmall : spec.cardinality ≤ spec.defaultBatchSize
  · rw [if_pos hsmall] at h
    cases prefer with
    | true =>
      obtain rfl := ok.inj h
      exact ⟨fun _ => .inl rfl, fun _ => rfl⟩
    | false =>
      obtain rfl := ok.inj h
      refine ⟨fun hfalse => (by cases hfalse), ?_⟩
      rintro (hfalse | ⟨-, hlt⟩)
      · cases hfalse
      · omega
  · rw [if_neg hsmall] at h
    by_cases hzero : spec.defaultBatchSize = 0
    · rw [if_pos hzero] at h
      cases h
    · rw [if_neg hzero] at h
      cases prefer with
      | true =>
        obtain rfl := ok.inj h
        exact ⟨fun _ => .inl rfl, fun _ => rfl⟩
      | false =>
        rw [if_neg Bool.false_ne_true] at h
        cases hestimator : p.memoryEstimator with
        | none =>
          rw [hestimator] at h
          obtain rfl := ok.inj h
          exact ⟨fun _ => .inr ⟨rfl, not_le.mp hsmall⟩, fun _ => rfl⟩
        | some memoryEstimator =>
          rw [hestimator] at h
          obtain rfl := ok.inj h
          exact ⟨fun hfalse => (by cases hfalse), by simp⟩

/-- The rules for one axis look at its buckets and its size, and not at what is declared. -/
theorem decideStrategy_uniform {d : AxisDecision α}
    (h : decideStrategy deviceLimit p spec = .ok d) :
    d.strategy.isUniform = false ↔ spec.bucketBoundaries ≠ none ∨ IsChunked deviceLimit p spec := by
  unfold decideStrategy at h
  unfold IsChunked
  cases hbuckets : spec.bucketBoundaries with
  | some boundaries =>
    rw [hbuckets] at h
    obtain rfl := ok.inj h
    exact ⟨fun _ => .inl (some_ne_none _), fun _ => rfl⟩
  | none =>
    rw [hbuckets] at h
    cases hestimator : p.memoryEstimator with
    | none =>
      rw [hestimator] at h
      rw [byCardinality_uniform h]
      simp [hestimator]
    | some memoryEstimator =>
      rw [hestimator] at h
      dsimp only at h ⊢
      cases hestimate : memoryEstimator spec with
      | none =>
        rw [hestimate] at h
        cases h
      | some estimate =>
        rw [hestimate] at h
        dsimp only at h
        have hcardinality : byCardinality p spec (deviceLimit < estimate) = .ok d := by
          cases hbound : spec.elementInputBytes with
          | none =>
            rw [hbound] at h
            exact h
          | some bound =>
            rw [hbound] at h
            dsimp only at h
            by_cases hbelow : estimate < bound
            · rw [if_pos hbelow] at h
              cases h
            · rw [if_neg hbelow] at h
              exact h
        rw [byCardinality_uniform hcardinality]
        simp [hestimator]

/-- The phase has decided on a strategy for elements of one shape. -/
def Phase.isUniform (phase : Phase α) : Bool := phase.decision.any fun d => d.strategy.isUniform

/-- What becomes of an axis in the first pass: only its `CarrySpec`, its `DedupSpec` and the rules
count. -/
theorem phaseOf_uniform (h : phaseOf deviceLimit p dedup spec = .ok phase) :
    (phase.isUniform = false ↔ NoCarry p spec ∧
      (HasDedup dedup spec ∨ p.budget ≠ none ∨ spec.bucketBoundaries ≠ none ∨
        IsChunked deviceLimit p spec)) ∧
      (phase.isDedup = true → NoCarry p spec) ∧ (phase.isPending = true → p.budget ≠ none) := by
  unfold phaseOf at h
  cases hcarry : p.carrySpecs.reverse.find? fun cs => cs.axisName = spec.name with
  | some cs =>
    have hno : ¬ NoCarry p spec := by
      intro hno
      rw [find_carry_eq_none.mpr hno] at hcarry
      cases hcarry
    rw [hcarry] at h
    dsimp only at h
    by_cases hname : spec.name ∈ p.heterogeneousAxes
    · rw [if_pos hname] at h
      cases h
    · rw [if_neg hname] at h
      obtain rfl := ok.inj h
      refine ⟨⟨fun hfalse => ?_, fun hboth => absurd hboth.1 hno⟩, ?_, ?_⟩
      · unfold Phase.isUniform carryDecision at hfalse
        cases hcollect : cs.collectOutputs <;> rw [hcollect] at hfalse <;> cases hfalse
      · intro hdedup
        cases hdedup
      · intro hpending
        cases hpending
  | none =>
    have hno : NoCarry p spec := find_carry_eq_none.mp hcarry
    rw [hcarry] at h
    dsimp only at h
    cases hdedup : dedup.find? fun ds => ds.axisName = spec.name with
    | some ds =>
      have hhas : HasDedup dedup spec := by
        by_contra hnot
        rw [find_dedup_eq_none.mpr hnot] at hdedup
        cases hdedup
      rw [hdedup] at h
      dsimp only at h
      unfold DedupSpec.toDedupGather at h
      cases hbucket : kBucket? ds.k with
      | none =>
        rw [hbucket] at h
        cases h
      | some kBucket =>
        rw [hbucket] at h
        obtain rfl := ok.inj h
        exact ⟨⟨fun _ => ⟨hno, .inl hhas⟩, fun _ => rfl⟩, fun _ => hno, fun hpending => by cases hpending⟩
    | none =>
      have hnot : ¬ HasDedup dedup spec := find_dedup_eq_none.mp hdedup
      rw [hdedup] at h
      dsimp only at h
      by_cases hrole : spec.role = .unknown
      · rw [if_pos hrole] at h
        cases h
      rw [if_neg hrole] at h
      by_cases hpending : p.budget.isSome = true ∧ spec.bucketBoundaries = none
      · rw [if_pos hpending] at h
        obtain rfl := ok.inj h
        have hbudget : p.budget ≠ none := isSome_iff_ne_none.mp hpending.1
        exact ⟨⟨fun _ => ⟨hno, .inr (.inl hbudget)⟩, fun _ => rfl⟩, fun _ => hno, fun _ => hbudget⟩
      · rw [if_neg hpending] at h
        cases hdecide : decideStrategy deviceLimit p spec with
        | error e =>
          rw [hdecide] at h
          cases h
        | ok d =>
          rw [hdecide] at h
          obtain rfl := ok.inj h
          refine ⟨?_, fun hfalse => (by cases hfalse), fun hfalse => (by cases hfalse)⟩
          show d.strategy.isUniform = false ↔ _
          rw [decideStrategy_uniform hdecide]
          constructor
          · intro hrules
            exact ⟨hno, .inr (.inr hrules)⟩
          · rintro ⟨-, hhas | hbudget | hrules⟩
            · exact absurd hhas hnot
            · -- under a budget an axis that is decided here has buckets
              refine .inl fun hnone => hpending ⟨isSome_iff_ne_none.mpr hbudget, hnone⟩
            · exact hrules

theorem mergeDedupSpecs_go_eq {seen : List String} {merged : List (DedupSpec α)}
    (h : mergeDedupSpecs.go seen dedup = .ok merged) : merged = dedup := by
  induction dedup generalizing seen merged with
  | nil => exact (ok.inj h).symm
  | cons ds dedup ih =>
    rw [mergeDedupSpecs.go] at h
    by_cases hseen : ds.axisName ∈ seen
    · rw [if_pos hseen] at h
      cases h
    · rw [if_neg hseen] at h
      cases hrest : mergeDedupSpecs.go (ds.axisName :: seen) dedup with
      | error e =>
        rw [hrest] at h
        cases h
      | ok rest =>
        rw [hrest] at h
        rw [← ok.inj h, ih hrest]

theorem firstPass_at (h : firstPass deviceLimit p specs = .ok phases) (i : Fin specs.length) :
    phaseOf deviceLimit p p.dedupSpecs (specs.get i) = .ok (phaseAt phases i) := by
  unfold firstPass at h
  cases hmerge : mergeDedupSpecs p.dedupSpecs with
  | error e =>
    rw [hmerge] at h
    cases h
  | ok merged =>
    rw [hmerge] at h
    rw [← mergeDedupSpecs_go_eq hmerge]
    exact phasesOf_at h i

theorem placed_released (h : firstPass deviceLimit p specs = .ok phases)
    (released : List (Fin specs.length)) : Placed (releasedDecisions phases released) := by
  intro i d hd
  unfold releasedDecisions releasedPhase at hd
  by_cases hi : i ∈ released
  · rw [if_pos hi] at hd
    unfold undeclaredPhase at hd
    cases hbuckets : (specs.get i).bucketBoundaries with
    | none =>
      rw [hbuckets] at hd
      cases hd
    | some boundaries =>
      rw [hbuckets] at hd
      obtain rfl := some.inj hd
      rfl
  · rw [if_neg hi] at hd
    exact firstPass_spec h hd

theorem trial_face (budget : MemoryBudget α) (phases : List (Phase α)) (r k : Nat)
    (i : Fin specs.length) :
    ((trial budget specs phases r k).1 i).map face =
      if i ∈ releasedPending phases ((dedupIndices phases).take r) then
        some (specs.get i, budgetStrategy (specs.get i)
          ((specs.get i).heterogeneous || i ∈ (trialCandidates specs phases r).take k))
      else
        (releasedDecisions phases ((dedupIndices phases).take r) i).map face :=
  trialAt_face

theorem placed_trial (h : firstPass deviceLimit p specs = .ok phases) :
    Placed (trial budget specs phases r k).1 := by
  intro i d hd
  have hface := trial_face budget phases r k i
  rw [hd] at hface
  by_cases hi : i ∈ releasedPending phases ((dedupIndices phases).take r)
  · rw [if_pos hi] at hface
    exact congrArg Prod.fst (some.inj hface)
  · rw [if_neg hi] at hface
    obtain ⟨d', hd', heq⟩ := map_eq_some_iff.mp hface.symm
    rw [← placed_released h _ i d' hd']
    exact (congrArg Prod.fst heq).symm

/-! ## When heterogeneous axes are safe -/

/-- What keeps a heterogeneous axis from being mapped at once or scanned.  It has no `CarrySpec`;
without a budget it has a `DedupSpec` or buckets, or the rules chunk it; with one it is not
pending in the plan that fits first, its spec says that it is heterogeneous, or it is demoted
there. -/
def KeepsShapes (deviceLimit : Int) (p : Planner α) (specs : List AxisSpec)
    (i : Fin specs.length) : Prop :=
  NoCarry p (specs.get i) ∧
    match p.budget with
    | none => HasDedup p.dedupSpecs (specs.get i) ∨ (specs.get i).bucketBoundaries ≠ none ∨
        IsChunked deviceLimit p (specs.get i)
    | some budget => ∀ phases, firstPass deviceLimit p specs = .ok phases → ∀ r k,
        FirstFit budget specs phases r k →
          i ∈ releasedPending phases ((dedupIndices phases).take r) →
            (specs.get i).heterogeneous = true ∨ i ∈ (trialCandidates specs phases r).take k

theorem trial_uniform (hfirst : firstPass deviceLimit p specs = .ok phases)
    (hbudget : p.budget = some budget) (hfit : FirstFit budget specs phases r k)
    (i : Fin specs.length) : ∃ strategy,
      ((trial budget specs phases r k).1 i).map face = some (specs.get i, strategy) ∧
        (strategy.isUniform = false ↔ KeepsShapes deviceLimit p specs i) := by
  have hphase := firstPass_at hfirst i
  obtain ⟨huniform, hdedup, -⟩ := phaseOf_uniform hphase
  -- a released axis was a dedup axis
  have hreleased : i ∈ (dedupIndices phases).take r → NoCarry p (specs.get i) := fun hi =>
    hdedup (mem_dedupIndices.mp (mem_of_mem_take hi))
  have hkeeps : KeepsShapes deviceLimit p specs i ↔ NoCarry p (specs.get i) ∧
      (i ∈ releasedPending phases ((dedupIndices phases).take r) →
        (specs.get i).heterogeneous = true ∨ i ∈ (trialCandidates specs phases r).take k) := by
    unfold KeepsShapes
    rw [hbudget]
    refine and_congr_right fun _ => ⟨fun h => h phases hfirst r k hfit, ?_⟩
    intro h phases' hfirst' r' k' hfit'
    obtain rfl := ok.inj (hfirst.symm.trans hfirst')
    obtain ⟨rfl, rfl⟩ := hfit.unique hfit'
    exact h
  rw [trial_face]
  by_cases hi : i ∈ releasedPending phases ((dedupIndices phases).take r)
  · have hcarry : NoCarry p (specs.get i) := by
      have hpending := mem_releasedPending.mp hi
      unfold releasedPhase at hpending
      by_cases hmem : i ∈ (dedupIndices phases).take r
      · exact hreleased hmem
      · rw [if_neg hmem] at hpending
        refine (huniform.mp ?_).1
        cases hd : phaseAt phases i with
        | pending => rfl
        | decided d | dedup d =>
          rw [hd] at hpending
          cases hpending
    rw [if_pos hi]
    refine ⟨_, rfl, ?_⟩
    rw [hkeeps]
    unfold budgetStrategy
    cases hchunked : (specs.get i).heterogeneous ||
        decide (i ∈ (trialCandidates specs phases r).take k) with
    | true =>
      refine ⟨fun _ => ⟨hcarry, fun _ => ?_⟩, fun _ => rfl⟩
      rcases Bool.or_eq_true_iff.mp hchunked with hhet | hmem
      · exact .inl hhet
      · exact .inr (of_decide_eq_true hmem)
    | false =>
      obtain ⟨hhet, hmem⟩ := Bool.or_eq_false_iff.mp hchunked
      constructor
      · intro hfalse
        cases hfalse
      · rintro ⟨-, hall⟩
        rcases hall hi with htrue | hdemoted
        · rw [hhet] at htrue
          cases htrue
        · exact absurd hdemoted (of_decide_eq_false hmem)
  · rw [if_neg hi, hkeeps]
    have hnot : (releasedPhase phases ((dedupIndices phases).take r) i).isPending ≠ true :=
      fun hpending => hi (mem_releasedPending.mpr hpending)
    obtain ⟨d, hd⟩ : ∃ d, releasedDecisions phases ((dedupIndices phases).take r) i = some d := by
      unfold releasedDecisions
      cases hd : releasedPhase phases ((dedupIndices phases).take r) i with
      | decided d | dedup d => exact ⟨d, rfl⟩
      | pending =>
        rw [hd] at hnot
        exact absurd rfl hnot
    refine ⟨d.strategy, ?_, ?_⟩
    · rw [hd, ← placed_released hfirst _ i d hd]
      rfl
    · rw [and_iff_left fun h => absurd h hi]
      unfold releasedDecisions releasedPhase at hd
      by_cases hmem : i ∈ (dedupIndices phases).take r
      · rw [if_pos hmem] at hd
        refine ⟨fun _ => hreleased hmem, fun _ => ?_⟩
        unfold undeclaredPhase at hd
        cases hbuckets : (specs.get i).bucketBoundaries with
        | none =>
          rw [hbuckets] at hd
          cases hd
        | some boundaries =>
          rw [hbuckets] at hd
          obtain rfl := some.inj hd
          rfl
      · rw [if_neg hmem] at hd
        have hsome : (phaseAt phases i).isUniform = d.strategy.isUniform := by
          unfold Phase.isUniform
          rw [hd]
          rfl
        rw [← hsome, huniform]
        have hbudget' : p.budget ≠ none := by
          rw [hbudget]
          exact some_ne_none _
        exact ⟨And.left, fun hcarry => ⟨hcarry, .inr (.inl hbudget')⟩⟩

/-- Every axis of a plan has a decision, whose strategy is safe for a heterogeneous one just when
the axis keeps its shapes. -/
theorem plan_uniform {ds : List (AxisDecision α)} (h : plan deviceLimit p specs = .ok ds) :
    ∃ result : Decisions α specs, ds = snapshot result ∧ ∀ i, ∃ strategy,
      (result i).map face = some (specs.get i, strategy) ∧
        (strategy.isUniform = false ↔ KeepsShapes deviceLimit p specs i) := by
  unfold plan at h
  cases hfirst : firstPass deviceLimit p specs with
  | error e =>
    rw [hfirst] at h
    cases h
  | ok phases =>
    rw [hfirst] at h
    dsimp only at h
    cases hbudget : p.budget with
    | none =>
      rw [hbudget] at h
      refine ⟨_, (ok.inj h).symm, fun i => ?_⟩
      obtain ⟨huniform, -, hpending⟩ := phaseOf_uniform (firstPass_at hfirst i)
      obtain ⟨d, hd⟩ : ∃ d, (phaseAt phases i).decision = some d := by
        cases hd : phaseAt phases i with
        | decided d | dedup d => exact ⟨d, rfl⟩
        | pending => exact absurd hbudget (hpending (by rw [hd]; rfl))
      have hsome : (phaseAt phases i).isUniform = d.strategy.isUniform := by
        unfold Phase.isUniform
        rw [hd]
        rfl
      refine ⟨d.strategy, ?_, ?_⟩
      · rw [hd, ← firstPass_spec hfirst hd]
        rfl
      · rw [← hsome, huniform]
        unfold KeepsShapes
        simp [hbudget]
    | some budget =>
      rw [hbudget] at h
      obtain ⟨result, hjoint, rfl⟩ := Results.map_eq_ok.mp h
      refine ⟨result, rfl, fun i => ?_⟩
      obtain ⟨r, k, hfit, estimate, pending, dropped, rfl⟩ := planJointBudget_trial hjoint
      have hfirstPlaced : Placed (trial budget specs phases r k).1 := placed_trial hfirst
      obtain ⟨hplaced, hfinal⟩ := remake_face
        (f := fun idx d => finalDecision budget estimate (specs.get idx) d)
        (fun idx d hd => finalDecision_face hd) (l := pending) hfirstPlaced
      obtain ⟨-, hnoted⟩ := remake_face (f := fun _ d => droppedDecision budget d)
        (fun _ _ _ => rfl) (l := dropped) hplaced
      obtain ⟨strategy, hstrategy, hiff⟩ := trial_uniform hfirst hbudget hfit i
      exact ⟨strategy, (hnoted i).trans ((hfinal i).trans hstrategy), hiff⟩

/-- **Heterogeneous axes are never mapped at once or scanned** just when each of them keeps its
shapes. -/
theorem heterogeneous_iff {ds : List (AxisDecision α)} (h : plan deviceLimit p specs = .ok ds) :
    (∀ d ∈ ds, IsHeterogeneous p d.spec → d.strategy.isUniform = false) ↔
      ∀ i : Fin specs.length, IsHeterogeneous p (specs.get i) →
        KeepsShapes deviceLimit p specs i := by
  obtain ⟨result, rfl, hresult⟩ := plan_uniform h
  constructor
  · intro hall i hhet
    obtain ⟨strategy, hface, hiff⟩ := hresult i
    obtain ⟨d, hd, heq⟩ := Option.map_eq_some_iff.mp hface
    obtain ⟨hspec, rfl⟩ := Prod.mk.inj heq
    exact hiff.mp (hall d (List.mem_filterMap.mpr ⟨i, List.mem_finRange i, hd⟩) (hspec ▸ hhet))
  · intro hall d hd hhet
    obtain ⟨i, -, hi⟩ := List.mem_filterMap.mp hd
    obtain ⟨strategy, hface, hiff⟩ := hresult i
    rw [hi] at hface
    obtain ⟨hspec, rfl⟩ := Prod.mk.inj (Option.some.inj hface)
    exact hiff.mpr (hall i (hspec ▸ hhet))

end

/-! ## A heterogeneous axis without a budget -/

namespace TwoAxes

def raggedAxis : AxisSpec :=
  { name := "item", cardinality := 4, defaultBatchSize := 8, heterogeneous := true }

def unbudgeted : Planner Unit := {}

def manyItems : AxisSpec :=
  { name := "item", cardinality := 9, defaultBatchSize := 8, heterogeneous := true }

theorem heterogeneous_many : ∃ ds, plan 0 unbudgeted [manyItems] = .ok ds ∧
    ((∀ d ∈ ds, IsHeterogeneous unbudgeted d.spec → d.strategy.isUniform = false) ↔
      ∀ i : Fin [manyItems].length, IsHeterogeneous unbudgeted ([manyItems].get i) →
        KeepsShapes 0 unbudgeted [manyItems] i) := by
  have hplan : (plan 0 unbudgeted [manyItems]).isOk = true := by decide
  cases h : plan 0 unbudgeted [manyItems] with
  | error e =>
    rw [h] at hplan
    cases hplan
  | ok ds => exact ⟨ds, rfl, heterogeneous_iff h⟩

theorem not_heterogeneous : ∃ d, plan 0 unbudgeted [raggedAxis] = .ok [d] ∧
    IsHeterogeneous unbudgeted d.spec ∧ d.strategy = .vmap := by
  exact ⟨_, rfl, .inl rfl, rfl⟩

end TwoAxes

end Xtrax.BatchPlanner
