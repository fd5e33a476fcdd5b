import Xtrax.BatchPlanner
import Xtrax.Results

/-! # The joint budget

A plan without its reasoning is given by two choices: which dedup axes are released, and how
many of the demotable axes, in the order of the specs, are demoted (`planAt`).  The greedy loop
tries the numbers one after the other for an estimate that may do anything, and the release loop
tries one more released axis at a time (`plan_joint_budget`).
-/
namespace Xtrax.BatchPlanner

open Except AxisDecision List Option

section
variable {α : Type} {specs : List AxisSpec} {d : AxisDecision α} {l : List (Fin specs.length)}
  {e : PlanError} {spec : AxisSpec}

/-- A decision without its reasoning. -/
def AxisDecision.bare (d : AxisDecision α) : AxisDecision α := { d with reasoning := "" }

/-- The estimate reads the spec, the batch size and the strategy of the decisions. -/
def MemoryBudget.ReadsOnly (budget : MemoryBudget α) : Prop :=
  ∀ ds ds', ds.map AxisDecision.bare = ds'.map AxisDecision.bare →
    budget.estimate ds = budget.estimate ds'

def MemoryBudget.Fits (budget : MemoryBudget α) (ds : List (AxisDecision α)) : Prop :=
  ∃ e, budget.estimate ds = some e ∧ e ≤ budget.bytes

def MemoryBudget.Over (budget : MemoryBudget α) (ds : List (AxisDecision α)) : Prop :=
  ∃ e, budget.estimate ds = some e ∧ budget.bytes < e

/-! ## Plans by two choices -/

section
variable (phases : List (Phase α)) (released demoted : List (Fin specs.length))

/-- The axis is planned under the budget: it was pending, or it has been released and has no
buckets. -/
def isPlanned (idx : Fin specs.length) : Bool :=
  match phaseAt phases idx with
  | .decided _ => false
  | .dedup _ => idx ∈ released && ((specs.get idx).bucketBoundaries = none)
  | .pending => true

/-- The axes that are planned under the budget, in spec order. -/
def plannedAxes : List (Fin specs.length) :=
  (List.finRange specs.length).filter (isPlanned phases released)

/-- Those that may be demoted. -/
def demotableAxes : List (Fin specs.length) := candidatesOf (plannedAxes phases released)

/-- A mapped axis, or a chunked one. -/
def budgetChoice (spec : AxisSpec) (chunked : Bool) : AxisDecision α where
  spec := spec
  batchSize := spec.defaultBatchSize
  reasoning := ""
  strategy := if chunked then .chunkedMap spec.defaultBatchSize else .vmap

/-- The decision for an axis when these are released and those demoted. -/
def choiceAt (idx : Fin specs.length) : AxisDecision α :=
  let planned := budgetChoice (specs.get idx) ((specs.get idx).heterogeneous || idx ∈ demoted)
  match phaseAt phases idx with
  | .decided d => d.bare
  | .dedup d =>
    if idx ∈ released then
      match (specs.get idx).bucketBoundaries with
      | none => planned
      | some boundaries =>
        { spec := specs.get idx
          batchSize := (specs.get idx).defaultBatchSize
          reasoning := ""
          strategy := .bucket boundaries }
    else d.bare
  | .pending => planned

/-- The plan in which these dedup axes are released and the first `k` of the demotable axes are
demoted. -/
def planAt (k : Nat) : List (AxisDecision α) :=
  (List.finRange specs.length).map
    (choiceAt phases released ((demotableAxes phases released).take k))

end

/-- The plan in which every dedup axis is released and every demotable axis is demoted. -/
def planAllDemoted (specs : List AxisSpec) (phases : List (Phase α)) : List (AxisDecision α) :=
  let released : List (Fin specs.length) := dedupIndices phases
  planAt phases released (demotableAxes phases released).length

/-! ## Decisions that make a plan -/

variable {budget : MemoryBudget α} {phases : List (Phase α)}
  {released demoted : List (Fin specs.length)} {decisions decisions' : Decisions α specs}
  {idx i : Fin specs.length} {estimate : Int}

/-- Up to their reasoning the decisions are those of the choice. -/
def Agrees (phases : List (Phase α)) (released demoted : List (Fin specs.length))
    (decisions : Decisions α specs) : Prop :=
  ∀ i, (decisions i).map AxisDecision.bare = some (choiceAt phases released demoted i)

/-- The axes that are not planned under the budget are as they should be. -/
def Settled (phases : List (Phase α)) (released : List (Fin specs.length))
    (decisions : Decisions α specs) : Prop :=
  ∀ i, isPlanned phases released i = false →
    (decisions i).map AxisDecision.bare = some (choiceAt phases released [] i)

theorem snapshot_bare (h : Agrees phases released demoted decisions) :
    (snapshot decisions).map bare =
      (finRange specs.length).map (choiceAt phases released demoted) := by
  have hlist : ∀ l : List (Fin specs.length), (l.filterMap decisions).map bare =
      l.map (choiceAt phases released demoted) := by
    intro l
    induction l with
    | nil => rfl
    | cons i l ih =>
      obtain ⟨d, hd, hbare⟩ := map_eq_some_iff.mp (h i)
      rw [filterMap_cons_some hd, map_cons, map_cons, hbare, ih]
  exact hlist _

theorem choiceAt_bare :
    (choiceAt phases released demoted i).bare = choiceAt phases released demoted i := by
  unfold choiceAt
  dsimp only
  split
  · rfl
  · split
    · split <;> rfl
    · rfl
  · rfl

theorem estimate_snapshot (hreads : budget.ReadsOnly) {k : Nat}
    (h : Agrees phases released ((demotableAxes phases released).take k) decisions) :
    budget.estimate (snapshot decisions) = budget.estimate (planAt phases released k) := by
  refine hreads _ _ ?_
  rw [snapshot_bare h, planAt, List.map_map]
  refine List.map_congr_left fun i _ => ?_
  exact choiceAt_bare.symm

theorem bare_put (decisions : Decisions α specs) (idx i : Fin specs.length) (d : AxisDecision α) :
    (decisions.put idx d i).map bare =
      if i = idx then some d.bare else (decisions i).map bare := by
  unfold Decisions.put
  by_cases hi : i = idx
  · rw [hi, Function.update_self, if_pos rfl]
    rfl
  · rw [Function.update_of_ne hi, if_neg hi]

theorem choiceAt_of_not_planned (h : isPlanned phases released i = false) :
    choiceAt phases released demoted i = choiceAt phases released [] i := by
  unfold isPlanned at h
  unfold choiceAt
  dsimp only
  split at h
  · rfl
  · by_cases hi : i ∈ released
    · rw [if_pos hi, if_pos hi]
      cases hbuckets : (specs.get i).bucketBoundaries with
      | none =>
        rw [decide_eq_true hi, decide_eq_true hbuckets] at h
        cases h
      | some boundaries => rfl
    · rw [if_neg hi, if_neg hi]
  · cases h

theorem choiceAt_of_planned (h : isPlanned phases released i = true) :
    choiceAt phases released demoted i =
      budgetChoice (specs.get i) ((specs.get i).heterogeneous || i ∈ demoted) := by
  unfold isPlanned at h
  unfold choiceAt
  dsimp only
  split at h
  · cases h
  · obtain ⟨hi, hbuckets⟩ : i ∈ released ∧ (specs.get i).bucketBoundaries = none := by
      simpa using h
    rw [if_pos hi, hbuckets]
  · rfl

theorem mem_plannedAxes : i ∈ plannedAxes phases released ↔ isPlanned phases released i = true := by
  rw [plannedAxes, mem_filter]
  exact and_iff_right (mem_finRange i)

theorem mem_demotableAxes : i ∈ demotableAxes phases released ↔
    isPlanned phases released i = true ∧ isDemotable (specs.get i) = true := by
  rw [demotableAxes, candidatesOf, mem_filter, mem_plannedAxes]

/-! ## The greedy loop -/

theorem bare_initialDecision (spec : AxisSpec) :
    (budgetInitialDecision spec : AxisDecision α).bare = budgetChoice spec spec.heterogeneous := by
  unfold budgetInitialDecision budgetChoice
  split <;> rfl

theorem initialDecisions_bare (pending : List (Fin specs.length)) :
    (initialDecisions pending decisions i).map bare =
      if i ∈ pending then some (budgetChoice (specs.get i) (specs.get i).heterogeneous)
      else (decisions i).map bare := by
  unfold initialDecisions
  induction pending generalizing decisions with
  | nil => rfl
  | cons idx pending ih =>
    rw [foldl_cons, ih, bare_put, bare_initialDecision]
    by_cases hi : i ∈ pending
    · rw [if_pos hi, if_pos (mem_cons_of_mem _ hi)]
    · rw [if_neg hi]
      by_cases hidx : i = idx
      · rw [if_pos hidx, if_pos (mem_cons.mpr (.inl hidx)), hidx]
      · rw [if_neg hidx, if_neg fun h => (mem_cons.mp h).elim hidx hi]

theorem agrees_initial (h : Settled phases released decisions) :
    Agrees phases released [] (initialDecisions (plannedAxes phases released) decisions) := by
  intro i
  rw [initialDecisions_bare]
  by_cases hi : isPlanned phases released i = true
  · rw [if_pos (mem_plannedAxes.mpr hi), choiceAt_of_planned hi]
    simp
  · rw [if_neg fun h => hi (mem_plannedAxes.mp h)]
    exact h i (by simpa using hi)

theorem agrees_put (h : Agrees phases released demoted decisions)
    (hidx : idx ∈ demotableAxes phases released) (reasoning : String) :
    Agrees phases released (demoted ++ [idx])
      (decisions.put idx (demotedDecision (specs.get idx) reasoning)) := by
  obtain ⟨hplanned, -⟩ := mem_demotableAxes.mp hidx
  intro i
  rw [bare_put]
  by_cases hi : i = idx
  · rw [if_pos hi, hi, choiceAt_of_planned hplanned]
    simp [demotedDecision, bare, budgetChoice]
  · rw [if_neg hi, h i]
    by_cases hp : isPlanned phases released i = true
    · rw [choiceAt_of_planned hp, choiceAt_of_planned hp]
      simp [hi]
    · have hp : isPlanned phases released i = false := by simpa using hp
      rw [choiceAt_of_not_planned hp]
      exact congrArg some (choiceAt_of_not_planned hp).symm

/-- The decisions are the plan with `k` axes demoted, and no smaller number fits. -/
structure Reached (budget : MemoryBudget α) (phases : List (Phase α))
    (released : List (Fin specs.length)) (decisions : Decisions α specs) (estimate : Int)
    (k : Nat) : Prop where
  le : k ≤ (demotableAxes phases released).length
  agrees : Agrees phases released ((demotableAxes phases released).take k) decisions
  estimate_eq : budget.estimate (planAt phases released k) = some estimate
  before : ∀ j < k, budget.Over (planAt phases released j)

/-- Either all the axes are demoted, or the estimate fits. -/
def Stops (budget : MemoryBudget α) (phases : List (Phase α)) (released : List (Fin specs.length))
    (decisions : Decisions α specs) (estimate : Int) : Prop :=
  ∃ k, Reached budget phases released decisions estimate k ∧
    (k < (demotableAxes phases released).length → estimate ≤ budget.bytes)

theorem demoteLoop_spec (hreads : budget.ReadsOnly) {rest : List (Fin specs.length)}
    {estimate' : Int} {k step : Nat} (h : Reached budget phases released decisions estimate k)
    (hrest : (demotableAxes phases released).drop k = rest)
    (hloop : demoteLoop budget rest decisions estimate step = .ok (decisions', estimate')) :
    Stops budget phases released decisions' estimate' := by
  induction rest generalizing decisions estimate k step with
  | nil =>
    cases hloop
    refine ⟨k, h, fun hlt => ?_⟩
    have hle := drop_eq_nil_iff.mp hrest
    omega
  | cons idx rest ih =>
    unfold demoteLoop at hloop
    split at hloop
    · rename_i hfits
      cases hloop
      exact ⟨k, h, fun _ => hfits⟩
    · rename_i hover
      dsimp only at hloop
      split at hloop
      · cases hloop
      · rename_i after hafter
        -- the next axis of the list is the one that is demoted
        have htake : (demotableAxes phases released).take (k + 1) =
            (demotableAxes phases released).take k ++ [idx] := by
          rw [take_add, hrest]
          rfl
        have hidx : idx ∈ demotableAxes phases released :=
          mem_of_mem_drop (by rw [hrest]; exact mem_cons_self)
        have hlt : k < (demotableAxes phases released).length := by
          by_contra hge
          rw [drop_eq_nil_of_le (not_lt.mp hge)] at hrest
          cases hrest
        have htrial := agrees_put h.agrees hidx "joint-budget: demoted (pending final estimate)"
        rw [← htake] at htrial
        refine ih ⟨hlt, ?_, ?_, fun j hj => ?_⟩ ?_ hloop
        · have hput := agrees_put h.agrees hidx
            (demotedText (specs.get idx) (step + 1) estimate after budget.bytes)
          rw [← htake] at hput
          rw [Decisions.put, Decisions.put, Function.update_idem]
          exact hput
        · rw [← estimate_snapshot hreads htrial]
          exact hafter
        · rcases Nat.lt_succ_iff_lt_or_eq.mp hj with hj | rfl
          · exact h.before j hj
          · exact ⟨estimate, h.estimate_eq, not_le.mp hover⟩
        · show (demotableAxes phases released).drop (k + 1) = rest
          rw [← drop_drop, hrest]
          rfl

theorem demoteLoop_of_greedyDemote {pending : List (Fin specs.length)} {n : Nat}
    (h : greedyDemote budget decisions pending = .ok (decisions', estimate, n)) :
    ∃ first, budget.estimate (snapshot (initialDecisions pending decisions)) = some first ∧
      demoteLoop budget (candidatesOf pending) (initialDecisions pending decisions) first 0 =
        .ok (decisions', estimate) := by
  unfold greedyDemote at h
  dsimp only at h
  split at h
  · cases h
  · rename_i first hfirst
    obtain ⟨result, hloop, heq⟩ := Results.map_eq_ok.mp h
    obtain ⟨hdecisions, heq⟩ := Prod.mk.inj heq
    obtain ⟨hestimate, -⟩ := Prod.mk.inj heq
    exact ⟨first, hfirst, by rw [hloop, ← hdecisions, ← hestimate]⟩

/-- **One greedy planning from scratch.** -/
theorem greedyDemote_spec (hreads : budget.ReadsOnly) {n : Nat}
    (h : Settled phases released decisions)
    (hgreedy : greedyDemote budget decisions (plannedAxes phases released) =
      .ok (decisions', estimate, n)) :
    Stops budget phases released decisions' estimate := by
  obtain ⟨first, hfirst, hloop⟩ := demoteLoop_of_greedyDemote hgreedy
  have hagrees : Agrees phases released ((demotableAxes phases released).take 0)
      (initialDecisions (plannedAxes phases released) decisions) := agrees_initial h
  refine demoteLoop_spec hreads (k := 0) ⟨Nat.zero_le _, hagrees, ?_, fun j hj => ?_⟩ rfl hloop
  · rw [← estimate_snapshot hreads hagrees]
    exact hfirst
  · exact (Nat.not_lt_zero j hj).elim

/-! ## Releasing dedup axes -/

theorem isPlanned_append (hphase : phaseAt phases idx = .dedup d) :
    isPlanned phases (released ++ [idx]) i =
      (isPlanned phases released i || (i = idx && (specs.get idx).bucketBoundaries = none)) := by
  unfold isPlanned
  split
  · rename_i d' hi
    by_cases hidx : i = idx
    · rw [hidx, hphase] at hi
      cases hi
    · rw [decide_eq_false hidx]
      rfl
  · by_cases hidx : i = idx
    · rw [hidx, decide_eq_true (mem_append_right _ (mem_singleton_self idx)),
        decide_eq_true rfl, Bool.true_and]
      cases decide ((specs.get idx).bucketBoundaries = none)
      · rw [Bool.and_false, Bool.or_false]
      · rw [Bool.or_true]
    · have hmem : (i ∈ released ++ [idx]) = (i ∈ released) := by simp [hidx]
      rw [decide_eq_false hidx, Bool.false_and, Bool.or_false]
      simp only [hmem]
  · rfl

/-- What the loop over the dedup axes keeps. -/
structure Joint (budget : MemoryBudget α) (phases : List (Phase α)) (st : JointState α specs) :
    Prop where
  pending : st.pending = plannedAxes phases st.dropped
  stops : Stops budget phases st.dropped st.decisions st.estimate

theorem choiceAt_append (hi : i ≠ idx) :
    choiceAt phases (released ++ [idx]) demoted i = choiceAt phases released demoted i := by
  have hmem : (i ∈ released ++ [idx]) = (i ∈ released) := by simp [hi]
  unfold choiceAt
  simp only [hmem]

theorem decideStrategy_bucket {deviceLimit : Int} {p : Planner α} {boundaries : List Int}
    (hbuckets : spec.bucketBoundaries = some boundaries)
    (h : decideStrategy deviceLimit p spec = .ok d) :
    d.bare =
      { spec := spec
        batchSize := spec.defaultBatchSize
        reasoning := ""
        strategy := .bucket boundaries } := by
  unfold decideStrategy at h
  rw [hbuckets] at h
  obtain rfl := ok.inj h
  rfl

/-- **One dedup axis is released.** -/
theorem release_spec {deviceLimit : Int} {p : Planner α} {st st' : JointState α specs}
    (hreads : budget.ReadsOnly) (h : Joint budget phases st)
    (hphase : phaseAt phases idx = .dedup d)
    (hrelease : release deviceLimit p budget st idx = .ok st') :
    Joint budget phases st' ∧ st'.dropped = st.dropped ++ [idx] := by
  obtain ⟨hpending, k, hreached, -⟩ := h
  -- the other axes are as they were
  have hothers : ∀ i, i ≠ idx → isPlanned phases (st.dropped ++ [idx]) i = false →
      (st.decisions i).map bare = some (choiceAt phases (st.dropped ++ [idx]) [] i) := by
    intro i hi hplanned
    rw [isPlanned_append hphase, Bool.or_eq_false_iff] at hplanned
    rw [choiceAt_append hi, hreached.agrees i, choiceAt_of_not_planned hplanned.1]
  have hgreedy : ∀ (decisions : Decisions α specs) (pending : List (Fin specs.length)),
      Settled phases (st.dropped ++ [idx]) decisions →
      pending = plannedAxes phases (st.dropped ++ [idx]) →
      ((greedyDemote budget decisions pending).map fun result =>
        ({ decisions := result.1
           pending := pending
           estimate := result.2.1
           candidates := result.2.2
           dropped := st.dropped ++ [idx] } : JointState α specs)) = .ok st' →
      Joint budget phases st' ∧ st'.dropped = st.dropped ++ [idx] := by
    rintro decisions pending hsettled rfl hmap
    cases hresult : greedyDemote budget decisions
        (plannedAxes phases (st.dropped ++ [idx])) with
    | error e =>
      rw [hresult] at hmap
      cases hmap
    | ok result =>
      obtain ⟨decisions', estimate, n⟩ := result
      rw [hresult] at hmap
      obtain rfl := ok.inj hmap
      exact ⟨⟨rfl, greedyDemote_spec hreads hsettled hresult⟩, rfl⟩
  unfold release at hrelease
  dsimp only at hrelease
  split at hrelease
  · cases hrelease
  · by_cases hbuckets : (specs.get idx).bucketBoundaries = none
    · rw [if_pos hbuckets] at hrelease
      refine hgreedy _ _ (fun i hplanned => ?_) ?_ hrelease
      · have hi : i ≠ idx := by
          rintro rfl
          rw [isPlanned_append hphase, decide_eq_true rfl, decide_eq_true hbuckets] at hplanned
          simp at hplanned
        rw [Function.update_of_ne hi]
        exact hothers i hi hplanned
      · rw [hpending]
        show filter _ _ = filter _ _
        refine filter_congr fun i _ => ?_
        rw [isPlanned_append hphase, decide_eq_true hbuckets, Bool.and_true]
        simp only [mem_plannedAxes, Bool.decide_or, Bool.decide_eq_true]
    · rw [if_neg hbuckets] at hrelease
      cases hdecide : decideStrategy deviceLimit p (specs.get idx) with
      | error e =>
        rw [hdecide] at hrelease
        cases hrelease
      | ok d' =>
        rw [hdecide] at hrelease
        refine hgreedy _ _ (fun i hplanned => ?_) ?_ hrelease
        · rw [bare_put]
          by_cases hi : i = idx
          · obtain ⟨boundaries, hsome⟩ := ne_none_iff_exists'.mp hbuckets
            rw [if_pos hi, hi, decideStrategy_bucket hsome hdecide]
            unfold choiceAt
            dsimp only
            rw [hphase]
            dsimp only
            rw [if_pos (mem_append_right _ (mem_singleton_self idx)), hsome]
          · rw [if_neg hi]
            exact hothers i hi hplanned
        · rw [hpending, plannedAxes, plannedAxes]
          refine filter_congr fun i _ => ?_
          rw [isPlanned_append hphase, decide_eq_false hbuckets, Bool.and_false, Bool.or_false]

/-- **The loop over the dedup axes**: those released are the first ones, and all of them are
when the estimate does not fit in the end. -/
theorem releaseLoop_spec {deviceLimit : Int} {p : Planner α} {rest : List (Fin specs.length)}
    {st st' : JointState α specs} (hreads : budget.ReadsOnly) (h : Joint budget phases st)
    (hrest : ∀ idx ∈ rest, ∃ d, phaseAt phases idx = .dedup d)
    (hloop : releaseLoop deviceLimit p budget rest st = .ok st') :
    Joint budget phases st' ∧ ∃ taken, st'.dropped = st.dropped ++ taken ∧ taken <+: rest ∧
      (budget.bytes < st'.estimate → taken = rest) := by
  induction rest generalizing st with
  | nil =>
    obtain rfl := ok.inj hloop
    exact ⟨h, [], (append_nil _).symm, prefix_rfl, fun _ => rfl⟩
  | cons idx rest ih =>
    unfold releaseLoop at hloop
    split at hloop
    · rename_i hfits
      obtain rfl := ok.inj hloop
      exact ⟨h, [], (append_nil _).symm, nil_prefix, fun hover => (not_le.mpr hover hfits).elim⟩
    · split at hloop
      · cases hloop
      · rename_i next hnext
        obtain ⟨d, hphase⟩ := hrest idx mem_cons_self
        obtain ⟨hjoint, hdropped⟩ := release_spec hreads h hphase hnext
        obtain ⟨hjoint', taken, htaken, hprefix, hall⟩ :=
          ih hjoint (fun i hi => hrest i (mem_cons_of_mem _ hi)) hloop
        refine ⟨hjoint', idx :: taken, ?_, ?_, fun hover => ?_⟩
        · rw [htaken, hdropped, append_assoc]
          rfl
        · exact cons_prefix_cons.mpr ⟨rfl, hprefix⟩
        · rw [hall hover]

/-! ## The last pass -/

theorem remake_bare {f : Fin specs.length → AxisDecision α → AxisDecision α}
    (h : ∀ idx ∈ l, ∀ d, (decisions idx).map bare = some d.bare → (f idx d).bare = d.bare)
    (i : Fin specs.length) :
    (decisions.remake f l i).map bare = (decisions i).map bare := by
  unfold Decisions.remake at *
  induction l generalizing decisions with
  | nil => rfl
  | cons idx l ih =>
    rw [foldl_cons]
    cases hd : decisions idx with
    | none => exact ih fun idx hidx => h idx (mem_cons_of_mem _ hidx)
    | some d =>
      have hput : ∀ i, (decisions.put idx (f idx d) i).map bare = (decisions i).map bare := by
        intro i
        rw [bare_put]
        by_cases hi : i = idx
        · rw [if_pos hi, hi, hd, h idx mem_cons_self d (by rw [hd]; rfl)]
          rfl
        · rw [if_neg hi]
      dsimp only
      rw [ih, hput]
      intro idx' hidx' d' hd'
      rw [hput] at hd'
      exact h idx' (mem_cons_of_mem _ hidx') d' hd'

theorem finalDecision_bare {chunked : Bool} (h : d.bare = budgetChoice spec chunked) :
    (finalDecision budget estimate spec d).bare = d.bare := by
  have hspec : d.spec = spec := congrArg AxisDecision.spec h
  have hsize : d.batchSize = spec.defaultBatchSize := congrArg AxisDecision.batchSize h
  unfold finalDecision
  dsimp only
  split
  · split
    · simp [AxisDecision.bare, hspec, hsize]
    · rfl
  · split
    · simp [AxisDecision.bare, hspec, hsize]
    · simp [AxisDecision.bare, hspec, hsize]
  · rfl

theorem Agrees.finalize (h : Agrees phases released demoted decisions) :
    Agrees phases released demoted
      (finalizeReasoning budget estimate (plannedAxes phases released) decisions) := by
  intro i
  unfold finalizeReasoning
  rw [remake_bare fun idx hidx d hd => ?_]
  · exact h i
  · rw [h idx, choiceAt_of_planned (mem_plannedAxes.mp hidx)] at hd
    exact finalDecision_bare (some.inj hd).symm

theorem Agrees.note (h : Agrees phases released demoted decisions)
    (dropped : List (Fin specs.length)) :
    Agrees phases released demoted (noteDropped budget dropped decisions) := by
  intro i
  unfold noteDropped
  rw [remake_bare (f := fun _ d => droppedDecision budget d) fun _ _ _ _ => rfl]
  exact h i

/-! ## Other exceptions -/

def PlanError.isInfeasible : PlanError → Bool
  | .budgetInfeasible .. => true
  | _ => false

theorem demoteLoop_error {step : Nat} (h : demoteLoop budget l decisions estimate step = .error e) :
    e.isInfeasible = false := by
  induction l generalizing decisions estimate step with
  | nil => cases h
  | cons idx l ih =>
    unfold demoteLoop at h
    split at h
    · cases h
    · dsimp only at h
      split at h
      · obtain rfl := error.inj h
        rfl
      · exact ih h

theorem map_error {β γ : Type} {x : Except PlanError β} {f : β → γ} (h : x.map f = .error e) :
    x = .error e := by
  cases x with
  | error e' =>
    obtain rfl := error.inj h
    rfl
  | ok b => cases h

theorem greedyDemote_error {pending : List (Fin specs.length)}
    (h : greedyDemote budget decisions pending = .error e) : e.isInfeasible = false := by
  unfold greedyDemote at h
  dsimp only at h
  split at h
  · obtain rfl := error.inj h
    rfl
  · exact demoteLoop_error (map_error h)

theorem decideStrategy_error {deviceLimit : Int} {p : Planner α}
    (h : decideStrategy deviceLimit p spec = .error e) : e.isInfeasible = false := by
  have hcardinality : ∀ prefer, byCardinality p spec prefer = .error e → e.isInfeasible = false := by
    intro prefer h
    unfold byCardinality at h
    dsimp only at h
    repeat' split at h
    all_goals cases h
    rfl
  unfold decideStrategy at h
  repeat' split at h
  all_goals first
    | exact hcardinality _ h
    | (cases h; rfl)
    | cases h

theorem releaseLoop_error {deviceLimit : Int} {p : Planner α} {st : JointState α specs}
    (h : releaseLoop deviceLimit p budget l st = .error e) : e.isInfeasible = false := by
  induction l generalizing st with
  | nil => cases h
  | cons idx l ih =>
    unfold releaseLoop at h
    split at h
    · cases h
    · split at h
      · rename_i hrelease
        obtain rfl := error.inj h
        unfold release at hrelease
        dsimp only at hrelease
        split at hrelease
        · obtain rfl := error.inj hrelease
          rfl
        · split at hrelease
          · rename_i hdecide
            obtain rfl := error.inj hrelease
            split at hdecide
            · cases hdecide
            · exact decideStrategy_error (map_error hdecide)
          · exact greedyDemote_error (map_error hrelease)
      · exact ih h

theorem firstPass_error {deviceLimit : Int} {p : Planner α}
    (h : firstPass deviceLimit p specs = .error e) : e.isInfeasible = false := by
  have hmerge : ∀ (l : List (DedupSpec α)) seen, mergeDedupSpecs.go seen l = .error e →
      e.isInfeasible = false := by
    intro l
    induction l with
    | nil =>
      intro seen h
      cases h
    | cons ds l ih =>
      intro seen h
      unfold mergeDedupSpecs.go at h
      split at h
      · obtain rfl := error.inj h
        rfl
      · exact ih _ (map_error h)
  have hphase : ∀ dedup spec, phaseOf deviceLimit p dedup spec = .error e →
      e.isInfeasible = false := by
    intro dedup spec h
    unfold phaseOf DedupSpec.toDedupGather at h
    repeat' split at h
    all_goals first
      | exact decideStrategy_error (map_error h)
      | (cases h; rfl)
      | cases h
  have hphases : ∀ dedup specs, phasesOf deviceLimit p dedup specs = .error e →
      e.isInfeasible = false := by
    intro dedup specs
    induction specs with
    | nil =>
      intro h
      cases h
    | cons spec specs ih =>
      intro h
      unfold phasesOf at h
      split at h
      · rename_i hspec
        obtain rfl := error.inj h
        exact hphase dedup spec hspec
      · exact ih (map_error h)
  unfold firstPass at h
  split at h
  · rename_i hdedup
    obtain rfl := error.inj h
    exact hmerge _ _ hdedup
  · exact hphases _ _ h

/-! ## The whole plan -/

theorem plannedAxes_nil :
    (plannedAxes phases [] : List (Fin specs.length)) = pendingIndices phases := by
  refine filter_congr fun i _ => ?_
  unfold isPlanned
  cases phaseAt phases i <;> rfl

theorem settled_firstPass :
    Settled phases [] fun idx : Fin specs.length => (phaseAt phases idx).decision := by
  intro i h
  show (phaseAt phases i).decision.map bare = _
  unfold isPlanned at h
  unfold choiceAt
  cases hphase : phaseAt phases i with
  | decided d => rfl
  | dedup d => rfl
  | pending =>
    rw [hphase] at h
    cases h

theorem exists_dedup (h : idx ∈ dedupIndices phases) : ∃ d, phaseAt phases idx = .dedup d := by
  obtain ⟨-, h⟩ := mem_filter.mp h
  cases hphase : phaseAt phases idx with
  | dedup d => exact ⟨d, rfl⟩
  | decided d | pending =>
    rw [hphase] at h
    cases h

theorem joint_spec {deviceLimit : Int} {p : Planner α} (hreads : budget.ReadsOnly) {n : Nat}
    {st : JointState α specs}
    (hgreedy : greedyDemote budget (fun idx => (phaseAt phases idx).decision)
      (pendingIndices phases) = .ok (decisions, estimate, n))
    (hloop : releaseLoop deviceLimit p budget (dedupIndices phases)
      { decisions := decisions
        pending := pendingIndices phases
        estimate := estimate
        candidates := n
        dropped := [] } = .ok st) :
    Joint budget phases st ∧ st.dropped <+: dedupIndices phases ∧
      (budget.bytes < st.estimate → st.dropped = dedupIndices phases) := by
  have hstops : Stops budget phases [] decisions estimate := by
    rw [← plannedAxes_nil] at hgreedy
    exact greedyDemote_spec hreads settled_firstPass hgreedy
  obtain ⟨hjoint, taken, hdropped, hprefix, hall⟩ :=
    releaseLoop_spec hreads ⟨plannedAxes_nil.symm, hstops⟩ (fun idx hidx => exists_dedup hidx) hloop
  rw [nil_append] at hdropped
  rw [hdropped]
  exact ⟨hjoint, hprefix, hall⟩

theorem planJointBudget_ok {deviceLimit : Int} {p : Planner α} (hreads : budget.ReadsOnly)
    {result : Decisions α specs}
    (h : planJointBudget deviceLimit p budget (fun idx => (phaseAt phases idx).decision)
      (pendingIndices phases) (dedupIndices phases) = .ok result) :
    ∃ released, released <+: dedupIndices phases ∧
      ∃ k ≤ (demotableAxes phases released).length,
        Agrees phases released ((demotableAxes phases released).take k) result ∧
        budget.Fits (planAt phases released k) ∧
        ∀ j < k, budget.Over (planAt phases released j) := by
  unfold planJointBudget at h
  split at h
  · cases h
  · rename_i decisions estimate n hgreedy
    split at h
    · cases h
    · rename_i st hloop
      obtain ⟨hjoint, hprefix, -⟩ := joint_spec hreads hgreedy hloop
      obtain ⟨k, hreached, -⟩ := hjoint.stops
      split at h
      · cases h
      · rename_i hfits
        obtain rfl := ok.inj h
        refine ⟨st.dropped, hprefix, k, hreached.le, ?_,
          ⟨st.estimate, hreached.estimate_eq, not_lt.mp hfits⟩, hreached.before⟩
        rw [hjoint.pending]
        exact hreached.agrees.finalize.note _

theorem planJointBudget_infeasible {deviceLimit : Int} {p : Planner α} (hreads : budget.ReadsOnly)
    {e bytes : Int} {n : Nat} {dropped : Bool} {strategies : List (String × String)}
    (h : planJointBudget deviceLimit p budget
      (fun idx : Fin specs.length => (phaseAt phases idx).decision) (pendingIndices phases)
      (dedupIndices phases) = .error (.budgetInfeasible e bytes n dropped strategies)) :
    budget.Over (planAllDemoted specs phases) := by
  unfold planJointBudget at h
  split at h
  · rename_i hgreedy
    obtain rfl := error.inj h
    cases greedyDemote_error hgreedy
  · rename_i decisions estimate n hgreedy
    split at h
    · rename_i hloop
      obtain rfl := error.inj h
      cases releaseLoop_error hloop
    · rename_i st hloop
      obtain ⟨hjoint, -, hall⟩ := joint_spec hreads hgreedy hloop
      obtain ⟨k, hreached, hstop⟩ := hjoint.stops
      split at h
      · rename_i hover
        show budget.Over (planAt phases _ _)
        rw [← hall hover]
        have hk : k = (demotableAxes phases st.dropped).length := by
          by_contra hne
          have hlt : k < (demotableAxes phases st.dropped).length :=
            lt_of_le_of_ne hreached.le hne
          exact not_le.mpr hover (hstop hlt)
        rw [← hk]
        exact ⟨st.estimate, hreached.estimate_eq, hover⟩
      · cases h

/-! ## The specs -/

theorem decideStrategy_spec {deviceLimit : Int} {p : Planner α}
    (h : decideStrategy deviceLimit p spec = .ok d) : d.spec = spec := by
  have hcardinality : ∀ prefer, byCardinality p spec prefer = .ok d → d.spec = spec := by
    intro prefer h
    unfold byCardinality at h
    dsimp only at h
    repeat' split at h
    all_goals cases h
    all_goals rfl
  unfold decideStrategy at h
  repeat' split at h
  all_goals first
    | exact hcardinality _ h
    | (cases h; rfl)
    | cases h

theorem phaseOf_spec {deviceLimit : Int} {p : Planner α} {dedup : List (DedupSpec α)}
    {phase : Phase α} (h : phaseOf deviceLimit p dedup spec = .ok phase)
    (hd : phase.decision = some d) : d.spec = spec := by
  have hmap : ∀ {β : Type} {x : Except PlanError β} {f : β → Phase α}, x.map f = .ok phase →
      ∃ b, x = .ok b ∧ f b = phase := by
    intro β x f h
    cases x with
    | error e => cases h
    | ok b => exact ⟨b, rfl, ok.inj h⟩
  unfold phaseOf at h
  split at h
  · split at h
    · cases h
    · obtain rfl := ok.inj h
      obtain rfl := some.inj hd
      unfold carryDecision
      split <;> rfl
  · split at h
    · obtain ⟨strategy, -, rfl⟩ := hmap h
      obtain rfl := some.inj hd
      rfl
    · split at h
      · cases h
      · split at h
        · obtain rfl := ok.inj h
          cases hd
        · obtain ⟨d', hd', rfl⟩ := hmap h
          obtain rfl := some.inj hd
          exact decideStrategy_spec hd'

theorem phasesOf_spec {deviceLimit : Int} {p : Planner α} {dedup : List (DedupSpec α)}
    (h : phasesOf deviceLimit p dedup specs = .ok phases) (i : Nat) {phase : Phase α}
    (hphase : phases[i]? = some phase) (hd : phase.decision = some d) :
    specs[i]? = some d.spec := by
  induction specs generalizing phases i with
  | nil =>
    obtain rfl := ok.inj h
    cases hphase
  | cons spec specs ih =>
    unfold phasesOf at h
    split at h
    · cases h
    · rename_i first hfirst
      cases hrest : phasesOf deviceLimit p dedup specs with
      | error e =>
        rw [hrest] at h
        cases h
      | ok rest =>
        rw [hrest] at h
        obtain rfl := ok.inj h
        cases i with
        | zero =>
          obtain rfl := some.inj hphase
          exact congrArg some (phaseOf_spec hfirst hd).symm
        | succ i => exact ih hrest i hphase

theorem firstPass_spec {deviceLimit : Int} {p : Planner α}
    (h : firstPass deviceLimit p specs = .ok phases) (hd : (phaseAt phases idx).decision = some d) :
    d.spec = specs.get idx := by
  unfold firstPass at h
  split at h
  · cases h
  · unfold phaseAt at hd
    rw [getD_eq_getElem?_getD] at hd
    cases hphase : phases[(idx : Nat)]? with
    | none =>
      rw [hphase] at hd
      cases hd
    | some phase =>
      rw [hphase] at hd
      have hspec := phasesOf_spec h idx hphase hd
      rw [getElem?_eq_getElem idx.isLt] at hspec
      exact (some.inj hspec).symm

/-- **A plan has one decision for each spec, in their order.** -/
theorem planAt_spec {deviceLimit : Int} {p : Planner α} {k : Nat}
    (h : firstPass deviceLimit p specs = .ok phases) :
    (planAt phases released k).map AxisDecision.spec = specs := by
  have hchoice : ∀ (demoted : List (Fin specs.length)) i,
      (choiceAt phases released demoted i).spec = specs.get i := by
    intro demoted i
    have hfirst : ∀ d, (phaseAt phases i).decision = some d → d.spec = specs.get i :=
      fun d hd => firstPass_spec h hd
    unfold choiceAt
    cases hphase : phaseAt phases i with
    | decided d =>
      rw [hphase] at hfirst
      exact hfirst d rfl
    | dedup d =>
      rw [hphase] at hfirst
      dsimp only
      split
      · split <;> rfl
      · exact hfirst d rfl
    | pending => rfl
  rw [planAt, List.map_map]
  calc (List.finRange specs.length).map (AxisDecision.spec ∘ choiceAt phases released _)
      = (List.finRange specs.length).map specs.get :=
        List.map_congr_left fun i _ => hchoice _ i
    _ = specs := List.map_get_finRange specs

theorem planJointBudget_of_plan {deviceLimit : Int} {p : Planner α}
    (hbudget : p.budget = some budget) {specs : List AxisSpec} {ds : List (AxisDecision α)}
    (h : plan deviceLimit p specs = .ok ds) :
    ∃ phases result, firstPass deviceLimit p specs = .ok phases ∧
      planJointBudget deviceLimit p budget (fun idx : Fin specs.length =>
        (phaseAt phases idx).decision) (pendingIndices phases) (dedupIndices phases) = .ok result ∧
      snapshot result = ds := by
  unfold plan at h
  split at h
  · cases h
  · rename_i phases hfirst
    rw [hbudget] at h
    obtain ⟨result, hjoint, heq⟩ := Results.map_eq_ok.mp h
    exact ⟨phases, result, hfirst, hjoint, heq⟩

theorem plan_ok_spec {deviceLimit : Int} {p : Planner α} (hbudget : p.budget = some budget)
    (hreads : budget.ReadsOnly) {specs : List AxisSpec} {ds : List (AxisDecision α)}
    (h : plan deviceLimit p specs = .ok ds) :
    ds.map AxisDecision.spec = specs ∧ budget.Fits ds ∧
      ∃ phases, firstPass deviceLimit p specs = .ok phases ∧
        ∃ released : List (Fin specs.length), released <+: dedupIndices phases ∧
          ∃ k ≤ (demotableAxes phases released).length,
            ds.map AxisDecision.bare = planAt phases released k ∧
              ∀ j < k, budget.Over (planAt phases released j) := by
  obtain ⟨phases, result, hfirst, hjoint, rfl⟩ := planJointBudget_of_plan hbudget h
  obtain ⟨released, hprefix, k, hk, hagrees, hfits, hover⟩ := planJointBudget_ok hreads hjoint
  have hbare : (snapshot result).map AxisDecision.bare = planAt phases released k :=
    snapshot_bare hagrees
  refine ⟨?_, ?_, phases, hfirst, released, hprefix, k, hk, hbare, hover⟩
  · calc (snapshot result).map AxisDecision.spec
        = ((snapshot result).map AxisDecision.bare).map AxisDecision.spec := by
          rw [List.map_map]
          rfl
      _ = specs := by rw [hbare, planAt_spec hfirst]
  · unfold MemoryBudget.Fits
    rw [estimate_snapshot hreads hagrees]
    exact hfits

/-- **Joint-budget planning.**  For an estimate that reads the spec, the batch size and the
strategy of the decisions and is otherwise arbitrary: a plan that is returned has one decision
for each spec in their order, its estimate fits, and it is the plan in which some first dedup
axes are released and the first `k` demotable axes are demoted, for the least `k` that fits.
When planning fails for the budget, the plan with every dedup axis released and every demotable
axis demoted is over it. -/
theorem plan_joint_budget {deviceLimit : Int} {p : Planner α} (hbudget : p.budget = some budget)
    (hreads : budget.ReadsOnly) (specs : List AxisSpec) :
    (∀ ds, plan deviceLimit p specs = .ok ds →
      ds.map AxisDecision.spec = specs ∧ budget.Fits ds ∧
        ∃ phases, firstPass deviceLimit p specs = .ok phases ∧
          ∃ released : List (Fin specs.length), released <+: dedupIndices phases ∧
            ∃ k ≤ (demotableAxes phases released).length,
              ds.map AxisDecision.bare = planAt phases released k ∧
                ∀ j < k, budget.Over (planAt phases released j)) ∧
      ∀ e bytes n dropped strategies,
        plan deviceLimit p specs = .error (.budgetInfeasible e bytes n dropped strategies) →
        ∃ phases, firstPass deviceLimit p specs = .ok phases ∧
          budget.Over (planAllDemoted specs phases) := by
  refine ⟨fun ds h => plan_ok_spec hbudget hreads h, fun e bytes n dropped strategies h => ?_⟩
  unfold plan at h
  split at h
  · rename_i hfirst
    obtain rfl := Except.error.inj h
    cases firstPass_error hfirst
  · rename_i phases hfirst
    rw [hbudget] at h
    exact ⟨phases, hfirst, planJointBudget_infeasible hreads (map_error h)⟩

/-! ## Plans that are returned -/

theorem demoteLoop_ok (htotal : ∀ ds, budget.estimate ds ≠ none) {step : Nat} :
    ∃ result, demoteLoop budget l decisions estimate step = .ok result := by
  induction l generalizing decisions estimate step with
  | nil => exact ⟨_, rfl⟩
  | cons idx l ih =>
    unfold demoteLoop
    split
    · exact ⟨_, rfl⟩
    · dsimp only
      split
      · rename_i hnone
        exact absurd hnone (htotal _)
      · exact ih

theorem greedyDemote_ok (htotal : ∀ ds, budget.estimate ds ≠ none)
    {pending : List (Fin specs.length)} :
    ∃ result, greedyDemote budget decisions pending = .ok result := by
  unfold greedyDemote
  dsimp only
  split
  · rename_i hnone
    exact absurd hnone (htotal _)
  · obtain ⟨result, hloop⟩ := demoteLoop_ok htotal
    rw [hloop]
    exact ⟨_, rfl⟩

theorem not_fits_of_over {ds : List (AxisDecision α)} (h : budget.Over ds) : ¬ budget.Fits ds := by
  rintro ⟨e, he, hle⟩
  obtain ⟨e', he', hlt⟩ := h
  obtain rfl := some.inj (he.symm.trans he')
  omega

/-- **Planning without dedup axes returns**, when one of the plans it comes by fits. -/
theorem plan_returns {deviceLimit : Int} {p : Planner α} (hbudget : p.budget = some budget)
    (hreads : budget.ReadsOnly) (htotal : ∀ ds, budget.estimate ds ≠ none)
    (hfirst : firstPass deviceLimit p specs = .ok phases)
    (hdedup : (dedupIndices phases : List (Fin specs.length)) = []) {k : Nat}
    (hk : k ≤ (demotableAxes phases ([] : List (Fin specs.length))).length)
    (hfits : budget.Fits (planAt phases ([] : List (Fin specs.length)) k)) :
    ∃ ds, plan deviceLimit p specs = .ok ds := by
  unfold plan
  rw [hfirst, hbudget]
  dsimp only
  unfold planJointBudget
  obtain ⟨⟨decisions, estimate, n⟩, hgreedy⟩ : ∃ result,
      greedyDemote budget (fun idx : Fin specs.length => (phaseAt phases idx).decision)
        (pendingIndices phases) = .ok result := greedyDemote_ok htotal
  rw [hgreedy, hdedup]
  dsimp only [releaseLoop]
  split
  · rename_i hover
    have hstops : Stops budget phases [] decisions estimate := by
      rw [← plannedAxes_nil] at hgreedy
      exact greedyDemote_spec hreads settled_firstPass hgreedy
    obtain ⟨k', hreached, hstop⟩ := hstops
    -- every axis has been demoted, and it was never enough
    have hall : (demotableAxes phases ([] : List (Fin specs.length))).length ≤ k' := by
      by_contra hlt
      exact not_le.mpr hover (hstop (not_le.mp hlt))
    rcases Nat.lt_or_eq_of_le (hk.trans hall) with hlt | rfl
    · exact absurd hfits (not_fits_of_over (hreached.before k hlt))
    · exact absurd hfits (not_fits_of_over ⟨estimate, hreached.estimate_eq, hover⟩)
  · exact ⟨_, rfl⟩

end

/-! ## Two axes and room for one -/

namespace TwoAxes

def liveExtent (d : AxisDecision Unit) : Int :=
  match d.strategy with
  | .vmap => d.spec.cardinality
  | _ => d.batchSize

def budget : MemoryBudget Unit where
  bytes := 12
  estimate ds := some (ds.map liveExtent).sum
  bytes_pos := by decide

theorem readsOnly_budget : budget.ReadsOnly := by
  intro ds ds' h
  have hbare : ∀ ds : List (AxisDecision Unit),
      ds.map liveExtent = (ds.map bare).map liveExtent := by
    intro ds
    rw [List.map_map]
    rfl
  show some _ = some _
  rw [hbare ds, hbare ds', h]

def planner : Planner Unit := { budget := some budget }

def axes : List AxisSpec :=
  [{ name := "sample", cardinality := 8, defaultBatchSize := 2 },
    { name := "step", cardinality := 8, defaultBatchSize := 2 }]

theorem plan_joint_budget_axes :
    ∃ ds, plan 0 planner axes = .ok ds ∧ ds.map liveExtent = [2, 8] ∧ budget.Fits ds := by
  have hplan : (plan 0 planner axes).map (fun ds => ds.map liveExtent) = .ok [2, 8] := by decide
  cases hds : plan 0 planner axes with
  | error e =>
    rw [hds] at hplan
    cases hplan
  | ok ds =>
    rw [hds] at hplan
    have hfits := ((plan_joint_budget rfl readsOnly_budget axes).1 ds hds).2.1
    exact ⟨ds, rfl, Except.ok.inj hplan, hfits⟩

end TwoAxes

end Xtrax.BatchPlanner
