import Xtrax.BatchPlannerBudget

/-! # Dedup axes under a joint budget

Two runs of the planner are compared, one with `DedupSpec`s and one without.  Where an axis has no
dedup decision the first passes agree; where it has one, its release makes the decision of the
other run.  A greedy planning reads nothing of the axes it plans (`greedyDemote_congr`), so every
release leaves a greedy planning from scratch (`release_eq`), and the last one is that of the other
run (`releaseLoop_fits`).  Hence the `DedupSpec`s never make a plan infeasible, and only an empty
one, which has no bucket, makes planning fail (`plan_dedup_iff`).
-/
namespace Xtrax.BatchPlanner

open Except List

section
variable {α : Type} {specs : List AxisSpec} {budget : MemoryBudget α}
  {decisions decisions' : Decisions α specs} {pending : List (Fin specs.length)}
  {i idx : Fin specs.length} {estimate : Int} {n : Nat}

/-! ## What a greedy planning reads -/

theorem put_of_ne (decisions : Decisions α specs) (h : i ≠ idx) (d : AxisDecision α) :
    decisions.put idx d i = decisions i := Function.update_of_ne h _ _

theorem initialDecisions_of_notMem (h : i ∉ pending) :
    initialDecisions pending decisions i = decisions i := by
  unfold initialDecisions
  induction pending generalizing decisions with
  | nil => rfl
  | cons idx pending ih =>
    obtain ⟨hne, hrest⟩ := not_or.mp (mt mem_cons.mpr h)
    rw [foldl_cons, ih hrest, put_of_ne decisions hne]

theorem initialDecisions_of_mem (h : i ∈ pending) :
    initialDecisions pending decisions i = some (budgetInitialDecision (specs.get i)) := by
  unfold initialDecisions
  induction pending generalizing decisions with
  | nil => exact absurd h not_mem_nil
  | cons idx pending ih =>
    rw [foldl_cons]
    by_cases hrest : i ∈ pending
    · exact ih hrest
    · obtain rfl : i = idx := (mem_cons.mp h).resolve_right hrest
      have hkept : initialDecisions pending
          (decisions.put i (budgetInitialDecision (specs.get i))) i =
            decisions.put i (budgetInitialDecision (specs.get i)) i :=
        initialDecisions_of_notMem hrest
      unfold initialDecisions at hkept
      rw [hkept]
      exact Function.update_self ..

theorem greedyDemote_congr (h : ∀ i, i ∉ pending → decisions i = decisions' i) :
    greedyDemote budget decisions pending = greedyDemote budget decisions' pending := by
  have hinitial : initialDecisions pending decisions = initialDecisions pending decisions' := by
    funext i
    by_cases hi : i ∈ pending
    · rw [initialDecisions_of_mem hi, initialDecisions_of_mem hi]
    · rw [initialDecisions_of_notMem hi, initialDecisions_of_notMem hi, h i hi]
  unfold greedyDemote
  rw [hinitial]

theorem demoteLoop_of_notMem {l : List (Fin specs.length)} {estimate' : Int} {step : Nat}
    (h : demoteLoop budget l decisions estimate step = .ok (decisions', estimate')) (hi : i ∉ l) :
    decisions' i = decisions i := by
  induction l generalizing decisions estimate step with
  | nil =>
    obtain ⟨rfl, -⟩ := Prod.mk.inj (ok.inj h)
    rfl
  | cons idx l ih =>
    obtain ⟨hne, hrest⟩ := not_or.mp (mt mem_cons.mpr hi)
    unfold demoteLoop at h
    by_cases hfits : estimate ≤ budget.bytes
    · rw [if_pos hfits] at h
      obtain ⟨rfl, -⟩ := Prod.mk.inj (ok.inj h)
      rfl
    · rw [if_neg hfits] at h
      dsimp only at h
      split at h
      · cases h
      · rw [ih h hrest, put_of_ne _ hne, put_of_ne _ hne]

theorem greedyDemote_of_notMem
    (h : greedyDemote budget decisions pending = .ok (decisions', estimate, n))
    (hi : i ∉ pending) : decisions' i = decisions i := by
  obtain ⟨first, -, hloop⟩ := demoteLoop_of_greedyDemote h
  have hcandidates : i ∉ candidatesOf pending := fun hmem => hi (mem_filter.mp hmem).1
  rw [demoteLoop_of_notMem hloop hcandidates, initialDecisions_of_notMem hi]

/-! ## The first passes of two runs -/

variable {deviceLimit : Int} {p : Planner α} {dedup : List (DedupSpec α)} {spec : AxisSpec}

theorem phasesOf_at {phases : List (Phase α)}
    (h : phasesOf deviceLimit p dedup specs = .ok phases) (i : Fin specs.length) :
    phaseOf deviceLimit p dedup (specs.get i) = .ok (phaseAt phases i) := by
  induction specs generalizing phases with
  | nil => exact i.elim0
  | cons spec specs ih =>
    unfold phasesOf at h
    cases hfirst : phaseOf deviceLimit p dedup spec with
    | error e =>
      rw [hfirst] at h
      cases h
    | ok phase =>
      rw [hfirst] at h
      cases hrest : phasesOf deviceLimit p dedup specs with
      | error e =>
        rw [hrest] at h
        cases h
      | ok rest =>
        rw [hrest] at h
        obtain rfl := ok.inj h
        refine Fin.cases ?_ (fun j => ?_) i
        · exact hfirst
        · exact ih hrest j

theorem phasesOf_ok_iff : (∃ phases, phasesOf deviceLimit p dedup specs = .ok phases) ↔
    ∀ spec ∈ specs, ∃ phase, phaseOf deviceLimit p dedup spec = .ok phase := by
  constructor
  · rintro ⟨phases, h⟩ spec hspec
    obtain ⟨i, rfl⟩ := get_of_mem hspec
    exact ⟨_, phasesOf_at h i⟩
  · intro h
    induction specs with
    | nil => exact ⟨[], rfl⟩
    | cons spec specs ih =>
      obtain ⟨phase, hphase⟩ := h spec mem_cons_self
      obtain ⟨rest, hrest⟩ := ih fun spec hspec => h spec (mem_cons_of_mem _ hspec)
      refine ⟨phase :: rest, ?_⟩
      rw [phasesOf, hphase]
      dsimp only
      rw [hrest]
      rfl

/-- The axis has no `CarrySpec`, so its `DedupSpec` counts. -/
def NoCarry (p : Planner α) (spec : AxisSpec) : Prop :=
  ∀ cs ∈ p.carrySpecs, cs.axisName ≠ spec.name

theorem find_carry_eq_none : (p.carrySpecs.reverse.find? fun cs => cs.axisName = spec.name) = none ↔
    NoCarry p spec := by
  rw [find?_eq_none]
  constructor
  · intro h cs hcs heq
    exact h cs (mem_reverse.mpr hcs) (decide_eq_true heq)
  · intro h cs hcs heq
    exact h cs (mem_reverse.mp hcs) (of_decide_eq_true heq)

/-- What an axis is under a budget when nothing is declared for it. -/
def undeclaredPhase (spec : AxisSpec) : Phase α :=
  match spec.bucketBoundaries with
  | none => .pending
  | some boundaries =>
    .decided
      { spec := spec
        batchSize := spec.defaultBatchSize
        reasoning := "bucket_boundaries=" ++ tupleText boundaries ++ " → Bucket (host-side padding)"
        strategy := .bucket boundaries }

theorem undeclaredPhase_none (h : spec.bucketBoundaries = none) :
    (undeclaredPhase spec : Phase α) = .pending := by
  unfold undeclaredPhase
  rw [h]

theorem decideStrategy_undeclared (h : spec.bucketBoundaries ≠ none) :
    (decideStrategy deviceLimit p spec).map .decided = .ok (undeclaredPhase spec) := by
  obtain ⟨boundaries, hsome⟩ := Option.ne_none_iff_exists'.mp h
  unfold decideStrategy undeclaredPhase
  rw [hsome]
  rfl

theorem phaseOf_undeclared (hcarry : NoCarry p spec) (hbudget : p.budget = some budget)
    (hrole : spec.role = .known) :
    phaseOf deviceLimit p [] spec = .ok (undeclaredPhase spec) := by
  unfold phaseOf
  rw [find_carry_eq_none.mpr hcarry, find?_nil, hrole, hbudget]
  dsimp only
  rw [if_neg (by decide)]
  by_cases hbuckets : spec.bucketBoundaries = none
  · rw [if_pos ⟨rfl, hbuckets⟩, undeclaredPhase_none hbuckets]
  · rw [if_neg fun h => hbuckets h.2, decideStrategy_undeclared hbuckets]

theorem phaseOf_deduped {phase phase₀ : Phase α} (h : phaseOf deviceLimit p dedup spec = .ok phase)
    (h₀ : phaseOf deviceLimit p [] spec = .ok phase₀) :
    phase = phase₀ ∨ NoCarry p spec ∧ ∃ d, phase = .dedup d := by
  unfold phaseOf at h h₀
  cases hcarry : p.carrySpecs.reverse.find? fun cs => cs.axisName = spec.name with
  | some cs =>
    rw [hcarry] at h h₀
    exact .inl (ok.inj (h.symm.trans h₀))
  | none =>
    rw [hcarry] at h h₀
    dsimp only at h h₀
    cases hdedup : dedup.find? fun ds => ds.axisName = spec.name with
    | none =>
      rw [hdedup] at h
      exact .inl (ok.inj (h.symm.trans h₀))
    | some ds =>
      rw [hdedup] at h
      refine .inr ⟨find_carry_eq_none.mp hcarry, ?_⟩
      dsimp only at h
      cases hgather : ds.toDedupGather with
      | error e =>
        rw [hgather] at h
        cases h
      | ok strategy =>
        rw [hgather] at h
        exact ⟨_, (ok.inj h).symm⟩

theorem phaseOf_ne_dedup {d : AxisDecision α} : phaseOf deviceLimit p [] spec ≠ .ok (.dedup d) := by
  intro h
  unfold phaseOf at h
  rw [find?_nil] at h
  dsimp only at h
  repeat' split at h
  · cases h
  · cases h
  · cases h
  · cases h
  · cases hdecide : decideStrategy deviceLimit p spec with
    | error e =>
      rw [hdecide] at h
      cases h
    | ok d' =>
      rw [hdecide] at h
      cases h

theorem phaseOf_deduped_ok_iff {phase₀ : Phase α} (hdistinct : (dedup.map DedupSpec.axisName).Nodup)
    (h₀ : phaseOf deviceLimit p [] spec = .ok phase₀) :
    (∃ phase, phaseOf deviceLimit p dedup spec = .ok phase) ↔
      ∀ ds ∈ dedup, ds.axisName = spec.name → NoCarry p spec → ds.k ≠ 0 := by
  unfold phaseOf at h₀ ⊢
  cases hcarry : p.carrySpecs.reverse.find? fun cs => cs.axisName = spec.name with
  | some cs =>
    rw [hcarry] at h₀
    refine ⟨fun _ ds _ _ hno => ?_, fun _ => ⟨phase₀, h₀⟩⟩
    rw [find_carry_eq_none.mpr hno] at hcarry
    cases hcarry
  | none =>
    rw [hcarry] at h₀
    dsimp only at h₀ ⊢
    cases hdedup : dedup.find? fun ds => ds.axisName = spec.name with
    | none =>
      refine ⟨fun _ ds hds hname _ => ?_, fun _ => ⟨phase₀, h₀⟩⟩
      exact absurd (decide_eq_true hname) (find?_eq_none.mp hdedup ds hds)
    | some ds =>
      have hmem : ds ∈ dedup := mem_of_find?_eq_some hdedup
      have hname : ds.axisName = spec.name := by simpa using find?_some hdedup
      dsimp only
      unfold DedupSpec.toDedupGather kBucket?
      constructor
      · rintro ⟨phase, hphase⟩ ds' hds' hname' - hzero
        -- there is one spec for the axis
        obtain rfl : ds' = ds :=
          inj_on_of_nodup_map hdistinct hds' hmem (hname'.trans hname.symm)
        rw [if_pos hzero] at hphase
        cases hphase
      · intro h
        rw [if_neg (h ds hmem hname (find_carry_eq_none.mp hcarry))]
        exact ⟨_, rfl⟩

theorem mergeDedupSpecs_go {seen : List String} (hdistinct : (dedup.map DedupSpec.axisName).Nodup)
    (hseen : ∀ ds ∈ dedup, ds.axisName ∉ seen) : mergeDedupSpecs.go seen dedup = .ok dedup := by
  induction dedup generalizing seen with
  | nil => rfl
  | cons ds dedup ih =>
    obtain ⟨hds, hrest⟩ := nodup_cons.mp hdistinct
    have hfresh : ∀ ds' ∈ dedup, ds'.axisName ∉ ds.axisName :: seen := by
      intro ds' hds' hmem
      rcases mem_cons.mp hmem with heq | hold
      · exact hds (heq ▸ mem_map_of_mem hds')
      · exact hseen ds' (mem_cons_of_mem _ hds') hold
    rw [mergeDedupSpecs.go, if_neg (hseen ds mem_cons_self), ih hrest hfresh]
    rfl

theorem mergeDedupSpecs_ok (hdistinct : (dedup.map DedupSpec.axisName).Nodup) :
    mergeDedupSpecs dedup = .ok dedup := mergeDedupSpecs_go hdistinct fun _ _ => not_mem_nil

/-! ## Releasing dedup axes, for any estimate -/

variable {phases phases₀ : List (Phase α)} {released rest : List (Fin specs.length)}

/-- What the axis is once these are released. -/
def releasedPhase (phases : List (Phase α)) (released : List (Fin specs.length))
    (i : Fin specs.length) : Phase α :=
  if i ∈ released then undeclaredPhase (specs.get i) else phaseAt phases i

def releasedDecisions (phases : List (Phase α)) (released : List (Fin specs.length)) :
    Decisions α specs := fun i => (releasedPhase phases released i).decision

/-- The pending axes once these are released. -/
def releasedPending (phases : List (Phase α)) (released : List (Fin specs.length)) :
    List (Fin specs.length) :=
  (List.finRange specs.length).filter fun i => (releasedPhase phases released i).isPending

theorem mem_releasedPending : i ∈ releasedPending phases released ↔
    (releasedPhase phases released i).isPending = true := by
  rw [releasedPending, mem_filter]
  exact and_iff_right (mem_finRange i)

theorem mem_dedupIndices :
    i ∈ (dedupIndices phases : List (Fin specs.length)) ↔ (phaseAt phases i).isDedup = true := by
  rw [dedupIndices, mem_filter]
  exact and_iff_right (mem_finRange i)

theorem releasedPhase_append (hi : i ≠ idx) :
    releasedPhase phases (released ++ [idx]) i = releasedPhase phases released i := by
  unfold releasedPhase
  by_cases hmem : i ∈ released
  · rw [if_pos (mem_append_left _ hmem), if_pos hmem]
  · rw [if_neg hmem, if_neg]
    intro happ
    rcases mem_append.mp happ with hold | hnew
    · exact hmem hold
    · exact hi (mem_singleton.mp hnew)

theorem releasedPhase_last :
    releasedPhase phases (released ++ [idx]) idx = undeclaredPhase (specs.get idx) :=
  if_pos (mem_append_right _ (mem_singleton_self idx))

/-- The state is the greedy planning of the axes that are not released. -/
structure Planned (budget : MemoryBudget α) (phases : List (Phase α)) (st : JointState α specs) :
    Prop where
  pending : st.pending = releasedPending phases st.dropped
  greedy : greedyDemote budget (releasedDecisions phases st.dropped) st.pending =
    .ok (st.decisions, st.estimate, st.candidates)

theorem Planned.decisions_eq {st : JointState α specs} (h : Planned budget phases st)
    (hi : i ∉ st.pending) : st.decisions i = releasedDecisions phases st.dropped i :=
  greedyDemote_of_notMem h.greedy hi

theorem release_eq {st : JointState α specs} (hrole : (specs.get idx).role = .known)
    (hphase : (phaseAt phases idx).isDedup = true) (h : Planned budget phases st) :
    release deviceLimit p budget st idx =
      (greedyDemote budget (releasedDecisions phases (st.dropped ++ [idx]))
          (releasedPending phases (st.dropped ++ [idx]))).map
        fun (decisions, estimate, candidates) =>
          { decisions := decisions
            pending := releasedPending phases (st.dropped ++ [idx])
            estimate := estimate
            candidates := candidates
            dropped := st.dropped ++ [idx] } := by
  have hothers : ∀ i, i ≠ idx → i ∉ st.pending →
      st.decisions i = releasedDecisions phases (st.dropped ++ [idx]) i := by
    intro i hi hpending
    rw [releasedDecisions, releasedPhase_append hi]
    exact h.decisions_eq hpending
  unfold release
  dsimp only
  rw [if_neg (by rw [hrole]; decide)]
  by_cases hbuckets : (specs.get idx).bucketBoundaries = none
  · have hpending : insertPending st.pending idx =
        releasedPending phases (st.dropped ++ [idx]) := by
      rw [insertPending, releasedPending]
      refine filter_congr fun i _ => ?_
      by_cases hidx : i = idx
      · rw [hidx, releasedPhase_last, undeclaredPhase_none hbuckets]
        simp [Phase.isPending]
      · rw [releasedPhase_append hidx, h.pending]
        simp [mem_releasedPending, hidx]
    rw [if_pos hbuckets]
    dsimp only
    rw [hpending]
    refine congrArg _ (greedyDemote_congr fun i hi => ?_)
    rw [← hpending] at hi
    have hsplit : i ∉ st.pending ∧ i ≠ idx := by simpa [insertPending] using hi
    rw [Function.update_of_ne hsplit.2]
    exact hothers i hsplit.2 hsplit.1
  · have hlast : (decideStrategy deviceLimit p (specs.get idx)).map .decided =
        .ok (undeclaredPhase (specs.get idx)) := decideStrategy_undeclared hbuckets
    rw [if_neg hbuckets]
    cases hdecide : decideStrategy deviceLimit p (specs.get idx) with
    | error e =>
      rw [hdecide] at hlast
      cases hlast
    | ok d =>
      rw [hdecide] at hlast
      have hlast : undeclaredPhase (specs.get idx) = .decided d := (Except.ok.inj hlast).symm
      have hpending : st.pending = releasedPending phases (st.dropped ++ [idx]) := by
        rw [h.pending, releasedPending, releasedPending]
        refine filter_congr fun i _ => ?_
        by_cases hidx : i = idx
        · -- neither before its release nor after it the axis is pending
          rw [hidx, releasedPhase_last, hlast, releasedPhase]
          by_cases hmem : idx ∈ st.dropped
          · rw [if_pos hmem, hlast]
          · rw [if_neg hmem]
            cases hd : phaseAt phases idx with
            | dedup d => rfl
            | decided d => rfl
            | pending =>
              rw [hd] at hphase
              cases hphase
        · rw [releasedPhase_append hidx]
      rw [hpending] at hothers ⊢
      show Except.map _ _ = Except.map _ _
      refine congrArg _ (greedyDemote_congr fun i hi => ?_)
      by_cases hidx : i = idx
      · rw [hidx, releasedDecisions, releasedPhase_last, hlast]
        exact Function.update_self ..
      · rw [put_of_ne _ hidx]
        exact hothers i hidx hi

/-- **One dedup axis is released**: the invariant is kept. -/
theorem release_planned {st st' : JointState α specs}
    (hphase : (phaseAt phases idx).isDedup = true) (h : Planned budget phases st)
    (hrelease : release deviceLimit p budget st idx = .ok st') :
    Planned budget phases st' ∧ st'.dropped = st.dropped ++ [idx] := by
  have hrole : (specs.get idx).role = .known := by
    by_contra hunknown
    have hunknown : (specs.get idx).role = .unknown := by
      cases hrole : (specs.get idx).role with
      | known => exact absurd hrole hunknown
      | unknown => rfl
    unfold release at hrelease
    dsimp only at hrelease
    rw [if_pos hunknown] at hrelease
    cases hrelease
  rw [release_eq hrole hphase h] at hrelease
  cases hgreedy : greedyDemote budget (releasedDecisions phases (st.dropped ++ [idx]))
      (releasedPending phases (st.dropped ++ [idx])) with
  | error e =>
    rw [hgreedy] at hrelease
    cases hrelease
  | ok result =>
    rw [hgreedy] at hrelease
    obtain rfl := ok.inj hrelease
    exact ⟨⟨rfl, hgreedy⟩, rfl⟩

theorem release_returns {st : JointState α specs} (htotal : ∀ ds, budget.estimate ds ≠ none)
    (hrole : (specs.get idx).role = .known) (hphase : (phaseAt phases idx).isDedup = true)
    (h : Planned budget phases st) : ∃ st', release deviceLimit p budget st idx = .ok st' := by
  obtain ⟨result, hgreedy⟩ : ∃ result,
      greedyDemote budget (releasedDecisions phases (st.dropped ++ [idx]))
        (releasedPending phases (st.dropped ++ [idx])) = .ok result := greedyDemote_ok htotal
  rw [release_eq hrole hphase h, hgreedy]
  exact ⟨_, rfl⟩

/-- **The loop over the dedup axes** ends with an estimate that fits when the planning without
dedup does. -/
theorem releaseLoop_fits {st : JointState α specs} {result : Decisions α specs × Int × Nat}
    (htotal : ∀ ds, budget.estimate ds ≠ none) (hrole : ∀ spec ∈ specs, spec.role = .known)
    (hphases : ∀ i : Fin specs.length, (phaseAt phases i).isDedup = false →
      phaseAt phases i = phaseAt phases₀ i)
    (hdedup : ∀ i : Fin specs.length, (phaseAt phases i).isDedup = true →
      undeclaredPhase (specs.get i) = phaseAt phases₀ i)
    (hgreedy : greedyDemote budget (fun i : Fin specs.length => (phaseAt phases₀ i).decision)
      (pendingIndices phases₀) = .ok result)
    (hfits : result.2.1 ≤ budget.bytes)
    (hall : ∀ i, i ∈ st.dropped ++ rest ↔ (phaseAt phases i).isDedup = true)
    (h : Planned budget phases st) :
    ∃ st', releaseLoop deviceLimit p budget rest st = .ok st' ∧ st'.estimate ≤ budget.bytes := by
  induction rest generalizing st with
  | nil =>
    rw [append_nil] at hall
    -- every axis is as without dedup, and so is the greedy planning
    have hphase : releasedPhase phases st.dropped = phaseAt phases₀ := by
      funext i
      unfold releasedPhase
      by_cases hi : i ∈ st.dropped
      · rw [if_pos hi]
        exact hdedup i ((hall i).mp hi)
      · rw [if_neg hi]
        exact hphases i (Bool.eq_false_iff.mpr fun htrue => hi ((hall i).mpr htrue))
    have hsame := h.greedy
    rw [h.pending, releasedPending, hphase] at hsame
    unfold releasedDecisions at hsame
    rw [hphase] at hsame
    obtain rfl := ok.inj (hgreedy.symm.trans hsame)
    exact ⟨st, rfl, hfits⟩
  | cons idx rest ih =>
    unfold releaseLoop
    by_cases hstop : st.estimate ≤ budget.bytes
    · rw [if_pos hstop]
      exact ⟨st, rfl, hstop⟩
    · rw [if_neg hstop]
      have hphase : (phaseAt phases idx).isDedup = true :=
        (hall idx).mp (mem_append_right _ mem_cons_self)
      obtain ⟨st', hrelease⟩ : ∃ st', release deviceLimit p budget st idx = .ok st' :=
        release_returns htotal (hrole _ (get_mem specs idx)) hphase h
      obtain ⟨hplanned, hdropped⟩ := release_planned hphase h hrelease
      rw [hrelease]
      refine ih (fun i => ?_) hplanned
      rw [hdropped, append_assoc]
      exact hall i

/-! ## Plans with and without dedup -/

/-- `BatchPlanner(..., dedup_specs=dedup)`. -/
def Planner.withDedup (p : Planner α) (dedup : List (DedupSpec α)) : Planner α where
  memoryEstimator := p.memoryEstimator
  carrySpecs := p.carrySpecs
  dedupSpecs := dedup
  heterogeneousAxes := p.heterogeneousAxes
  budget := p.budget
  exclusive := p.exclusive

/-- **`DedupSpec`s for distinct axes never make a plan infeasible**: planning returns just when
none of them that counts is empty. -/
theorem plan_dedup_iff (hbudget : p.budget = some budget)
    (htotal : ∀ ds, budget.estimate ds ≠ none) (hrole : ∀ spec ∈ specs, spec.role = .known)
    (hfeasible : ∃ ds, plan deviceLimit (p.withDedup []) specs = .ok ds)
    (hdistinct : (dedup.map DedupSpec.axisName).Nodup) :
    (∃ ds, plan deviceLimit (p.withDedup dedup) specs = .ok ds) ↔
      ∀ ds ∈ dedup, ∀ spec ∈ specs, ds.axisName = spec.name → NoCarry p spec → ds.k ≠ 0 := by
  obtain ⟨plan₀, hplan₀⟩ := hfeasible
  obtain ⟨phases₀, result₀, hfirst₀, hplan₀, -⟩ :=
    planJointBudget_of_plan (p := p.withDedup []) hbudget hplan₀
  have h₀ : ∀ i : Fin specs.length,
      phaseOf deviceLimit p [] (specs.get i) = .ok (phaseAt phases₀ i) :=
    fun i => phasesOf_at (p := p.withDedup []) hfirst₀ i
  -- the first pass with dedup
  have hmerge : firstPass deviceLimit (p.withDedup dedup) specs =
      phasesOf deviceLimit (p.withDedup dedup) dedup specs := by
    unfold firstPass
    rw [show (p.withDedup dedup).dedupSpecs = dedup from rfl, mergeDedupSpecs_ok hdistinct]
  have hpass : (∃ phases, firstPass deviceLimit (p.withDedup dedup) specs = .ok phases) ↔
      ∀ ds ∈ dedup, ∀ spec ∈ specs, ds.axisName = spec.name → NoCarry p spec → ds.k ≠ 0 := by
    rw [hmerge, phasesOf_ok_iff]
    constructor
    · intro h ds hds spec hspec
      obtain ⟨i, rfl⟩ := List.get_of_mem hspec
      exact (phaseOf_deduped_ok_iff (p := p) hdistinct (h₀ i)).mp (h _ hspec) ds hds
    · intro h spec hspec
      obtain ⟨i, rfl⟩ := List.get_of_mem hspec
      exact (phaseOf_deduped_ok_iff (p := p) hdistinct (h₀ i)).mpr fun ds hds => h ds hds _ hspec
  rw [← hpass]
  unfold plan
  constructor
  · rintro ⟨ds, h⟩
    cases hfirst : firstPass deviceLimit (p.withDedup dedup) specs with
    | error e =>
      rw [hfirst] at h
      cases h
    | ok phases => exact ⟨phases, rfl⟩
  · rintro ⟨phases, hfirst⟩
    rw [hfirst, show (p.withDedup dedup).budget = some budget from hbudget]
    dsimp only
    have hphases : ∀ i : Fin specs.length, phaseAt phases i = phaseAt phases₀ i ∨
        NoCarry p (specs.get i) ∧ ∃ d, phaseAt phases i = .dedup d := fun i =>
      phaseOf_deduped (p := p)
        (phasesOf_at (p := p.withDedup dedup) (hmerge.symm.trans hfirst) i) (h₀ i)
    have hkept : ∀ i : Fin specs.length, (phaseAt phases i).isDedup = false →
        phaseAt phases i = phaseAt phases₀ i := by
      intro i hfalse
      rcases hphases i with heq | ⟨-, d, hd⟩
      · exact heq
      · rw [hd] at hfalse
        cases hfalse
    have hreleased : ∀ i : Fin specs.length, (phaseAt phases i).isDedup = true →
        undeclaredPhase (specs.get i) = phaseAt phases₀ i := by
      intro i htrue
      rcases hphases i with heq | ⟨hcarry, -⟩
      · obtain ⟨d, hd⟩ := exists_dedup (mem_dedupIndices.mpr (heq ▸ htrue))
        exact absurd (hd ▸ h₀ i) phaseOf_ne_dedup
      · have hi := h₀ i
        rw [phaseOf_undeclared hcarry hbudget (hrole _ (List.get_mem specs i))] at hi
        exact Except.ok.inj hi
    -- the greedy planning without dedup fits, since nothing could be released there
    obtain ⟨⟨decisions₀, estimate₀, n₀⟩, hgreedy₀⟩ : ∃ result,
        greedyDemote budget (fun i : Fin specs.length => (phaseAt phases₀ i).decision)
          (pendingIndices phases₀) = .ok result := greedyDemote_ok htotal
    have hnone : (dedupIndices phases₀ : List (Fin specs.length)) = [] := by
      refine List.eq_nil_iff_forall_not_mem.mpr fun i hi => ?_
      obtain ⟨d, hd⟩ := exists_dedup hi
      exact phaseOf_ne_dedup (hd ▸ h₀ i)
    have hfits : estimate₀ ≤ budget.bytes := by
      unfold planJointBudget at hplan₀
      rw [hgreedy₀, hnone] at hplan₀
      dsimp only [releaseLoop] at hplan₀
      by_contra hover
      rw [if_pos (not_le.mp hover)] at hplan₀
      cases hplan₀
    obtain ⟨⟨decisions, estimate, n⟩, hgreedy⟩ : ∃ result,
        greedyDemote budget (fun i : Fin specs.length => (phaseAt phases i).decision)
          (pendingIndices phases) = .ok result := greedyDemote_ok htotal
    have hplanned : Planned budget phases ⟨decisions, pendingIndices phases, estimate, n, []⟩ :=
      ⟨rfl, hgreedy⟩
    have hall : ∀ i : Fin specs.length,
        i ∈ [] ++ dedupIndices phases ↔ (phaseAt phases i).isDedup = true := fun i =>
      mem_dedupIndices
    obtain ⟨st, hloop, hst⟩ := releaseLoop_fits (p := p.withDedup dedup) htotal hrole hkept
      hreleased hgreedy₀ hfits hall hplanned
    unfold planJointBudget
    rw [hgreedy]
    dsimp only
    rw [hloop]
    dsimp only
    rw [if_neg (not_lt.mpr hst)]
    exact ⟨_, rfl⟩

end

/-! ## An empty `DedupSpec` -/

namespace TwoAxes

def emptyDedup : DedupSpec Unit where
  axisName := "step"
  uniqueIndices := []
  indexMap := []
  slots := rfl
  in_range := by simp

def stepDedup : DedupSpec Unit where
  axisName := "step"
  uniqueIndices := [0, 2, 4, 6]
  indexMap := [0, 0, 1, 1, 2, 2, 3, 3]
  slots := by decide
  in_range := by decide

theorem plan_dedup_axes :
    (∃ ds, plan 0 (planner.withDedup [stepDedup]) axes = .ok ds) ↔
      ∀ ds ∈ [stepDedup], ∀ spec ∈ axes, ds.axisName = spec.name → NoCarry planner spec →
        ds.k ≠ 0 := by
  have hplan : (plan 0 (planner.withDedup []) axes).isOk = true := by decide
  cases h : plan 0 (planner.withDedup []) axes with
  | error e =>
    rw [h] at hplan
    cases hplan
  | ok ds => exact plan_dedup_iff rfl (fun _ h => by cases h) (by decide) ⟨ds, h⟩ (by decide)

theorem not_plan_dedup : (plan 0 (planner.withDedup []) axes).isOk = true ∧
    ([emptyDedup].map DedupSpec.axisName).Nodup ∧
      plan 0 (planner.withDedup [emptyDedup]) axes = .error (.noUniqueIndices "step") := by
  refine ⟨by decide, by decide, by rfl⟩

end TwoAxes

end Xtrax.BatchPlanner
