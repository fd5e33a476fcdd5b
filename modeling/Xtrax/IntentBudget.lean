import Xtrax.BatchPlannerBudget
import Xtrax.IntentResolveSpec

/-!
# The memory budget of a plan

The planner keeps the budget.  A map finds its decision among the planner's by the text of its
key, so what it is given is what was planned for it when the texts are distinct
(`within_chosen`).  From there on every move back to `Vmap` is judged jointly, and an override
is checked at the end: `plan_within_budget`.
-/

namespace Xtrax.Intent

open Except Function BatchPlanner AxisDecision List Option

open BatchPlanner (AxisSpec AxisDecision MemoryBudget Phase budgetChoice)
open Results

section

variable {jax : Jax} {records : List SiteRecord} {ctx : Context} {overrides : Overrides}
  {mode : DiffMode} {plan : Plan} {budget : MemoryBudget Unit}
  {axisDecisions : List (AxisDecision Unit)} {chosen final working decisions decisions' : Decisions}
  {record : SiteRecord} {d d' : SiteDecision}

/-! ### Axes without carries, buckets or dedup -/

/-- An axis that is planned under the budget. -/
def Simple (spec : AxisSpec) : Prop := spec.role ≠ .unknown ∧ spec.bucketBoundaries = none

/-- The first pass leaves all axes to the budget. -/
def allPending (specs : List AxisSpec) : List (Phase Unit) := specs.map fun _ => .pending

theorem phaseAt_allPending {specs : List AxisSpec} (i : Fin specs.length) :
    phaseAt (allPending specs) i = .pending := by
  unfold phaseAt allPending
  rw [getD_eq_getElem?_getD, getElem?_map]
  cases specs[(i : Nat)]? <;> rfl

theorem phasesOf_simple {specs : List AxisSpec} (hsimple : ∀ spec ∈ specs, Simple spec) :
    phasesOf 0 { budget := some budget } [] specs = .ok (allPending specs) := by
  induction specs with
  | nil => rfl
  | cons spec specs ih =>
    obtain ⟨hrole, hbuckets⟩ := hsimple spec mem_cons_self
    have hphase : phaseOf 0 { budget := some budget } [] spec =
        .ok (Phase.pending : Phase Unit) := by
      unfold phaseOf
      simp [hrole, hbuckets]
    rw [phasesOf, hphase]
    dsimp only
    rw [ih fun spec hspec => hsimple spec (mem_cons_of_mem _ hspec)]
    rfl

/-- **A plan of such axes fits**, and each is mapped or chunked. -/
theorem plan_simple (hreads : budget.ReadsOnly) {specs : List AxisSpec}
    (hsimple : ∀ spec ∈ specs, Simple spec) {ds : List (AxisDecision Unit)}
    (h : BatchPlanner.plan 0 { budget := some budget } specs = .ok ds) :
    ds.map spec = specs ∧ budget.Fits ds ∧
      ∀ d ∈ ds, ∃ chunked, d.bare = budgetChoice d.spec chunked := by
  obtain ⟨hspecs, hfits, phases, hphases, released, -, k, -, hbare, -⟩ :=
    plan_ok_spec rfl hreads h
  refine ⟨hspecs, hfits, fun d hd => ?_⟩
  have hpending : phases = allPending specs := by
    have hfirst : firstPass 0 { budget := some budget } specs =
        .ok (allPending specs) := phasesOf_simple hsimple
    exact ok.inj (hphases.symm.trans hfirst)
  have hmem : d.bare ∈ planAt phases released k := hbare ▸ mem_map_of_mem hd
  obtain ⟨i, -, hi⟩ := mem_map.mp hmem
  unfold choiceAt at hi
  rw [hpending, phaseAt_allPending] at hi
  have hspec : specs.get i = d.spec := congrArg spec hi
  exact ⟨_, hspec ▸ hi.symm⟩

/-! ### The joint axes -/

/-- The joint axes of these decisions fit. -/
def Within (budget : MemoryBudget Unit) (records : List SiteRecord) (ctx : Context)
    (decisions : Decisions) : Prop :=
  ∃ axes, jointAxes records decisions ctx = .ok axes ∧ budget.Fits axes

theorem jointAxis_congr {axis : AxisDecision Unit}
    (hsame : (decisions' record.key).map SiteDecision.primal =
      (decisions record.key).map SiteDecision.primal)
    (h : jointAxis ctx decisions record = .ok axis) :
    ∃ axis', jointAxis ctx decisions' record = .ok axis' ∧ axis'.bare = axis.bare := by
  unfold jointAxis at h ⊢
  dsimp only at h ⊢
  cases hd : decisions record.key with
  | none =>
    rw [hd] at h
    exact nomatch h
  | some d =>
    rw [hd] at h hsame
    obtain ⟨d', hd', hprimal⟩ := map_eq_some_iff.mp hsame
    rw [hd']
    dsimp only at h ⊢
    rw [hprimal]
    cases hstrategy : d.primal with
    | vmap | chunkedMap =>
      rw [hstrategy] at h
      obtain rfl := ok.inj h
      exact ⟨_, rfl, rfl⟩
    | _ =>
      rw [hstrategy] at h
      exact nomatch h

theorem within_of_axes {as : List SiteRecord} {axes : List (AxisDecision Unit)}
    (h : List.Forall₂ (fun r axis => ∃ axis', jointAxis ctx decisions r = .ok axis' ∧
      axis'.bare = axis.bare) as axes) :
    ∃ axes', as.mapM (jointAxis ctx decisions) = .ok axes' ∧ axes'.map bare = axes.map bare := by
  induction h with
  | nil => exact ⟨[], rfl, rfl⟩
  | cons hhead _ ih =>
    obtain ⟨axis', haxis, hbare⟩ := hhead
    obtain ⟨axes', haxes, hrest⟩ := ih
    refine ⟨axis' :: axes', ?_, by rw [map_cons, map_cons, hbare, hrest]⟩
    rw [mapM_cons, haxis, haxes]
    rfl

theorem fits_congr (hreads : budget.ReadsOnly) {axes axes' : List (AxisDecision Unit)}
    (hbare : axes'.map bare = axes.map bare) (h : budget.Fits axes) :
    budget.Fits axes' := by
  unfold MemoryBudget.Fits
  rw [hreads _ _ hbare]
  exact h

/-- **Whether a plan fits depends on what its planned maps run.** -/
theorem Within.congr (hreads : budget.ReadsOnly)
    (hsame : ∀ r ∈ records, plannedMap r = true → (decisions' r.key).map SiteDecision.primal =
      (decisions r.key).map SiteDecision.primal)
    (h : Within budget records ctx decisions) : Within budget records ctx decisions' := by
  obtain ⟨axes, haxes, hfits⟩ := h
  have hall : ∀ r ∈ records.filter plannedMap, (decisions' r.key).map SiteDecision.primal =
      (decisions r.key).map SiteDecision.primal :=
    fun r hr => hsame r (mem_filter.mp hr).1 (mem_filter.mp hr).2
  have hpairs := mapM_eq_ok.mp haxes
  have hagree : List.Forall₂ (fun r axis => ∃ axis', jointAxis ctx decisions' r = .ok axis' ∧
      axis'.bare = axis.bare) (records.filter plannedMap) axes := by
    exact ((forall₂_and_left _ _).mpr ⟨hall, hpairs⟩).imp fun r axis hr => jointAxis_congr hr.1 hr.2
  obtain ⟨axes', haxes', hbare⟩ := within_of_axes hagree
  exact ⟨axes', haxes', fits_congr hreads hbare hfits⟩

theorem within_of_jointEstimate {estimate : Int}
    (h : jointEstimate records decisions ctx budget = .ok estimate)
    (hle : estimate ≤ budget.bytes) : Within budget records ctx decisions := by
  unfold jointEstimate at h
  obtain ⟨axes, haxes, h⟩ := bind_eq_ok.mp h
  split at h
  · cases h
  · rename_i hestimate
    obtain rfl := ok.inj h
    exact ⟨axes, haxes, _, hestimate, hle⟩

theorem not_within_of_jointEstimate {estimate : Int}
    (h : jointEstimate records decisions ctx budget = .ok estimate)
    (hover : budget.bytes < estimate) : ¬ Within budget records ctx decisions := by
  rintro ⟨axes, haxes, estimate', hestimate, hle⟩
  unfold jointEstimate at h
  rw [haxes] at h
  obtain ⟨axes', heq, h⟩ := bind_eq_ok.mp h
  obtain rfl := ok.inj heq
  rw [hestimate] at h
  obtain rfl := ok.inj h
  omega

/-! ### What the planner chose -/

theorem isPrimalChain_of_planned (h : plannedMap record = true) :
    isPrimalChain record.key = true := by
  unfold plannedMap at h
  simp only [Bool.and_eq_true] at h
  exact h.1.1

theorem planMaps_cases (h : planMaps records ctx (some budget) = .ok axisDecisions) :
    (records.filter plannedMap = [] ∧ axisDecisions = []) ∨
      ((∀ spec ∈ (records.filter plannedMap).map (axisSpec ctx), Simple spec) ∧
        BatchPlanner.plan 0 { budget := some budget }
          ((records.filter plannedMap).map (axisSpec ctx)) = .ok axisDecisions) := by
  unfold planMaps at h
  dsimp only at h
  split at h
  · rename_i hnone
    exact .inl ⟨hnone, (ok.inj h).symm⟩
  · split at h
    · rename_i ds hplan
      obtain rfl := ok.inj h
      refine .inr ⟨fun spec hspec => ?_, hplan⟩
      obtain ⟨r, -, rfl⟩ := mem_map.mp hspec
      exact ⟨nofun, rfl⟩
    · exact nomatch h

theorem forall₂_axisSpec {as : List SiteRecord}
    (h : axisDecisions.map spec = as.map (axisSpec ctx)) :
    List.Forall₂ (fun r d => d.spec = axisSpec ctx r) as axisDecisions := by
  have hpairs : List.Forall₂ (fun spec spec' => spec' = spec) (as.map (axisSpec ctx))
      (axisDecisions.map spec) := by
    rw [h]
    exact forall₂_same.mpr fun _ _ => rfl
  rwa [forall₂_map_left_iff, forall₂_map_right_iff] at hpairs

theorem planMaps_spec (hreads : budget.ReadsOnly)
    (h : planMaps records ctx (some budget) = .ok axisDecisions) :
    List.Forall₂ (fun r d => d.spec = axisSpec ctx r) (records.filter plannedMap) axisDecisions ∧
      (records.filter plannedMap ≠ [] → budget.Fits axisDecisions) ∧
      ∀ d ∈ axisDecisions, ∃ chunked, d.bare = budgetChoice d.spec chunked := by
  rcases planMaps_cases h with ⟨hnone, rfl⟩ | ⟨hsimple, hplan⟩
  · rw [hnone]
    exact ⟨.nil, fun hne => absurd rfl hne, fun d hd => nomatch hd⟩
  · obtain ⟨hspecs, hfits, hchoice⟩ := plan_simple hreads hsimple hplan
    exact ⟨forall₂_axisSpec hspecs, fun _ => hfits, hchoice⟩

theorem find?_axisSpec {as : List SiteRecord} (hnames : (as.map (·.key.str)).Nodup)
    (h : List.Forall₂ (fun r d => d.spec = axisSpec ctx r) as axisDecisions) :
    List.Forall₂ (fun r d => r ∈ as ∧ d ∈ axisDecisions ∧ d.spec = axisSpec ctx r ∧
      axisDecisions.find? (fun d' => d'.spec.name = r.key.str) = some d) as axisDecisions := by
  have hspecs : axisDecisions.map (·.spec.name) = as.map (·.key.str) :=
    map_eq_of_forall₂ (h.imp fun r d h => h ▸ rfl)
  have hmem : List.Forall₂ (fun r d => d ∈ axisDecisions ∧ d.spec = axisSpec ctx r) as
      axisDecisions := List.Forall₂.flip ((forall₂_and_left _ _).mpr ⟨fun _ => id, h.flip⟩)
  refine ((forall₂_and_left _ _).mpr ⟨fun _ => id, hmem⟩).imp ?_
  rintro r d ⟨hr, hd, hspec⟩
  have hname : d.spec.name = r.key.str := by rw [hspec]; rfl
  have hown := find?_of_nodup (hspecs ▸ hnames) hd
  rw [hname] at hown
  exact ⟨hr, hd, hspec, hown⟩

theorem mapStrategy_of_choice {item : AxisDecision Unit} {chunked : Bool}
    (h : item.bare = budgetChoice item.spec chunked) {s : Strategy}
    (hs : mapStrategy item.strategy = some s) (hd : decisions record.key = some d)
    (hprimal : d.primal = s) (hspec : item.spec = axisSpec ctx record) :
    ∃ axis, jointAxis ctx decisions record = .ok axis ∧ axis.bare = item.bare := by
  have hstrategy : item.strategy =
      if chunked then .chunkedMap item.spec.defaultBatchSize else .vmap :=
    congrArg strategy h
  unfold jointAxis
  rw [hd, h, hspec]
  dsimp only
  rw [hprimal]
  cases chunked with
  | true =>
    rw [hstrategy, hspec] at hs
    obtain rfl := some.inj hs
    exact ⟨_, rfl, rfl⟩
  | false =>
    rw [hstrategy] at hs
    obtain rfl := some.inj hs
    exact ⟨_, rfl, rfl⟩

theorem chosenDecision_planned (hplanned : plannedMap record = true)
    (hoverride : overrides.get? record.key.label = none)
    (h : chosenDecision record ctx (some budget) axisDecisions overrides mode = .ok d) :
    ∃ item s, axisDecisions.find? (fun item => item.spec.name = record.key.str) = some item ∧
      mapStrategy item.strategy = some s ∧ d.primal = s ∧ d.primalReason = item.reasoning := by
  obtain ⟨⟨-, hkind⟩, hcard⟩ : (isPrimalChain record.key = true ∧ record.kind = .map) ∧
      1 < cardinality record := by simpa [plannedMap] using hplanned
  unfold chosenDecision at h
  obtain ⟨automatic, hautomatic, h⟩ := bind_eq_ok.mp h
  rw [hoverride] at h
  obtain rfl := ok.inj h
  unfold automaticDecision at hautomatic
  rw [hkind] at hautomatic
  dsimp only at hautomatic
  rw [if_neg (by omega)] at hautomatic
  obtain ⟨⟨s, reason⟩, hstrategy, hautomatic⟩ := bind_eq_ok.mp hautomatic
  obtain rfl := ok.inj hautomatic
  unfold plannedStrategy at hstrategy
  split at hstrategy
  · exact nomatch hstrategy
  · rename_i item hitem
    split at hstrategy
    · exact nomatch hstrategy
    · rename_i hs
      cases hstrategy
      exact ⟨item, _, hitem, hs, rfl, rfl⟩

/-- **Without overrides of maps the chosen decisions fit**, when the texts of the keys are
distinct. -/
theorem within_chosen (hreads : budget.ReadsOnly) (hkeys : (records.map (·.key)).Nodup)
    (hnames : ((records.filter plannedMap).map (·.key.str)).Nodup)
    (hoverrides : ∀ r ∈ records, plannedMap r = true → overrides.get? r.key.label = none)
    (hplan : planMaps records ctx (some budget) = .ok axisDecisions)
    (hchosen : FromRecords records (fun r d =>
      chosenDecision r ctx (some budget) axisDecisions overrides mode = .ok d) chosen)
    (hsome : records.filter plannedMap ≠ []) : Within budget records ctx chosen := by
  obtain ⟨hpairs, hfits, hchoice⟩ := planMaps_spec hreads hplan
  have hagree : List.Forall₂ (fun r item => ∃ axis, jointAxis ctx chosen r = .ok axis ∧
      axis.bare = item.bare) (records.filter plannedMap) axisDecisions := by
    refine (find?_axisSpec hnames hpairs).imp ?_
    rintro r item ⟨hr, hitem, hspec, hown⟩
    obtain ⟨hrecord, hplanned⟩ := mem_filter.mp hr
    obtain ⟨d, hd⟩ := hchosen.complete r hrecord (isPrimalChain_of_planned hplanned)
    obtain ⟨r', hr', hkey, -, hmade⟩ := hchosen.sound _ _ hd
    obtain rfl := inj_on_of_nodup_map hkeys hr' hrecord hkey
    obtain ⟨item', s, hfind, hs, hd', -⟩ :=
      chosenDecision_planned hplanned (hoverrides _ hrecord hplanned) hmade
    obtain rfl := some.inj (hfind.symm.trans hown)
    obtain ⟨chunked, hchunked⟩ := hchoice _ hitem
    exact mapStrategy_of_choice hchunked hs hd hd' hspec
  obtain ⟨axes, haxes, hbare⟩ := within_of_axes hagree
  exact ⟨axes, haxes, fits_congr hreads hbare (hfits hsome)⟩

/-! ### Moves back to `Vmap` -/

theorem within_of_moved (hreads : budget.ReadsOnly) (hkeys : (records.map (·.key)).Nodup)
    (hrecord : record ∈ records) (hd' : d'.primal = .vmap)
    (hworking : Within budget records ctx working)
    (h : vmapFits record records working ctx (some budget) = .ok true) :
    Within budget records ctx (update working record.key (some d')) := by
  unfold vmapFits at h
  dsimp only at h
  cases hplanned : plannedMap record with
  | false =>
    -- the record is no axis, and no axis has its key
    refine hworking.congr hreads fun r hr hr' => ?_
    have hne : r.key ≠ record.key := by
      intro hkey
      obtain rfl := inj_on_of_nodup_map hkeys hr hrecord hkey
      rw [hplanned] at hr'
      exact nomatch hr'
    rw [update_of_ne hne]
  | true =>
    rw [hplanned, if_pos rfl] at h
    split at h
    · obtain ⟨trial, htrial, -⟩ := bind_eq_ok.mp h
      exact nomatch htrial
    · obtain ⟨trial, htrial, h⟩ := bind_eq_ok.mp h
      obtain rfl := ok.inj htrial
      obtain ⟨estimate, hestimate, h⟩ := bind_eq_ok.mp h
      have hle : estimate ≤ budget.bytes := of_decide_eq_true (ok.inj h)
      refine (within_of_jointEstimate hestimate hle).congr hreads fun r hr hr' => ?_
      by_cases hkey : r.key = record.key
      · rw [hkey, update_self, update_self, map_some, map_some, hd']
        rfl
      · rw [update_of_ne hkey, update_of_ne hkey]

/-- What the loop over the hazards keeps: the working copy fits, it has the chosen decisions of
the records to come, and the final ones are in it. -/
structure Judged (budget : MemoryBudget Unit) (records : List SiteRecord) (ctx : Context)
    (chosen : Decisions) (rest : List SiteRecord) (st : Decisions × Decisions) : Prop where
  within : Within budget records ctx st.2
  to_come : ∀ r ∈ rest, st.2 r.key = chosen r.key
  final : ∀ key d, st.1 key = some d → st.2 key = some d
  nodup : (rest.map (·.key)).Nodup
  subset : ∀ r ∈ rest, r ∈ records

theorem hazardLoop_judged (hreads : budget.ReadsOnly) (hkeys : (records.map (·.key)).Nodup)
    (hchosen : Within budget records ctx chosen)
    (h : hazardLoop jax chosen ctx (some budget) overrides records mode = .ok (final, working)) :
    Judged budget records ctx chosen [] (final, working) := by
  have hstart : Judged budget records ctx chosen (records.filter (isPrimalChain ·.key))
      (fun _ => none, chosen) :=
    ⟨hchosen, fun _ _ => rfl, (fun _ _ h => nomatch h),
      (List.filter_sublist.map _).nodup hkeys, fun r hr => (mem_primalChain.mp hr).1⟩
  refine foldlM_keeps (I := Judged budget records ctx chosen) ?_ hstart h
  rintro record rest ⟨final, working⟩ st' hjudged hstep
  obtain ⟨d', hd', hstep⟩ := bind_eq_ok.mp hstep
  obtain rfl := ok.inj hstep
  have hrecord := hjudged.subset record List.mem_cons_self
  obtain ⟨hhead, hnodup⟩ := List.nodup_cons.mp (List.map_cons ▸ hjudged.nodup)
  refine ⟨?_, ?_, ?_, hnodup, fun r hr => hjudged.subset r (List.mem_cons_of_mem _ hr)⟩
  · obtain ⟨d, views, hd, -, hsame | ⟨hmoved, -, hfits⟩⟩ := withHazards_spec hd'
    · refine hjudged.within.congr hreads fun r _ _ => ?_
      by_cases hkey : r.key = record.key
      · have hworking : working record.key = some d :=
          (hjudged.to_come record List.mem_cons_self).trans hd
        show Option.map _ (update working record.key (some d') r.key) = Option.map _ (working r.key)
        rw [hkey, update_self, hworking, Option.map_some, Option.map_some, hsame.1.primal]
      · show Option.map _ (update working record.key (some d') r.key) = _
        rw [update_of_ne hkey]
    · exact within_of_moved hreads hkeys hrecord hmoved.primal hjudged.within hfits
  · intro r hr
    have hne : r.key ≠ record.key := fun hkey => hhead (hkey ▸ List.mem_map_of_mem hr)
    show update working record.key (some d') r.key = _
    rw [update_of_ne hne]
    exact hjudged.to_come r (List.mem_cons_of_mem _ hr)
  · intro key d hkey
    dsimp only at hkey ⊢
    by_cases heq : key = record.key
    · subst heq
      rwa [update_self] at hkey ⊢
    · rw [update_of_ne heq] at hkey ⊢
      exact hjudged.final key d hkey

/-! ### Plans -/

theorem Resolved.byKey (R : Resolved jax records ctx overrides mode plan)
    (hkeys : (records.map (·.key)).Nodup) (hrecord : record ∈ records)
    (hprimal : isPrimalChain record.key = true) :
    plan.byKey record.key = R.final record.key := by
  have hpairs := (forall₂_and_left _ _).mpr ⟨fun _ => id, R.decisions⟩
  have hmap : plan.decisions.map SiteDecision.key = records.map (·.key) :=
    map_eq_of_forall₂ (hpairs.imp fun r d h => R.key_of_decision hkeys h.1 h.2)
  obtain ⟨d, hd, hmade⟩ := exists_of_forall₂ R.decisions hrecord
  have hfound := find?_of_nodup (hmap ▸ hkeys) hd
  rw [R.key_of_decision hkeys hrecord hmade] at hfound
  unfold finalDecision at hmade
  rw [if_pos hprimal] at hmade
  split at hmade
  · exact nomatch hmade
  · rename_i hsome
    obtain rfl := ok.inj hmade
    exact hfound.trans hsome.symm

theorem within_of_overridden {first : SiteRecord}
    (hfirst : records.find? (overriddenMap overrides) = some first)
    (h : checkMapOverrideBudget records final ctx (some budget) overrides = .ok ()) :
    Within budget records ctx final := by
  unfold checkMapOverrideBudget at h
  rw [hfirst] at h
  obtain ⟨estimate, hestimate, h⟩ := bind_eq_ok.mp h
  split at h
  · exact nomatch h
  · rename_i hover
    exact within_of_jointEstimate hestimate (not_lt.mp hover)

/-- **A plan keeps the memory budget** when the texts of the keys of its maps are distinct, and
when there is an axis or no axes fit. -/
theorem plan_within_budget (hkeys : (records.map (·.key)).Nodup)
    (hbudget : budgetFor jax ctx records = .ok (some budget)) (hreads : budget.ReadsOnly)
    (hnames : ((records.filter plannedMap).map (·.key.str)).Nodup)
    (hempty : records.filter plannedMap = [] → budget.Fits [])
    (h : resolve jax records ctx overrides mode = .ok plan) :
    Within budget records ctx plan.byKey := by
  obtain ⟨R⟩ := resolve_ok h
  obtain ⟨axisDecisions, chosen, final, working, hplanned, hchosen, hloop, hwithin, hbyKey⟩ :
      ∃ axisDecisions chosen final working, planMaps records ctx (some budget) = .ok axisDecisions ∧
        chooseAll ctx (some budget) axisDecisions overrides mode records = .ok chosen ∧
        hazardLoop jax chosen ctx (some budget) overrides records mode = .ok (final, working) ∧
        checkMapOverrideBudget records final ctx (some budget) overrides = .ok () ∧
        ∀ r ∈ records, plannedMap r = true → plan.byKey r.key = final r.key := by
    have heq : R.budget = some budget := ok.inj (R.budget_eq.symm.trans hbudget)
    exact ⟨R.axisDecisions, R.chosen, R.final, R.working, heq ▸ R.planned, heq ▸ R.chosen_eq,
      heq ▸ R.final_eq, heq ▸ R.within,
      fun r hr hr' => R.byKey hkeys hr (isPrimalChain_of_planned hr')⟩
  suffices hfinal : Within budget records ctx final from
    hfinal.congr hreads fun r hr hr' => by rw [hbyKey r hr hr']
  by_cases hsome : records.filter plannedMap = []
  · refine ⟨[], ?_, hempty hsome⟩
    unfold jointAxes
    rw [hsome]
    rfl
  cases hfirst : records.find? (overriddenMap overrides) with
  | some first => exact within_of_overridden hfirst hwithin
  | none =>
    have hnone : ∀ r ∈ records, plannedMap r = true → overrides.get? r.key.label = none := by
      intro r hr hr'
      have hnot := find?_eq_none.mp hfirst r hr
      unfold plannedMap at hr'
      simp only [Bool.and_eq_true] at hr'
      unfold overriddenMap at hnot
      rw [hr'.1.1, hr'.1.2] at hnot
      simpa using hnot
    have hstart := within_chosen hreads hkeys hnames hnone hplanned (chooseAll_spec hchosen) hsome
    have hjudged := hazardLoop_judged hreads hkeys hstart hloop
    refine hjudged.within.congr hreads fun r hr hr' => ?_
    obtain ⟨d, hd⟩ := (hazardLoop_spec hloop).complete r hr (isPrimalChain_of_planned hr')
    rw [hd, hjudged.final _ _ hd]

theorem defaultEstimator_readsOnly (bytes : Int) (hbytes : 0 < bytes) :
    MemoryBudget.ReadsOnly ⟨bytes, defaultEstimator jax records, hbytes⟩ := by
  intro ds ds' hbare
  show defaultEstimator jax records ds = defaultEstimator jax records ds'
  have hprice : ∀ ds : List (AxisDecision Unit), defaultEstimator jax records ds =
      defaultEstimator jax records (ds.map bare) := by
    intro ds
    unfold defaultEstimator
    rw [mapM_map]
    rfl
  rw [hprice ds, hprice ds', hbare]

end

end Xtrax.Intent
