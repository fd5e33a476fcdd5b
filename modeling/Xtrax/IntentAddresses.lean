import Xtrax.IntentBudgetNames
import Xtrax.SiteKeyText

/-!
# Site keys as addresses

The planner and the default estimator know a map by the text of its key.  `OwnStrategies` says that
every map is given what was planned for its own axis, and `PricedByOwn` that a decision about it is
priced with its own function.  Both are so just where no other key has the same levels
(`addresses_iff`), the levels in its labels included.
-/

namespace Xtrax.Intent

open Except BatchPlanner List

open BatchPlanner (AxisSpec AxisDecision MemoryBudget)
open Results

/-! ### The planner answers for each axis -/

section

variable {specs : List AxisSpec} {budget : MemoryBudget Unit}
  {decisions decisions' : BatchPlanner.Decisions Unit specs}

/-- Every axis has a decision, and that is about it. -/
def Owned (decisions : BatchPlanner.Decisions Unit specs) : Prop :=
  ∀ i, ∃ d, decisions i = some d ∧ d.spec = specs.get i

theorem Owned.put (h : Owned decisions) {idx : Fin specs.length} {d : AxisDecision Unit}
    (hd : d.spec = specs.get idx) : Owned (decisions.put idx d) := by
  intro i
  unfold BatchPlanner.Decisions.put
  by_cases hi : i = idx
  · subst hi
    exact ⟨d, Function.update_self .., hd⟩
  · rw [Function.update_of_ne hi]
    exact h i

theorem owned_initial {pending : List (Fin specs.length)}
    (h : ∀ i, i ∈ pending ∨ ∃ d, decisions i = some d ∧ d.spec = specs.get i) :
    Owned (initialDecisions pending decisions) := by
  unfold initialDecisions
  induction pending generalizing decisions with
  | nil => exact fun i => (h i).resolve_left not_mem_nil
  | cons idx pending ih =>
    refine ih fun i => ?_
    unfold BatchPlanner.Decisions.put
    by_cases hi : i = idx
    · subst hi
      refine .inr ⟨_, Function.update_self .., ?_⟩
      unfold budgetInitialDecision
      split <;> rfl
    · dsimp only
      rw [Function.update_of_ne hi]
      rcases h i with hmem | hsome
      · exact .inl ((mem_cons.mp hmem).resolve_left hi)
      · exact .inr hsome

theorem Owned.demoteLoop (h : Owned decisions) {l : List (Fin specs.length)}
    {estimate estimate' : Int} {step : Nat}
    (hloop : demoteLoop budget l decisions estimate step = .ok (decisions', estimate')) :
    Owned decisions' := by
  induction l generalizing decisions estimate step with
  | nil =>
    obtain ⟨rfl, -⟩ := Prod.mk.inj (ok.inj hloop)
    exact h
  | cons idx l ih =>
    rw [demoteLoop] at hloop
    split at hloop
    · obtain ⟨rfl, -⟩ := Prod.mk.inj (ok.inj hloop)
      exact h
    · dsimp only at hloop
      split at hloop
      · cases hloop
      · exact ih ((h.put rfl).put rfl) hloop

theorem Owned.remake (h : Owned decisions)
    {f : Fin specs.length → AxisDecision Unit → AxisDecision Unit}
    (hf : ∀ idx d, d.spec = specs.get idx → (f idx d).spec = specs.get idx)
    (l : List (Fin specs.length)) : Owned (decisions.remake f l) := by
  unfold BatchPlanner.Decisions.remake
  induction l generalizing decisions with
  | nil => exact h
  | cons idx l ih =>
    obtain ⟨d, hd, hspec⟩ := h idx
    rw [foldl_cons, hd]
    exact ih (h.put (hf idx d hspec))

theorem Owned.snapshot (h : Owned decisions) :
    (snapshot decisions).map AxisDecision.spec = specs := by
  have hall : ∀ l : List (Fin specs.length),
      (l.filterMap decisions).map AxisDecision.spec = l.map specs.get := by
    intro l
    induction l with
    | nil => rfl
    | cons i l ih =>
      obtain ⟨d, hd, hspec⟩ := h i
      rw [filterMap_cons_some hd, map_cons, map_cons, ih, hspec]
  exact (hall _).trans (map_get_finRange specs)

theorem spec_finalDecision {estimate : Int} {spec : AxisSpec} {d : AxisDecision Unit}
    (h : d.spec = spec) : (BatchPlanner.finalDecision budget estimate spec d).spec = spec := by
  unfold BatchPlanner.finalDecision
  dsimp only
  split
  · split
    · rfl
    · exact h
  · split <;> rfl
  · exact h

/-- **A plan under a budget answers for its axes, one by one**, whatever the estimate. -/
theorem plan_specs (hsimple : ∀ spec ∈ specs, Simple spec) {ds : List (AxisDecision Unit)}
    (h : plan 0 { budget := some budget } specs = .ok ds) :
    ds.map AxisDecision.spec = specs := by
  have hfirst : firstPass 0 { budget := some budget } specs =
      .ok (allPending specs) := phasesOf_simple hsimple
  have hpending (i : Fin specs.length) : i ∈ pendingIndices (allPending specs) := by
    refine mem_filter.mpr ⟨mem_finRange i, ?_⟩
    rw [phaseAt_allPending]
    rfl
  unfold plan at h
  rw [hfirst] at h
  dsimp only at h
  rw [dedupIndices_allPending] at h
  obtain ⟨result, hresult, rfl⟩ := map_eq_ok.mp h
  refine Owned.snapshot ?_
  unfold planJointBudget at hresult
  split at hresult
  · cases hresult
  · rename_i decisions estimate candidates hgreedy
    rw [releaseLoop] at hresult
    dsimp only at hresult
    split at hresult
    · cases hresult
    · obtain rfl := ok.inj hresult
      obtain ⟨first, -, hloop⟩ := demoteLoop_of_greedyDemote hgreedy
      have howned : Owned decisions := (owned_initial fun i => .inl (hpending i)).demoteLoop hloop
      exact howned.remake (fun idx d hd => spec_finalDecision hd) _

end

section

variable {jax : Jax} {records : List SiteRecord} {ctx : Context} {overrides : Overrides}
  {mode : DiffMode} {plan : Plan} {budget : MemoryBudget Unit}
  {axisDecisions : List (AxisDecision Unit)} {record : SiteRecord} {item : AxisDecision Unit}

theorem planMaps_specs (h : planMaps records ctx (some budget) = .ok axisDecisions) :
    List.Forall₂ (fun r item => item.spec = axisSpec ctx r) (records.filter plannedMap)
      axisDecisions := by
  rcases planMaps_cases h with ⟨hnone, rfl⟩ | ⟨hsimple, hplan⟩
  · rw [hnone]
    exact .nil
  · exact forall₂_axisSpec (plan_specs hsimple hplan)

/-! ### What a map is given -/

/-- A resolution gives a map the strategy and the reasoning of this decision of the planner, and
in the plan the map has these strategies or is back on `Vmap`, where a hazard rule asked for it. -/
def Given (R : Resolved jax records ctx overrides mode plan) (record : SiteRecord)
    (item : AxisDecision Unit) : Prop :=
  ∃ d d', R.chosen record.key = some d ∧ mapStrategy item.strategy = some d.primal ∧
    d.primalReason = item.reasoning ∧ plan.byKey record.key = some d' ∧
    (SameStrategies d d' ∨ MovedBack d d')

/-- **Each map without an override is given what was planned for its own axis**, in every
resolution under a budget. -/
def OwnStrategies (records : List SiteRecord) : Prop :=
  ∀ jax ctx overrides mode plan (R : Resolved jax records ctx overrides mode plan) budget,
    R.budget = some budget →
      List.Forall₂ (fun r item => item.spec = axisSpec ctx r ∧
        (overrides.get? r.key.label = none → Given R r item)) (records.filter plannedMap)
        R.axisDecisions

/-- **A decision about the axis of a map is priced with the map's own function.** -/
def PricedByOwn (records : List SiteRecord) (record : SiteRecord) : Prop :=
  ∀ jax ctx (item : AxisDecision Unit), item.spec = axisSpec ctx record →
    priceDecision jax records item = (mapStrategy item.strategy).bind (jax.lowered record)

theorem given_first (R : Resolved jax records ctx overrides mode plan)
    (hkeys : (records.map (·.key)).Nodup) (hbudget : R.budget = some budget)
    (hrecord : record ∈ records) (hplanned : plannedMap record = true)
    (hoverride : overrides.get? record.key.label = none)
    (hfind : R.axisDecisions.find? (fun item => item.spec.name = record.key.str) = some item) :
    Given R record item := by
  have hprimal := isPrimalChain_of_planned hplanned
  obtain ⟨d', hd'⟩ := (hazardLoop_spec R.final_eq).complete record hrecord hprimal
  obtain ⟨d, hd, -, -, hcases, -⟩ := R.final_of_key hkeys hrecord hd'
  have hchosen := (R.chosen_of_key hkeys hrecord hd).2
  rw [hbudget] at hchosen
  obtain ⟨item', s, hfind', hs, rfl, hreason⟩ := chosenDecision_planned hplanned hoverride hchosen
  obtain rfl := Option.some.inj (hfind'.symm.trans hfind)
  exact ⟨d, d', hd, hs, hreason, (R.byKey hkeys hrecord hprimal).trans hd', hcases⟩

/-- **Distinct texts address the strategies.** -/
theorem ownStrategies_of_nodup (hkeys : (records.map (·.key)).Nodup)
    (hnames : ((records.filter plannedMap).map (·.key.str)).Nodup) : OwnStrategies records := by
  intro jax ctx overrides mode plan R budget hbudget
  have hpairs := planMaps_specs (hbudget ▸ R.planned)
  refine (find?_axisSpec hnames hpairs).imp ?_
  rintro r item ⟨hr, -, hspec, hown⟩
  obtain ⟨hrecord, hplanned⟩ := mem_filter.mp hr
  exact ⟨hspec, fun hoverride => given_first R hkeys hbudget hrecord hplanned hoverride hown⟩

/-- Where two planned maps have one text, a budget asks for different strategies, and one of the
maps is given the other's. -/
theorem nodup_of_ownStrategies (hkeys : (records.map (·.key)).Nodup)
    (hops : ∀ r ∈ records, r.kind = .op → r.op.isSome = true) (h : OwnStrategies records) :
    ((records.filter plannedMap).map (·.key.str)).Nodup := by
  by_contra hnames
  obtain ⟨ds, hplan⟩ := planMaps_clashBudget hnames
  obtain ⟨plan, hresolve⟩ : ∃ plan, resolve onCpu records clashContext [] {} = .ok plan :=
    resolve_returns hops hplan
  obtain ⟨R⟩ := resolve_ok hresolve
  have hbudget : R.budget = some clashBudget := (ok.inj R.budget_eq).symm
  have hplanned := R.planned
  rw [hbudget] at hplanned
  obtain rfl := ok.inj (hplan.symm.trans hplanned)
  have hsome : records.filter plannedMap ≠ [] := by
    intro hempty
    rw [hempty] at hnames
    exact hnames nodup_nil
  have hclash := fits_clashBudget.mp ((planMaps_spec clashBudget_readsOnly hplan).2.1 hsome)
  obtain ⟨item, hitem, hother⟩ := any_eq_true.mp hclash
  obtain ⟨item', hitem', hclash⟩ := any_eq_true.mp hother
  obtain ⟨hname, hdiffer⟩ : item.spec.name = item'.spec.name ∧
      mapStrategy item.strategy ≠ mapStrategy item'.strategy := by simpa using hclash
  -- both are what the map of their axis is given, and that is the first of the name
  have hfirst : ∀ item ∈ R.axisDecisions, ∃ first,
      R.axisDecisions.find? (fun other => other.spec.name = item.spec.name) = some first ∧
        mapStrategy item.strategy = mapStrategy first.strategy := by
    intro item hitem
    obtain ⟨r, hr, hspec, hgiven⟩ :=
      exists_of_forall₂ (h onCpu clashContext [] {} plan R clashBudget hbudget).flip hitem
    obtain ⟨hrecord, hplannedMap⟩ := mem_filter.mp hr
    obtain ⟨d, -, hd, hstrategy, -⟩ := hgiven rfl
    have hchosen := (R.chosen_of_key hkeys hrecord hd).2
    rw [hbudget] at hchosen
    obtain ⟨first, s, hfind, hs, hprimal, -⟩ := chosenDecision_planned hplannedMap rfl hchosen
    refine ⟨first, ?_, ?_⟩
    · rw [hspec]
      exact hfind
    · rw [hstrategy, hs, hprimal]
  obtain ⟨first, hfind, hsame⟩ := hfirst item hitem
  obtain ⟨first', hfind', hsame'⟩ := hfirst item' hitem'
  rw [hname] at hfind
  obtain rfl := Option.some.inj (hfind.symm.trans hfind')
  exact hdiffer (hsame.trans hsame'.symm)

theorem pricedByOwn_iff (hkeys : (records.map (·.key)).Nodup) (hrecord : record ∈ records) :
    PricedByOwn records record ↔
      records.find? (fun r => r.key.str = record.key.str) = some record := by
  constructor
  · intro h
    cases hfind : records.find? (fun r => r.key.str = record.key.str) with
    | none =>
      have hnot := find?_eq_none.mp hfind record hrecord
      simp at hnot
    | some first =>
      -- a JAX that tells the two functions apart
      let jax : Jax := ⟨"cpu", fun r _ => some (if r.key = record.key then 0 else 1)⟩
      let item : AxisDecision Unit :=
        { spec := axisSpec {} record, batchSize := 1, reasoning := "", strategy := .vmap }
      have hprice := h jax {} item rfl
      have hfound : records.find? (fun r => r.key.str = item.spec.name) = some first := hfind
      unfold priceDecision at hprice
      rw [hfound] at hprice
      have hkey : first.key = record.key := by
        by_contra hne
        simp [jax, item, mapStrategy, hne] at hprice
      rw [inj_on_of_nodup_map hkeys (mem_of_find?_eq_some hfind) hrecord hkey]
  · intro hfind jax ctx item hspec
    have hname : item.spec.name = record.key.str := by rw [hspec]; rfl
    unfold priceDecision
    rw [hname, hfind]
    dsimp only
    cases mapStrategy item.strategy <;> rfl

/-- **When site keys address their sites.**  Two keys have one text just when they have the same
levels; among records with distinct keys, every planned map is given what was planned for its own
axis just when the levels of the planned maps are distinct, and a decision about a map is priced
with its own function just when no earlier record has its levels. -/
theorem addresses_iff (records : List SiteRecord) (hkeys : (records.map (·.key)).Nodup)
    (hops : ∀ r ∈ records, r.kind = .op → r.op.isSome = true) :
    (∀ key key' : SiteKey, key.str = key'.str ↔ key.refined = key'.refined) ∧
    (OwnStrategies records ↔ ((records.filter plannedMap).map (·.key.refined)).Nodup) ∧
    ∀ record ∈ records, (PricedByOwn records record ↔
      records.find? (fun r => r.key.refined = record.key.refined) = some record) := by
  refine ⟨fun _ _ => SiteKey.str_eq_iff, ?_, fun record hrecord => ?_⟩
  · have hsame : ((records.filter plannedMap).map (·.key.str)).Nodup ↔
        ((records.filter plannedMap).map (·.key.refined)).Nodup := by
      rw [List.nodup_map_iff_inj_on, List.nodup_map_iff_inj_on]
      · simp only [SiteKey.str_eq_iff]
      all_goals exact (List.Nodup.of_map _ hkeys).filter _
    rw [← hsame]
    exact ⟨nodup_of_ownStrategies hkeys hops, ownStrategies_of_nodup hkeys⟩
  · rw [pricedByOwn_iff hkeys hrecord]
    simp only [SiteKey.str_eq_iff]

end

open TwoMaps in
/-- A map in a loop and a map after it, of different labels. -/
theorem addresses_two_maps :
    OwnStrategies (records "c") ∧
      ∀ record ∈ records "c", plannedMap record = true → PricedByOwn (records "c") record := by
  obtain ⟨-, hiff⟩ := addresses_iff (records "c") (by decide) (by decide)
  refine ⟨hiff.1.mpr (by decide), fun record hrecord _ => ?_⟩
  have hlevels : ((records "c").map (·.key.refined)).Nodup := by decide
  exact (hiff.2 record hrecord).mpr (find?_of_nodup hlevels hrecord)

open TwoMaps in
/-- A label that looks like the path of the map in the loop: two keys with one text, and a map that
is given what was planned for the other. -/
theorem one_text_two_maps :
    (¬∀ key key' : SiteKey, key ≠ key' → key.str ≠ key'.str) ∧
      ((records "a#0/primal/b").map (·.key)).Nodup ∧ ¬ OwnStrategies (records "a#0/primal/b") := by
  refine ⟨fun h => ?_, by decide, fun h => ?_⟩
  · exact h (.child steps .primal "b" 0) (.root .primal "a#0/primal/b" 0) (by decide) (by decide)
  · have hnames := nodup_of_ownStrategies (by decide) (by decide) h
    revert hnames
    decide

end Xtrax.Intent
