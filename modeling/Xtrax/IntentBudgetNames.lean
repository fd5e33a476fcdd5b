import Xtrax.IntentBudget

/-!
# Keys with one text

Two maps whose keys have one text are given one decision, whatever was planned for them.
`clashBudget` has room only for plans in which two axes of one name run differently.  The
planner comes by such a plan whenever two axes have one name, and resolving returns one in which
they run alike: so that the texts are distinct is what it takes for every plan to keep its budget
(`plan_within_budget_iff`).

A key's text does not determine it: a label may look like a path.
-/

namespace Xtrax.Intent

open BatchPlanner List

open BatchPlanner (AxisSpec AxisDecision MemoryBudget budgetChoice)
open Results

/-! ### A budget for plans in which a name is ambiguous -/

/-- Two axes have one name and do not run alike. -/
def clashes (ds : List (AxisDecision Unit)) : Bool :=
  ds.any fun d => ds.any fun d' =>
    d.spec.name = d'.spec.name && mapStrategy d.strategy ≠ mapStrategy d'.strategy

def clashBudget : MemoryBudget Unit := ⟨1, fun ds => some (if clashes ds then 0 else 2), by decide⟩

def clashContext : Context := { memoryBudget := some (.budget clashBudget), chunkSize := 1 }

/-- JAX without an accelerator. -/
def onCpu : Jax := ⟨"cpu", fun _ _ => none⟩

theorem clashBudget_readsOnly : clashBudget.ReadsOnly := by
  intro ds ds' hbare
  have hclashes : ∀ ds, clashes ds = clashes (ds.map AxisDecision.bare) := by
    intro ds
    unfold clashes
    rw [any_map]
    refine congrArg (ds.any ·) (funext fun d => ?_)
    rw [Function.comp_apply, any_map]
    rfl
  show some (if clashes ds then (0 : Int) else 2) = some (if clashes ds' then 0 else 2)
  rw [hclashes ds, hclashes ds', hbare]

theorem fits_clashBudget {ds : List (AxisDecision Unit)} :
    clashBudget.Fits ds ↔ clashes ds = true := by
  constructor
  · rintro ⟨e, he, hle⟩
    by_contra hnot
    obtain rfl := Option.some.inj he
    rw [if_neg hnot] at hle
    exact absurd hle (by decide)
  · intro h
    refine ⟨0, ?_, by decide⟩
    show some (if clashes ds then (0 : Int) else 2) = some 0
    rw [if_pos h]

/-! ### The planner finds a plan -/

theorem exists_take {α : Type} {l : List α} {a b : α} (ha : a ∈ l) (hb : b ∈ l) (hne : a ≠ b) :
    ∃ k ≤ l.length, (a ∈ l.take k ∧ b ∉ l.take k) ∨ (b ∈ l.take k ∧ a ∉ l.take k) := by
  induction l with
  | nil => exact nomatch ha
  | cons c l ih =>
    by_cases hac : a = c
    · refine ⟨1, by simp, .inl ⟨by simp [hac], ?_⟩⟩
      simpa [← hac] using hne.symm
    by_cases hbc : b = c
    · refine ⟨1, by simp, .inr ⟨by simp [hbc], ?_⟩⟩
      simpa [← hbc] using hne
    obtain ⟨k, hk, h⟩ := ih ((mem_cons.mp ha).resolve_left hac) ((mem_cons.mp hb).resolve_left hbc)
    refine ⟨k + 1, by simpa using hk, ?_⟩
    simpa [hac, hbc] using h

section

variable {specs : List AxisSpec} {i j : Fin specs.length}

theorem dedupIndices_allPending :
    (dedupIndices (allPending specs) : List (Fin specs.length)) = [] := by
  refine filter_eq_nil_iff.mpr fun i _ => ?_
  rw [phaseAt_allPending]
  nofun

theorem choiceAt_allPending (hsimple : ∀ spec ∈ specs, spec.heterogeneous = false)
    (demoted : List (Fin specs.length)) :
    choiceAt (allPending specs) [] demoted i = budgetChoice (specs.get i) (i ∈ demoted) := by
  unfold choiceAt
  rw [phaseAt_allPending, hsimple _ (get_mem specs i)]
  rfl

theorem mem_demotableAxes_allPending (hdemotable : ∀ spec ∈ specs,
    isDemotable spec = true) (i : Fin specs.length) :
    i ∈ demotableAxes (allPending specs) [] := by
  refine mem_demotableAxes.mpr ⟨?_, hdemotable _ (get_mem specs i)⟩
  unfold isPlanned
  rw [phaseAt_allPending]

/-- **Two axes of one name clash** in one of the plans. -/
theorem exists_clash (hsimple : ∀ spec ∈ specs, spec.heterogeneous = false)
    (hdemotable : ∀ spec ∈ specs, isDemotable spec = true) (hij : i ≠ j)
    (hname : (specs.get i).name = (specs.get j).name) :
    ∃ k ≤ (demotableAxes (allPending specs) ([] : List (Fin specs.length))).length,
      clashes (planAt (allPending specs) ([] : List (Fin specs.length)) k) = true := by
  obtain ⟨k, hk, h⟩ := exists_take (mem_demotableAxes_allPending hdemotable i)
    (mem_demotableAxes_allPending hdemotable j) hij
  refine ⟨k, hk, ?_⟩
  have hmem : ∀ x : Fin specs.length, budgetChoice (specs.get x)
      (x ∈ (demotableAxes (allPending specs) []).take k) ∈
        planAt (allPending specs) ([] : List (Fin specs.length)) k := by
    intro x
    rw [← choiceAt_allPending hsimple]
    exact mem_map_of_mem (mem_finRange x)
  refine any_eq_true.mpr ⟨_, hmem i, any_eq_true.mpr ⟨_, hmem j, ?_⟩⟩
  rcases h with ⟨hin, hout⟩ | ⟨hin, hout⟩
  · simpa [budgetChoice, hin, hout, mapStrategy] using hname
  · simpa [budgetChoice, hin, hout, mapStrategy] using hname

end

section

variable {records : List SiteRecord} {ctx : Context} {mode : DiffMode} {plan : Plan}
  {budget : Option (MemoryBudget Unit)} {axisDecisions : List (AxisDecision Unit)}
  {chosen final working decisions : Decisions} {record : SiteRecord} {d : SiteDecision}

theorem planMaps_clashBudget (hnames : ¬ ((records.filter plannedMap).map (·.key.str)).Nodup) :
    ∃ ds, planMaps records clashContext (some clashBudget) = .ok ds := by
  have hplanned : ∀ spec ∈ (records.filter plannedMap).map (axisSpec clashContext),
      Simple spec ∧ spec.heterogeneous = false ∧ isDemotable spec = true := by
    intro spec hspec
    obtain ⟨r, hr, rfl⟩ := mem_map.mp hspec
    have hcard : 1 < cardinality r := by
      have hmap := (mem_filter.mp hr).2
      unfold plannedMap at hmap
      simp only [Bool.and_eq_true, decide_eq_true_eq] at hmap
      exact hmap.2
    refine ⟨⟨nofun, rfl⟩, rfl, ?_⟩
    unfold isDemotable
    rw [Bool.and_eq_true]
    exact ⟨rfl, decide_eq_true (Int.ofNat_lt.mpr hcard)⟩
  generalize hspecs : (records.filter plannedMap).map (axisSpec clashContext) = specs at hplanned
  have hsame : specs.map (·.name) = (records.filter plannedMap).map (·.key.str) := by
    rw [← hspecs, map_map]
    rfl
  have hinj : ¬ Function.Injective fun i : Fin specs.length => (specs.get i).name := by
    intro hinj
    have hnodup := (nodup_finRange specs.length).map hinj
    have hlist := congrArg (map AxisSpec.name) (map_get_finRange specs)
    rw [map_map] at hlist
    exact hnames (hsame ▸ hlist ▸ hnodup)
  obtain ⟨i, j, hname, hij⟩ := Function.not_injective_iff.mp hinj
  obtain ⟨k, hk, hclash⟩ := exists_clash (fun spec hspec => (hplanned spec hspec).2.1)
    (fun spec hspec => (hplanned spec hspec).2.2) hij hname
  have hfirst : firstPass 0 { budget := some clashBudget } specs =
      .ok (allPending specs) := phasesOf_simple fun spec hspec => (hplanned spec hspec).1
  obtain ⟨ds, hplan⟩ := plan_returns rfl clashBudget_readsOnly (fun _ => nofun) hfirst
    dedupIndices_allPending hk (fits_clashBudget.mpr hclash)
  unfold planMaps
  dsimp only
  split
  · exact ⟨_, rfl⟩
  · rw [hspecs, hplan]
    exact ⟨ds, rfl⟩

/-! ### Resolving returns -/

theorem opDecision_returns (hop : record.op.isSome = true) : ∃ d, opDecision record = .ok d := by
  obtain ⟨choice, hchoice⟩ := Option.isSome_iff_exists.mp hop
  unfold opDecision
  rw [hchoice]
  exact ⟨_, rfl⟩

theorem noTwinDecision_returns (hop : record.kind = .op → record.op.isSome = true) :
    ∃ d, noTwinDecision record ctx mode = .ok d := by
  unfold noTwinDecision
  split
  · exact opDecision_returns (hop ‹_›)
  · exact ⟨_, rfl⟩
  · exact ⟨_, rfl⟩

theorem plannedStrategy_returns {budget : MemoryBudget Unit} (hreads : budget.ReadsOnly)
    (hplan : planMaps records ctx (some budget) = .ok axisDecisions) (hrecord : record ∈ records)
    (hplanned : plannedMap record = true) :
    ∃ result, plannedStrategy record axisDecisions = .ok result := by
  obtain ⟨hpairs, -, hchoice⟩ := planMaps_spec hreads hplan
  obtain ⟨own, hown, hspec⟩ :=
    exists_of_forall₂ hpairs (mem_filter.mpr ⟨hrecord, hplanned⟩)
  unfold plannedStrategy
  cases hfind : axisDecisions.find? (fun item => item.spec.name = record.key.str) with
  | none =>
    have hnot := find?_eq_none.mp hfind own hown
    rw [hspec] at hnot
    exact absurd (decide_eq_true rfl) hnot
  | some item =>
    obtain ⟨chunked, hbare⟩ := hchoice item (mem_of_find?_eq_some hfind)
    have hstrategy : item.strategy =
        if chunked then .chunkedMap item.spec.defaultBatchSize else .vmap :=
      congrArg AxisDecision.strategy hbare
    dsimp only
    rw [hstrategy]
    cases chunked <;> exact ⟨_, rfl⟩

theorem chosenDecision_returns {budget : MemoryBudget Unit} (hreads : budget.ReadsOnly)
    (hplan : planMaps records ctx (some budget) = .ok axisDecisions) (hrecord : record ∈ records)
    (hop : record.kind = .op → record.op.isSome = true)
    (hprimal : isPrimalChain record.key = true) :
    ∃ d, chosenDecision record ctx (some budget) axisDecisions [] mode = .ok d := by
  suffices hautomatic : ∃ d,
      automaticDecision record ctx (some budget) axisDecisions mode = .ok d by
    obtain ⟨d, hd⟩ := hautomatic
    exact ⟨d, bind_eq_ok.mpr ⟨d, hd, rfl⟩⟩
  unfold automaticDecision
  split
  · exact opDecision_returns (hop ‹_›)
  · exact ⟨_, rfl⟩
  · rename_i hkind
    split
    · exact ⟨_, rfl⟩
    · rename_i hcard
      have hplanned : plannedMap record = true := by
        simp [plannedMap, hprimal, hkind, not_le.mp hcard]
      obtain ⟨⟨strategy, reason⟩, hstrategy⟩ := plannedStrategy_returns hreads hplan hrecord hplanned
      exact ⟨_, bind_eq_ok.mpr ⟨_, hstrategy, rfl⟩⟩

theorem checkContext_clashContext (primal : Strategy) :
    checkContext record primal clashContext = .ok () := by
  unfold checkContext
  rw [if_neg (fun h => nomatch h.2.2), if_neg (by simp [forbidsStaticWhile, clashContext])]

theorem hazardViews_returns (hops : ∀ r ∈ records, r.kind = .op → r.op.isSome = true) :
    ∃ views, hazardViews record records chosen ctx mode = .ok views := by
  have hpreview : ∀ other ∈ subtree record records, ∃ d, preview other chosen ctx mode = .ok d := by
    intro other hother
    unfold preview
    split
    · exact ⟨_, rfl⟩
    · split
      · exact ⟨_, rfl⟩
      · exact noTwinDecision_returns (hops other (mem_filter.mp hother).1)
  obtain ⟨below, hbelow⟩ := exists_mapM hpreview
  exact ⟨_, bind_eq_ok.mpr ⟨below, hbelow, rfl⟩⟩

/-- **Without an accelerator the hazards only warn.** -/
theorem withHazards_onCpu (hops : ∀ r ∈ records, r.kind = .op → r.op.isSome = true)
    (hd : chosen record.key = some d) :
    ∃ d', withHazards onCpu record chosen clashContext budget working [] records mode = .ok d' ∧
      d'.primal = d.primal := by
  obtain ⟨views, hviews⟩ := hazardViews_returns hops
  have hwarn : ∀ hazard fits warnings, ∃ warnings',
      applyHazard "cpu" record false views fits (d, warnings) hazard = .ok (d, warnings') := by
    intro hazard fits warnings
    unfold applyHazard
    dsimp only
    cases hazard with
    | scanAroundWhile =>
      have hnot : Hazard.scanAroundWhile.applies "cpu" d views = false := by
        simp [Hazard.applies, scanAroundWhile, isScanAroundWhileBackend]
      rw [hnot]
      exact ⟨warnings, rfl⟩
    | longStaticScan =>
      split
      · exact ⟨warnings, rfl⟩
      · exact ⟨_, rfl⟩
  obtain ⟨first, hfirst⟩ := hwarn .scanAroundWhile
    (vmapFits record records working clashContext budget) d.warnings
  obtain ⟨second, hsecond⟩ := hwarn .longStaticScan
    (vmapFits record records working clashContext budget) first
  refine ⟨{ d with warnings := second }, ?_, rfl⟩
  unfold withHazards
  rw [hd]
  refine bind_eq_ok.mpr ⟨views, hviews, bind_eq_ok.mpr ⟨(d, second), ?_, rfl⟩⟩
  exact bind_eq_ok.mpr ⟨(d, first), hfirst, bind_eq_ok.mpr ⟨(d, second), hsecond, rfl⟩⟩

/-- **Resolving returns**, when the planner does. -/
theorem resolve_returns (hops : ∀ r ∈ records, r.kind = .op → r.op.isSome = true)
    (hplan : planMaps records clashContext (some clashBudget) = .ok axisDecisions) :
    ∃ plan, resolve onCpu records clashContext [] mode = .ok plan := by
  have hvalid : validateOverrides records [] = .ok () := forM_ok fun r _ => rfl
  have hnone : ∀ decisions, checkMapOverrideBudget records decisions clashContext
      (some clashBudget) [] = .ok () := by
    intro decisions
    have hfind : records.find? (overriddenMap []) = none := by
      refine find?_eq_none.mpr fun r _ => ?_
      simp [overriddenMap, Overrides.get?]
    unfold checkMapOverrideBudget
    rw [hfind]
  obtain ⟨chosen, hchosen⟩ : ∃ chosen,
      chooseAll clashContext (some clashBudget) axisDecisions [] mode records = .ok chosen := by
    refine exists_foldlM (fun r hr decisions => ?_) _
    split
    · rename_i hprimal
      obtain ⟨d, hd⟩ : ∃ d, chosenDecision r clashContext (some clashBudget) axisDecisions [] mode =
          .ok d := chosenDecision_returns clashBudget_readsOnly hplan hr (hops r hr) hprimal
      exact ⟨_, bind_eq_ok.mpr ⟨d, hd, rfl⟩⟩
    · exact ⟨_, rfl⟩
  have hmade := (chooseAll_spec hchosen).complete
  have hchecked : checkChosen records chosen clashContext = .ok () := by
    refine forM_ok fun r hr => ?_
    obtain ⟨d, hd⟩ := hmade r (mem_primalChain.mp hr).1 (mem_primalChain.mp hr).2
    rw [hd]
    exact checkContext_clashContext d.primal
  obtain ⟨⟨final, working⟩, hfinal⟩ : ∃ st,
      hazardLoop onCpu chosen clashContext (some clashBudget) [] records mode = .ok st := by
    refine exists_foldlM (fun r hr st => ?_) _
    obtain ⟨d, hd⟩ := hmade r (mem_primalChain.mp hr).1 (mem_primalChain.mp hr).2
    obtain ⟨d', hd', -⟩ := withHazards_onCpu hops hd
    exact ⟨_, bind_eq_ok.mpr ⟨d', hd', rfl⟩⟩
  obtain ⟨decisions, hdecisions⟩ : ∃ decisions,
      records.mapM (finalDecision final clashContext mode) = .ok decisions := by
    refine exists_mapM fun r hr => ?_
    unfold finalDecision
    split
    · rename_i hprimal
      obtain ⟨d, hd⟩ := (hazardLoop_spec hfinal).complete r hr hprimal
      rw [hd]
      exact ⟨d, rfl⟩
    · unfold diffVisit
      split
      · obtain ⟨d, hd⟩ := noTwinDecision_returns (hops r hr)
        refine ⟨d, bind_eq_ok.mpr ⟨d, hd, bind_eq_ok.mpr ⟨(), ?_, rfl⟩⟩⟩
        exact checkContext_clashContext d.primal
      · exact ⟨_, rfl⟩
  refine ⟨{ schemaVersion := planSchemaVersion, context := clashContext, decisions := decisions }, ?_⟩
  unfold resolve
  rw [hvalid]
  refine bind_eq_ok.mpr ⟨(), rfl, bind_eq_ok.mpr ⟨some clashBudget, rfl, ?_⟩⟩
  refine bind_eq_ok.mpr ⟨axisDecisions, hplan, bind_eq_ok.mpr ⟨chosen, hchosen, ?_⟩⟩
  refine bind_eq_ok.mpr ⟨(), hchecked, bind_eq_ok.mpr ⟨(), hnone chosen, ?_⟩⟩
  refine bind_eq_ok.mpr ⟨(final, working), hfinal, bind_eq_ok.mpr ⟨(), hnone final, ?_⟩⟩
  exact bind_eq_ok.mpr ⟨decisions, hdecisions, rfl⟩

/-! ### Axes of one name run alike -/

theorem jointAxis_spec {axis : AxisDecision Unit} (h : jointAxis ctx decisions record = .ok axis) :
    axis.spec = axisSpec ctx record ∧
      ∃ d, decisions record.key = some d ∧ mapStrategy axis.strategy = some d.primal := by
  unfold jointAxis at h
  dsimp only at h
  cases hd : decisions record.key with
  | none =>
    rw [hd] at h
    exact nomatch h
  | some d =>
    rw [hd] at h
    dsimp only at h
    split at h
    · rename_i hprimal
      obtain rfl := Except.ok.inj h
      exact ⟨rfl, d, rfl, congrArg some hprimal.symm⟩
    · rename_i hprimal
      obtain rfl := Except.ok.inj h
      exact ⟨rfl, d, rfl, congrArg some hprimal.symm⟩
    · exact nomatch h

theorem runs_first (hkeys : (records.map (·.key)).Nodup)
    (hops : ∀ r ∈ records, r.kind = .op → r.op.isSome = true)
    (R : Resolved onCpu records clashContext [] mode plan) (hbudget : R.budget = some clashBudget)
    (hrecord : record ∈ records) (hplanned : plannedMap record = true) {axis : AxisDecision Unit}
    (h : jointAxis clashContext plan.byKey record = .ok axis) :
    ∃ item, R.axisDecisions.find? (fun item => item.spec.name = axis.spec.name) = some item ∧
      mapStrategy axis.strategy = mapStrategy item.strategy := by
  obtain ⟨hspec, d', hd', hstrategy⟩ := jointAxis_spec h
  rw [R.byKey hkeys hrecord (isPrimalChain_of_planned hplanned)] at hd'
  obtain ⟨d, hd, -, -, -, working, hmade⟩ := R.final_of_key hkeys hrecord hd'
  have hchosen := (R.chosen_of_key hkeys hrecord hd).2
  rw [hbudget] at hchosen
  obtain ⟨item, s, hfind, hs, hprimal, -⟩ := chosenDecision_planned hplanned rfl hchosen
  obtain ⟨d'', hd'', hsame⟩ := withHazards_onCpu hops hd
  obtain rfl := Except.ok.inj (hmade.symm.trans hd'')
  refine ⟨item, ?_, ?_⟩
  · rw [hspec]
    exact hfind
  · rw [hstrategy, hs, hsame, hprimal]

theorem plan_without_clash (hkeys : (records.map (·.key)).Nodup)
    (hops : ∀ r ∈ records, r.kind = .op → r.op.isSome = true)
    (h : resolve onCpu records clashContext [] mode = .ok plan) :
    ¬ Within clashBudget records clashContext plan.byKey := by
  rintro ⟨axes, haxes, hfits⟩
  obtain ⟨R⟩ := resolve_ok h
  have hbudget : R.budget = some clashBudget := (Except.ok.inj R.budget_eq).symm
  have hfirst : ∀ axis ∈ axes, ∃ item,
      R.axisDecisions.find? (fun item => item.spec.name = axis.spec.name) = some item ∧
        mapStrategy axis.strategy = mapStrategy item.strategy := by
    intro axis haxis
    obtain ⟨r, hr, hjoint⟩ := exists_of_forall₂ (mapM_eq_ok.mp haxes).flip haxis
    obtain ⟨hrecord, hplanned⟩ := mem_filter.mp hr
    exact runs_first hkeys hops R hbudget hrecord hplanned hjoint
  obtain ⟨axis, haxis, hother⟩ := any_eq_true.mp (fits_clashBudget.mp hfits)
  obtain ⟨axis', haxis', hclash⟩ := any_eq_true.mp hother
  obtain ⟨hname, hdiffer⟩ : axis.spec.name = axis'.spec.name ∧
      mapStrategy axis.strategy ≠ mapStrategy axis'.strategy := by simpa using hclash
  obtain ⟨item, hitem, hruns⟩ := hfirst axis haxis
  obtain ⟨item', hitem', hruns'⟩ := hfirst axis' haxis'
  rw [hname] at hitem
  obtain rfl := Option.some.inj (hitem.symm.trans hitem')
  exact hdiffer (hruns.trans hruns'.symm)

/-! ### Plans and budgets -/

theorem within_iff_of_no_axes {budget : MemoryBudget Unit}
    (hempty : records.filter plannedMap = []) :
    Within budget records ctx decisions ↔ budget.Fits [] := by
  unfold Within jointAxes
  rw [hempty]
  constructor
  · rintro ⟨axes, haxes, hfits⟩
    obtain rfl := Except.ok.inj haxes
    exact hfits
  · exact fun hfits => ⟨[], rfl, hfits⟩

/-- **When every plan keeps its budget.**  The texts of the keys of the maps with more than one
element are distinct; and without such maps, no axes fit. -/
theorem plan_within_budget_iff (hkeys : (records.map (·.key)).Nodup)
    (hops : ∀ r ∈ records, r.kind = .op → r.op.isSome = true) :
    ((∀ jax ctx overrides mode budget plan,
        budgetFor jax ctx records = .ok (some budget) → budget.ReadsOnly →
        (records.filter plannedMap = [] → budget.Fits []) →
        resolve jax records ctx overrides mode = .ok plan → Within budget records ctx plan.byKey) ↔
      ((records.filter plannedMap).map (·.key.str)).Nodup) ∧
    ∀ budget ctx (plan : Plan), records.filter plannedMap = [] →
      (Within budget records ctx plan.byKey ↔ budget.Fits []) := by
  refine ⟨⟨fun hwithin => ?_, fun hnames => ?_⟩, fun _ _ _ hempty => within_iff_of_no_axes hempty⟩
  · by_contra hnames
    obtain ⟨ds, hplan⟩ := planMaps_clashBudget hnames
    obtain ⟨plan, hresolve⟩ := resolve_returns hops hplan
    refine plan_without_clash hkeys hops hresolve ?_
    refine hwithin onCpu clashContext [] {} clashBudget plan rfl clashBudget_readsOnly ?_ hresolve
    intro hempty
    rw [hempty] at hnames
    exact absurd List.nodup_nil hnames
  · intro jax ctx overrides mode budget plan hbudget hreads hempty hresolve
    exact plan_within_budget hkeys hbudget hreads hnames hempty hresolve

end

/-! ### Two maps -/

namespace TwoMaps

def jax : Jax := ⟨"cpu", fun _ _ => none⟩

def ctx : Context :=
  { memoryBudget := some (.budget BatchPlanner.TwoAxes.budget), chunkSize := 6 }

def steps : SiteKey := .root .primal "a" 0

theorem leading_eight : Kind.map = .map → ∃ n dims rest, [[8, 4]] = (n :: dims) :: rest := by simp

/-- A map in a loop, and a map with this label after it. -/
def records (label : String) : List SiteRecord :=
  [{ key := steps, kind := .loop, avals := [[4]], length := some 3 },
    { key := .child steps .primal "b" 0, kind := .map, avals := [[6, 4]], length := none },
    { key := .root .primal label 0, kind := .map, avals := [[8, 4]], length := none
      leading := leading_eight }]

end TwoMaps

open TwoMaps in
theorem plan_within_budget_two_maps :
    ∃ plan, resolve jax (records "c") ctx [] {} = .ok plan ∧
      plan.decisions.map SiteDecision.primal = [.staticWhile 3, .vmap, .chunkedMap 6] ∧
      Within BatchPlanner.TwoAxes.budget (records "c") ctx plan.byKey := by
  have hplan : (resolve jax (records "c") ctx [] {}).map
      (fun plan => plan.decisions.map SiteDecision.primal) =
        .ok [.staticWhile 3, .vmap, .chunkedMap 6] := by
    decide
  cases hresolve : resolve jax (records "c") ctx [] {} with
  | error e =>
    rw [hresolve] at hplan
    exact nomatch hplan
  | ok plan =>
    rw [hresolve] at hplan
    refine ⟨plan, rfl, Except.ok.inj hplan, ?_⟩
    have hiff := plan_within_budget_iff (show ((records "c").map (·.key)).Nodup by decide)
      (by decide)
    exact hiff.1.mpr (by decide) jax ctx [] {} _ plan rfl
      BatchPlanner.TwoAxes.readsOnly_budget (fun h => absurd h (by decide)) hresolve

open TwoMaps in
/-- A label that looks like the path of the map in the loop: the second map is given what was
planned for the first, and both are mapped. -/
theorem plan_over_budget :
    ((records "a#0/primal/b").map (·.key)).Nodup ∧ BatchPlanner.TwoAxes.budget.ReadsOnly ∧
      ∃ plan, resolve jax (records "a#0/primal/b") ctx [] {} = .ok plan ∧
        ¬ Within BatchPlanner.TwoAxes.budget (records "a#0/primal/b") ctx plan.byKey := by
  refine ⟨by decide, BatchPlanner.TwoAxes.readsOnly_budget, ?_⟩
  have hestimate : (resolve jax (records "a#0/primal/b") ctx [] {}).bind (fun plan =>
      jointEstimate (records "a#0/primal/b") plan.byKey ctx BatchPlanner.TwoAxes.budget) =
        .ok 14 := by
    decide
  cases hresolve : resolve jax (records "a#0/primal/b") ctx [] {} with
  | error e =>
    rw [hresolve] at hestimate
    exact nomatch hestimate
  | ok plan =>
    rw [hresolve] at hestimate
    exact ⟨plan, rfl, not_within_of_jointEstimate hestimate (by decide)⟩

end Xtrax.Intent
