import Xtrax.IntentHazards

/-!
# What a resolution does

`resolve_ok` says what the parts of a resolution were when it returned a plan.  A chosen
decision is that of a record of its key (`chooseAll_spec`), and so is a final one
(`hazardLoop_spec`), which is the chosen one with more warnings, or a chunked map back on `Vmap`
(`withHazards_spec`).

`export_plan_exportable`: a plan for export runs no unbounded loop, and no static while unless
the format is stablehlo.
-/

namespace Xtrax.Intent

open Except List Option

open BatchPlanner (AxisSpec AxisDecision MemoryBudget)
open Results

section

variable {jax : Jax} {records : List SiteRecord} {ctx : Context} {overrides : Overrides}
  {mode : DiffMode} {plan : Plan} {budget : Option (MemoryBudget Unit)}
  {axisDecisions : List (AxisDecision Unit)} {chosen final working : Decisions}
  {record : SiteRecord} {d d' : SiteDecision}

/-! ### The parts -/

/-- The parts of a resolution that returned. -/
structure Resolved (jax : Jax) (records : List SiteRecord) (ctx : Context) (overrides : Overrides)
    (mode : DiffMode) (plan : Plan) where
  budget : Option (MemoryBudget Unit)
  axisDecisions : List (AxisDecision Unit)
  chosen : Decisions
  final : Decisions
  working : Decisions
  valid : validateOverrides records overrides = .ok ()
  budget_eq : budgetFor jax ctx records = .ok budget
  planned : planMaps records ctx budget = .ok axisDecisions
  chosen_eq : chooseAll ctx budget axisDecisions overrides mode records = .ok chosen
  checked : checkChosen records chosen ctx = .ok ()
  final_eq : hazardLoop jax chosen ctx budget overrides records mode = .ok (final, working)
  within : checkMapOverrideBudget records final ctx budget overrides = .ok ()
  decisions : List.Forall₂ (fun r d => finalDecision final ctx mode r = .ok d) records
    plan.decisions

theorem resolve_ok (h : resolve jax records ctx overrides mode = .ok plan) :
    Nonempty (Resolved jax records ctx overrides mode plan) := by
  unfold resolve at h
  obtain ⟨⟨⟩, hvalid, h⟩ := bind_eq_ok.mp h
  obtain ⟨budget, hbudget, h⟩ := bind_eq_ok.mp h
  obtain ⟨axisDecisions, hplanned, h⟩ := bind_eq_ok.mp h
  obtain ⟨chosen, hchosen, h⟩ := bind_eq_ok.mp h
  obtain ⟨⟨⟩, hchecked, h⟩ := bind_eq_ok.mp h
  obtain ⟨⟨⟩, -, h⟩ := bind_eq_ok.mp h
  obtain ⟨⟨final, working⟩, hfinal, h⟩ := bind_eq_ok.mp h
  obtain ⟨⟨⟩, hwithin, h⟩ := bind_eq_ok.mp h
  obtain ⟨decisions, hdecisions, h⟩ := bind_eq_ok.mp h
  obtain rfl := ok.inj h
  exact ⟨⟨budget, axisDecisions, chosen, final, working, hvalid, hbudget, hplanned, hchosen,
    hchecked, hfinal, hwithin, mapM_eq_ok.mp hdecisions⟩⟩

theorem checkOverrideType_of_valid (h : validateOverrides records overrides = .ok ())
    (hrecord : record ∈ records) {override : Override}
    (hoverride : overrides.get? record.key.label = some override) :
    checkOverrideType record override = .ok () := by
  unfold validateOverrides at h
  split at h
  · exact nomatch h
  · have hcheck := forM_eq_ok h record hrecord
    rw [hoverride] at hcheck
    exact hcheck

/-! ### Chosen decisions -/

/-- Every decision is that of a primal-chain record of its key, and every primal-chain record
has one. -/
structure FromRecords (records : List SiteRecord) (made : SiteRecord → SiteDecision → Prop)
    (decisions : Decisions) : Prop where
  sound : ∀ key d, decisions key = some d →
    ∃ r ∈ records, r.key = key ∧ isPrimalChain key = true ∧ made r d
  complete : ∀ r ∈ records, isPrimalChain r.key = true → ∃ d, decisions r.key = some d

/-- What holds of a table while a loop over the records fills it. -/
structure Filling (records rest : List SiteRecord) (made : SiteRecord → SiteDecision → Prop)
    (decisions : Decisions) : Prop where
  sound : ∀ key d, decisions key = some d →
    ∃ r ∈ records, r.key = key ∧ isPrimalChain key = true ∧ made r d
  complete : ∀ r ∈ records, isPrimalChain r.key = true → r ∈ rest ∨ ∃ d, decisions r.key = some d
  rest_subset : ∀ r ∈ rest, r ∈ records

section Filling
variable {rest : List SiteRecord} {made : SiteRecord → SiteDecision → Prop} {decisions : Decisions}

theorem Filling.start (hrest : ∀ r ∈ rest, r ∈ records)
    (hall : ∀ r ∈ records, isPrimalChain r.key = true → r ∈ rest) :
    Filling records rest made fun _ => none where
  sound := fun _ _ h => nomatch h
  complete := fun r hr hprimal => .inl (hall r hr hprimal)
  rest_subset := hrest

theorem Filling.finish (h : Filling records [] made decisions) : FromRecords records made decisions where
  sound := h.sound
  complete := fun r hr hprimal => (h.complete r hr hprimal).resolve_left (not_mem_nil)

theorem Filling.skip (h : Filling records (record :: rest) made decisions)
    (hdiff : isPrimalChain record.key = false) : Filling records rest made decisions where
  sound := h.sound
  complete := by
    intro r hr hprimal
    rcases h.complete r hr hprimal with hmem | hsome
    · rcases mem_cons.mp hmem with rfl | hmem
      · rw [hdiff] at hprimal
        exact nomatch hprimal
      · exact .inl hmem
    · exact .inr hsome
  rest_subset := fun r hr => h.rest_subset r (mem_cons_of_mem _ hr)

theorem Filling.put (h : Filling records (record :: rest) made decisions)
    (hprimal : isPrimalChain record.key = true) (hmade : made record d) :
    Filling records rest made (Function.update decisions record.key (some d)) where
  sound := by
    intro key d' hkey
    by_cases heq : key = record.key
    · subst heq
      rw [Function.update_self] at hkey
      obtain rfl := some.inj hkey
      exact ⟨record, h.rest_subset record mem_cons_self, rfl, hprimal, hmade⟩
    · rw [Function.update_of_ne heq] at hkey
      exact h.sound key d' hkey
  complete := by
    intro r hr hr'
    by_cases heq : r.key = record.key
    · rw [heq, Function.update_self]
      exact .inr ⟨d, rfl⟩
    · rw [Function.update_of_ne heq]
      rcases h.complete r hr hr' with hmem | hsome
      · rcases mem_cons.mp hmem with rfl | hmem
        · exact absurd rfl heq
        · exact .inl hmem
      · exact .inr hsome
  rest_subset := fun r hr => h.rest_subset r (mem_cons_of_mem _ hr)

end Filling

theorem chooseAll_spec
    (h : chooseAll ctx budget axisDecisions overrides mode records = .ok chosen) :
    FromRecords records
      (fun r d => chosenDecision r ctx budget axisDecisions overrides mode = .ok d) chosen := by
  let kept := fun (rest : List SiteRecord) (decisions : Decisions) =>
    Filling records rest
      (fun r d => chosenDecision r ctx budget axisDecisions overrides mode = .ok d) decisions
  have hstart : kept records fun _ => none := Filling.start (fun _ => id) fun _ hr _ => hr
  refine Filling.finish (foldlM_keeps (I := kept) ?_ hstart h)
  intro record rest decisions decisions' hfilling hstep
  split at hstep
  · obtain ⟨d, hd, hstep⟩ := bind_eq_ok.mp hstep
    obtain rfl := ok.inj hstep
    exact hfilling.put ‹_› hd
  · obtain rfl := ok.inj hstep
    exact hfilling.skip (Bool.eq_false_iff.mpr ‹_›)

/-- What every decision of a site has. -/
structure Lawful (record : SiteRecord) (d : SiteDecision) : Prop where
  key : d.key = record.key
  kind : d.kind = record.kind
  unbounded : d.primal.isWhileCarry = true ↔ record.kind = .loop ∧ record.length = none
  map : record.kind = .map → d.primal.isMap = true
  diff : ∀ s ∈ d.diff, s.isMap = true ∨ s.isScan = true

theorem isMap_of_mapStrategy {strategy : BatchPlanner.AxisStrategy Unit} {s : Strategy}
    (h : mapStrategy strategy = some s) : s.isMap = true := by
  cases strategy with
  | vmap => exact some.inj h ▸ rfl
  | chunkedMap batchSize => exact some.inj h ▸ rfl
  | _ => exact nomatch h

theorem Strategy.not_whileCarry_of_isMap {s : Strategy} (h : s.isMap = true) :
    s.isWhileCarry = false := by
  cases s with
  | vmap | chunkedMap => rfl
  | _ => exact nomatch h

theorem lawful_map (hkind : record.kind = .map) {primal diff : Strategy} (hprimal : primal.isMap = true)
    (hdiff : diff.isMap = true) {primalReason diffReason : String} :
    Lawful record (decision record primal (some diff) primalReason diffReason) where
  key := rfl
  kind := rfl
  unbounded := by
    constructor
    · intro h
      exact absurd (Strategy.not_whileCarry_of_isMap hprimal ▸ h : false = true) (by decide)
    · rintro ⟨hloop, -⟩
      rw [hkind] at hloop
      exact nomatch hloop
  map := fun _ => hprimal
  diff := fun s hs => some.inj hs ▸ .inl hdiff

theorem lawful_op (hkind : record.kind = .op) (h : opDecision record = .ok d) :
    Lawful record d := by
  unfold opDecision at h
  split at h
  · exact nomatch h
  · obtain rfl := ok.inj h
    refine ⟨rfl, hkind.symm, ⟨(fun h => nomatch h), ?_⟩, ?_, fun _ hs => nomatch hs⟩
    · rintro ⟨hloop, -⟩
      rw [hkind] at hloop
      exact nomatch hloop
    · intro hmap
      rw [hkind] at hmap
      exact nomatch hmap

theorem lawful_loop (hkind : record.kind = .loop) {primal : Strategy} {diff : Option Strategy}
    {primalReason diffReason : String}
    (hunbounded : primal.isWhileCarry = true ↔ record.length = none)
    (hdiff : ∀ s ∈ diff, s.isScan = true) :
    Lawful record (decision record primal diff primalReason diffReason) where
  key := rfl
  kind := rfl
  unbounded := ⟨fun h => ⟨hkind, hunbounded.mp h⟩, fun h => hunbounded.mpr h.2⟩
  map := by
    intro hmap
    rw [hkind] at hmap
    exact nomatch hmap
  diff := fun s hs => .inr (hdiff s hs)

theorem loopChoice_spec (record : SiteRecord) (ctx : Context) (mode : DiffMode) :
    (loopChoice record ctx mode).1 =
      (match record.length with
        | none => .whileCarry
        | some length => if forbidsStaticWhile ctx then .scan true else .staticWhile length) ∧
    ∀ s ∈ (loopChoice record ctx mode).2.1, s.isScan = true := by
  unfold loopChoice
  cases record.length with
  | none => exact ⟨rfl, fun _ hs => nomatch hs⟩
  | some length =>
    cases forbidsStaticWhile ctx <;> cases mode.available <;>
      exact ⟨rfl, by simp [Strategy.isScan]⟩

theorem lawful_loopChoice (hkind : record.kind = .loop) {primalReason diffReason : String} :
    Lawful record (decision record (loopChoice record ctx mode).1 (loopChoice record ctx mode).2.1
      primalReason diffReason) := by
  obtain ⟨hprimal, hdiff⟩ := loopChoice_spec record ctx mode
  refine lawful_loop hkind ?_ hdiff
  rw [hprimal]
  cases record.length with
  | none => exact ⟨fun _ => rfl, fun _ => rfl⟩
  | some length =>
    refine ⟨fun h => ?_, fun h => nomatch h⟩
    cases hforbids : forbidsStaticWhile ctx <;> rw [hforbids] at h <;> exact nomatch h

/-- The decisions that are made without overrides. -/
inductive Automatic (record : SiteRecord) (ctx : Context) (mode : DiffMode) : SiteDecision → Prop
  | op {d : SiteDecision} : record.kind = .op → opDecision record = .ok d →
    Automatic record ctx mode d
  | loop {primalReason diffReason : String} : record.kind = .loop →
    Automatic record ctx mode (decision record (loopChoice record ctx mode).1
      (loopChoice record ctx mode).2.1 primalReason diffReason)
  | map {strategy : Strategy} {primalReason diffReason : String} : record.kind = .map →
    strategy.isMap = true →
    Automatic record ctx mode (decision record strategy (some strategy) primalReason diffReason)

theorem automaticDecision_automatic
    (h : automaticDecision record ctx budget axisDecisions mode = .ok d) :
    Automatic record ctx mode d := by
  unfold automaticDecision at h
  cases hkind : record.kind with
  | op =>
    rw [hkind] at h
    exact .op hkind h
  | loop =>
    rw [hkind] at h
    obtain rfl := ok.inj h
    exact .loop hkind
  | map =>
    rw [hkind] at h
    dsimp only at h
    split at h
    · obtain rfl := ok.inj h
      exact .map hkind rfl
    · split at h
      · obtain rfl := ok.inj h
        exact .map hkind rfl
      · obtain ⟨⟨strategy, reason⟩, hstrategy, h⟩ := bind_eq_ok.mp h
        obtain rfl := ok.inj h
        unfold plannedStrategy at hstrategy
        split at hstrategy
        · exact nomatch hstrategy
        · split at hstrategy
          · exact nomatch hstrategy
          · rename_i hmap
            obtain ⟨rfl, -⟩ := Prod.mk.inj (ok.inj hstrategy)
            exact .map hkind (isMap_of_mapStrategy hmap)

theorem noTwinDecision_automatic (h : noTwinDecision record ctx mode = .ok d) :
    Automatic record ctx mode d := by
  unfold noTwinDecision at h
  cases hkind : record.kind with
  | op =>
    rw [hkind] at h
    exact .op hkind h
  | loop =>
    rw [hkind] at h
    obtain rfl := ok.inj h
    exact .loop hkind
  | map =>
    rw [hkind] at h
    obtain rfl := ok.inj h
    exact .map hkind rfl

theorem Automatic.lawful (h : Automatic record ctx mode d) : Lawful record d := by
  cases h with
  | op hkind h => exact lawful_op hkind h
  | loop hkind => exact lawful_loopChoice hkind
  | map hkind hmap => exact lawful_map hkind hmap hmap

theorem noTwinDecision_lawful (h : noTwinDecision record ctx mode = .ok d) : Lawful record d :=
  (noTwinDecision_automatic h).lawful

theorem applyOverride_lawful {override : Override} (hop : record.kind ≠ .op)
    (h : applyOverride record override mode = .ok d) : Lawful record d := by
  obtain ⟨primal, diff⟩ := override
  unfold applyOverride at h
  dsimp only at h
  split at h
  · rename_i hkind
    split at h
    · exact nomatch h
    · rename_i hmaps
      obtain rfl := ok.inj h
      have hmaps : primal.isMap = true ∧ (diff.getD primal).isMap = true := by simpa using hmaps
      exact lawful_map hkind hmaps.1 hmaps.2
  · rename_i hmap
    have hkind : record.kind = .loop := by
      cases hkind : record.kind with
      | loop => rfl
      | map => exact absurd hkind hmap
      | op => exact absurd hkind hop
    cases hlength : record.length with
    | none =>
      rw [hlength] at h
      dsimp only at h
      split at h
      · exact nomatch h
      · rename_i hcarry
        cases diff with
        | some diff => exact nomatch h
        | none =>
          obtain rfl := ok.inj h
          exact lawful_loop hkind ⟨fun _ => hlength, fun _ => by simpa using hcarry⟩
            fun _ hs => nomatch hs
    | some length =>
      rw [hlength] at h
      dsimp only at h
      split at h
      · exact nomatch h
      · rename_i hstrategy
        have hcarry : primal.isWhileCarry = true ↔ record.length = none := by
          rw [hlength]
          refine ⟨fun hwhile => ?_, fun h => nomatch h⟩
          cases primal with
          | whileCarry => exact absurd rfl hstrategy
          | _ => exact nomatch hwhile
        split at h
        · exact nomatch h
        · cases diff with
          | none =>
            dsimp only at h
            split at h
            · obtain rfl := ok.inj h
              exact lawful_loop hkind hcarry fun s hs => some.inj hs ▸ rfl
            · obtain rfl := ok.inj h
              exact lawful_loop hkind hcarry fun _ hs => nomatch hs
          | some diff =>
            dsimp only at h
            split at h
            · rename_i hscan
              obtain rfl := ok.inj h
              exact lawful_loop hkind hcarry fun s hs => some.inj hs ▸ hscan
            · exact nomatch h

theorem chosenDecision_lawful (hvalid : validateOverrides records overrides = .ok ())
    (hrecord : record ∈ records)
    (h : chosenDecision record ctx budget axisDecisions overrides mode = .ok d) :
    Lawful record d := by
  unfold chosenDecision at h
  obtain ⟨automatic, hautomatic, h⟩ := bind_eq_ok.mp h
  split at h
  · obtain rfl := ok.inj h
    exact (automaticDecision_automatic hautomatic).lawful
  · rename_i override hoverride
    refine applyOverride_lawful ?_ h
    intro hop
    have hcheck := checkOverrideType_of_valid hvalid hrecord hoverride
    unfold checkOverrideType at hcheck
    rw [hop] at hcheck
    exact nomatch hcheck

/-! ### Final decisions -/

structure SameStrategies (d d' : SiteDecision) : Prop where
  key : d'.key = d.key
  kind : d'.kind = d.kind
  primal : d'.primal = d.primal
  diff : d'.diff = d.diff

/-- A chunked map that has been moved back to `Vmap`. -/
structure MovedBack (d d' : SiteDecision) : Prop where
  chunked : d.primal.isChunkedMap = true
  key : d'.key = d.key
  kind : d'.kind = d.kind
  primal : d'.primal = .vmap
  diff : d'.diff = some .vmap

/-- **What the hazards do to a decision**: its strategies stay, and then the site has an override,
or no chunked map is left around a static while; or it is moved back to `Vmap`. -/
theorem withHazards_spec
    (h : withHazards jax record chosen ctx budget working overrides records mode = .ok d') :
    ∃ d views, chosen record.key = some d ∧ hazardViews record records chosen ctx mode = .ok views ∧
      ((SameStrategies d d' ∧
          (overrides.get? record.key.label = none → d.primal.isChunkedMap = true →
            scanAroundWhile (ctx.resolvedBackend jax.defaultBackend) d views = false)) ∨
        (MovedBack d d' ∧ overrides.get? record.key.label = none ∧
          vmapFits record records working ctx budget = .ok true)) := by
  unfold withHazards at h
  split at h
  · exact nomatch h
  · rename_i d hd
    obtain ⟨views, hviews, h⟩ := bind_eq_ok.mp h
    obtain ⟨⟨d₂, warnings⟩, hfold, h⟩ := bind_eq_ok.mp h
    obtain rfl := ok.inj h
    refine ⟨d, views, hd, hviews, ?_⟩
    unfold hazards at hfold
    rw [foldlM_cons] at hfold
    obtain ⟨⟨d₁, warnings₁⟩, hfirst, hfold⟩ := bind_eq_ok.mp hfold
    rw [foldlM_cons] at hfold
    obtain ⟨⟨d₃, warnings₃⟩, hsecond, hfold⟩ := bind_eq_ok.mp hfold
    obtain ⟨rfl, rfl⟩ := Prod.mk.inj (ok.inj hfold)
    -- the second rule only warns
    have hsame : d₃ = d₁ := by
      unfold applyHazard at hsecond
      dsimp only at hsecond
      split at hsecond
      · exact (Prod.mk.inj (ok.inj hsecond)).1.symm
      · split at hsecond
        · exact (Prod.mk.inj (ok.inj hsecond)).1.symm
        · exact (Prod.mk.inj (ok.inj hsecond)).1.symm
    subst hsame
    unfold applyHazard at hfirst
    dsimp only at hfirst
    split at hfirst
    · rename_i hnot
      obtain ⟨rfl, -⟩ := Prod.mk.inj (ok.inj hfirst)
      exact .inl ⟨⟨rfl, rfl, rfl, rfl⟩, fun _ _ => by simpa [Hazard.applies] using hnot⟩
    · split at hfirst
      · rename_i hoverridden
        obtain ⟨rfl, -⟩ := Prod.mk.inj (ok.inj hfirst)
        refine .inl ⟨⟨rfl, rfl, rfl, rfl⟩, fun hnone => ?_⟩
        rw [hnone] at hoverridden
        exact nomatch hoverridden
      · rename_i hoverridden
        have hnone : overrides.get? record.key.label = none := by simpa using hoverridden
        split at hfirst
        · exact nomatch hfirst
        · exact nomatch hfirst
        · rename_i hfits
          split at hfirst
          · rename_i hchunked
            obtain ⟨rfl, -⟩ := Prod.mk.inj (ok.inj hfirst)
            exact .inr ⟨⟨hchunked, rfl, rfl, rfl, rfl⟩, hnone, hfits⟩
          · rename_i hchunked
            obtain ⟨rfl, -⟩ := Prod.mk.inj (ok.inj hfirst)
            exact .inl ⟨⟨rfl, rfl, rfl, rfl⟩, fun _ h => absurd h hchunked⟩

/-- What the hazards make of a decision, with the plan as it stood. -/
def MadeByHazards (jax : Jax) (records : List SiteRecord) (chosen : Decisions) (ctx : Context)
    (budget : Option (MemoryBudget Unit)) (overrides : Overrides) (mode : DiffMode)
    (record : SiteRecord) (d : SiteDecision) : Prop :=
  ∃ working, withHazards jax record chosen ctx budget working overrides records mode = .ok d

theorem mem_primalChain : record ∈ records.filter (isPrimalChain ·.key) ↔
    record ∈ records ∧ isPrimalChain record.key = true := by
  rw [mem_filter]

theorem hazardLoop_spec
    (h : hazardLoop jax chosen ctx budget overrides records mode = .ok (final, working)) :
    FromRecords records (MadeByHazards jax records chosen ctx budget overrides mode) final := by
  let kept := fun (rest : List SiteRecord) (st : Decisions × Decisions) =>
    Filling records rest (MadeByHazards jax records chosen ctx budget overrides mode) st.1 ∧
      ∀ r ∈ rest, isPrimalChain r.key = true
  have hstart : kept (records.filter (isPrimalChain ·.key)) (fun _ => none, chosen) :=
    ⟨Filling.start (fun r hr => (mem_primalChain.mp hr).1)
      fun r hr hprimal => mem_primalChain.mpr ⟨hr, hprimal⟩,
      fun r hr => (mem_primalChain.mp hr).2⟩
  have hend : kept [] (final, working) := by
    refine foldlM_keeps (I := kept) ?_ hstart h
    rintro record rest ⟨final, working⟩ st' ⟨hfilling, hprimal⟩ hstep
    obtain ⟨d, hd, hstep⟩ := bind_eq_ok.mp hstep
    obtain rfl := ok.inj hstep
    exact ⟨hfilling.put (hprimal record mem_cons_self) ⟨working, hd⟩,
      fun r hr => hprimal r (mem_cons_of_mem _ hr)⟩
  exact hend.1.finish

/-! ### Decisions of a plan -/

theorem Lawful.movedBack (h : Lawful record d) (hmoved : MovedBack d d') : Lawful record d' where
  key := hmoved.key.trans h.key
  kind := hmoved.kind.trans h.kind
  unbounded := by
    rw [← h.unbounded, hmoved.primal]
    have hchunked := hmoved.chunked
    refine ⟨(fun h => nomatch h), fun hcarry => ?_⟩
    cases hprimal : d.primal with
    | whileCarry =>
      rw [hprimal] at hchunked
      exact nomatch hchunked
    | _ =>
      rw [hprimal] at hcarry
      exact nomatch hcarry
  map := fun _ => hmoved.primal ▸ rfl
  diff := by
    intro s hs
    rw [hmoved.diff] at hs
    exact some.inj hs ▸ .inl rfl

theorem Lawful.same (h : Lawful record d) (hsame : SameStrategies d d') : Lawful record d' where
  key := hsame.key.trans h.key
  kind := hsame.kind.trans h.kind
  unbounded := by rw [hsame.primal, h.unbounded]
  map := by rw [hsame.primal]; exact h.map
  diff := by rw [hsame.diff]; exact h.diff

section Plan
variable (R : Resolved jax records ctx overrides mode plan)
include R

theorem Resolved.chosen_of_key (hkeys : (records.map (·.key)).Nodup) (hrecord : record ∈ records)
    (h : R.chosen record.key = some d) :
    Lawful record d ∧
      chosenDecision record ctx R.budget R.axisDecisions overrides mode = .ok d := by
  obtain ⟨r, hr, hkey, -, hmade⟩ := (chooseAll_spec R.chosen_eq).sound _ _ h
  obtain rfl := inj_on_of_nodup_map hkeys hr hrecord hkey
  exact ⟨chosenDecision_lawful R.valid hrecord hmade, hmade⟩

theorem Resolved.checked_of_key (hrecord : record ∈ records)
    (h : R.chosen record.key = some d) : checkContext record d.primal ctx = .ok () := by
  obtain ⟨r, -, hkey, hprimal, -⟩ := (chooseAll_spec R.chosen_eq).sound _ _ h
  have hcheck := forM_eq_ok R.checked record (mem_primalChain.mpr ⟨hrecord, hprimal⟩)
  rw [h] at hcheck
  exact hcheck

/-- **The final decision of a primal-chain record**: the chosen one, or that moved back to
`Vmap`. -/
theorem Resolved.final_of_key (hkeys : (records.map (·.key)).Nodup) (hrecord : record ∈ records)
    (h : R.final record.key = some d') :
    ∃ d, R.chosen record.key = some d ∧ Lawful record d' ∧
      checkContext record d.primal ctx = .ok () ∧ (SameStrategies d d' ∨ MovedBack d d') ∧
      ∃ working, withHazards jax record R.chosen ctx R.budget working overrides records mode =
        .ok d' := by
  obtain ⟨r, hr, hkey, -, working, hmade⟩ := (hazardLoop_spec R.final_eq).sound _ _ h
  obtain rfl := inj_on_of_nodup_map hkeys hr hrecord hkey
  obtain ⟨d, views, hchosen, -, hcases⟩ := withHazards_spec hmade
  have hlawful := (R.chosen_of_key hkeys hrecord hchosen).1
  refine ⟨d, hchosen, ?_, R.checked_of_key hrecord hchosen, ?_, working, hmade⟩
  · rcases hcases with ⟨hsame, -⟩ | ⟨hmoved, -⟩
    · exact hlawful.same hsame
    · exact hlawful.movedBack hmoved
  · rcases hcases with ⟨hsame, -⟩ | ⟨hmoved, -⟩
    · exact .inl hsame
    · exact .inr hmoved

theorem Resolved.key_of_decision (hkeys : (records.map (·.key)).Nodup) (hrecord : record ∈ records)
    (h : finalDecision R.final ctx mode record = .ok d) : d.key = record.key := by
  unfold finalDecision at h
  split at h
  · split at h
    · exact nomatch h
    · rename_i hsome
      obtain rfl := ok.inj h
      obtain ⟨_, -, hlawful, -⟩ := R.final_of_key hkeys hrecord hsome
      exact hlawful.key
  · unfold diffVisit at h
    split at h
    · obtain ⟨d₁, hd₁, h⟩ := bind_eq_ok.mp h
      obtain ⟨⟨⟩, -, h⟩ := bind_eq_ok.mp h
      obtain rfl := ok.inj h
      exact (noTwinDecision_lawful hd₁).key
    · obtain rfl := ok.inj h
      rfl

end Plan

/-! ### Plans for export -/

/-- Neither strategy is an unbounded loop, and neither is a static while where that is
forbidden. -/
structure Exportable (ctx : Context) (d : SiteDecision) : Prop where
  bounded : d.primal.isWhileCarry = false ∧ ∀ s ∈ d.diff, s.isWhileCarry = false
  static : ctx.exportFormat ≠ some "stablehlo" →
    d.primal.isStaticWhile = false ∧ ∀ s ∈ d.diff, s.isStaticWhile = false

theorem checkContext_ok (hexport : ctx.target = .exporting) {primal : Strategy}
    (h : checkContext record primal ctx = .ok ()) :
    ¬ (record.kind = .loop ∧ record.length = none) ∧
      (ctx.exportFormat ≠ some "stablehlo" → primal.isStaticWhile = false) := by
  unfold checkContext at h
  split at h
  · exact nomatch h
  · rename_i hloop
    split at h
    · exact nomatch h
    · rename_i hstatic
      refine ⟨fun hcond => hloop ⟨hcond.1, hcond.2, hexport⟩, fun hformat => ?_⟩
      have hforbids : forbidsStaticWhile ctx = true := by simp [forbidsStaticWhile, hexport, hformat]
      simpa [hforbids] using hstatic

theorem Lawful.exportable (hexport : ctx.target = .exporting) (h : Lawful record d)
    (hcheck : checkContext record d.primal ctx = .ok ()) : Exportable ctx d := by
  obtain ⟨hbounded, hstatic⟩ := checkContext_ok hexport hcheck
  have hdiff : ∀ s ∈ d.diff, s.isWhileCarry = false ∧ s.isStaticWhile = false := by
    intro s hs
    rcases h.diff s hs with hmap | hscan
    · cases s with
      | vmap | chunkedMap => exact ⟨rfl, rfl⟩
      | _ => exact nomatch hmap
    · cases s with
      | scan => exact ⟨rfl, rfl⟩
      | _ => exact nomatch hscan
  refine ⟨⟨?_, fun s hs => (hdiff s hs).1⟩, fun hformat => ⟨hstatic hformat, fun s hs => (hdiff s hs).2⟩⟩
  exact Bool.eq_false_iff.mpr fun hcarry => hbounded (h.unbounded.mp hcarry)

theorem checkContext_of_moved (hmoved : MovedBack d d')
    (hcheck : checkContext record d.primal ctx = .ok ()) :
    checkContext record d'.primal ctx = .ok () := by
  unfold checkContext at hcheck ⊢
  split at hcheck
  · exact nomatch hcheck
  · rename_i hloop
    rw [if_neg hloop, hmoved.primal]
    simp [Strategy.isStaticWhile]

/-- **A plan for export is exportable**: no decision of it is an unbounded loop, nor a static
while unless the format is stablehlo; and no record that has its own decision is an unbounded
loop. -/
theorem export_plan_exportable (hkeys : (records.map (·.key)).Nodup)
    (hexport : ctx.target = .exporting)
    (h : resolve jax records ctx overrides mode = .ok plan) :
    (∀ d ∈ plan.decisions, Exportable ctx d) ∧
      ∀ r ∈ records, isPrimalChain r.key = true ∨ canonical r.key ∉ records.map (·.key) →
        ¬ (r.kind = .loop ∧ r.length = none) := by
  obtain ⟨R⟩ := resolve_ok h
  have hfinal : ∀ r ∈ records, ∀ d, R.final r.key = some d →
      Exportable ctx d ∧ ¬ (r.kind = .loop ∧ r.length = none) := by
    intro r hr d hd
    obtain ⟨d₀, -, hlawful, hcheck, hcases, -⟩ := R.final_of_key hkeys hr hd
    refine ⟨hlawful.exportable hexport ?_, (checkContext_ok hexport hcheck).1⟩
    rcases hcases with hsame | hmoved
    · rw [hsame.primal]
      exact hcheck
    · exact checkContext_of_moved hmoved hcheck
  -- a decision is the final one of its key, a copy of its twin's, or that of a site without twin
  have hdecision : ∀ r ∈ records, ∀ d, finalDecision R.final ctx mode r = .ok d →
      Exportable ctx d ∧
        (isPrimalChain r.key = true ∨ canonical r.key ∉ records.map (·.key) →
          ¬ (r.kind = .loop ∧ r.length = none)) := by
    intro r hr d hd
    unfold finalDecision at hd
    split at hd
    · split at hd
      · exact nomatch hd
      · rename_i hsome
        obtain rfl := Except.ok.inj hd
        obtain ⟨hexportable, hbounded⟩ := hfinal r hr _ hsome
        exact ⟨hexportable, fun _ => hbounded⟩
    · rename_i hdiff
      unfold diffVisit at hd
      split at hd
      · obtain ⟨d₁, hd₁, hd⟩ := bind_eq_ok.mp hd
        obtain ⟨⟨⟩, hcheck, hd⟩ := bind_eq_ok.mp hd
        obtain rfl := Except.ok.inj hd
        exact ⟨(noTwinDecision_lawful hd₁).exportable hexport hcheck,
          fun _ => (checkContext_ok hexport hcheck).1⟩
      · rename_i twin htwin
        obtain rfl := Except.ok.inj hd
        obtain ⟨s, hs, hkey, -⟩ := (hazardLoop_spec R.final_eq).sound _ _ htwin
        rw [← hkey] at htwin
        obtain ⟨hexportable, -⟩ := hfinal s hs _ htwin
        refine ⟨⟨hexportable.bounded, hexportable.static⟩, ?_⟩
        rintro (hprimal | habsent)
        · exact absurd hprimal hdiff
        · exact absurd (List.mem_map.mpr ⟨s, hs, hkey⟩) habsent
  refine ⟨fun d hd => ?_, fun r hr => ?_⟩
  · obtain ⟨r, hr, hrd⟩ := exists_of_forall₂ R.decisions.flip hd
    exact (hdecision r hr d hrd).1
  · obtain ⟨d, -, hrd⟩ := exists_of_forall₂ R.decisions hr
    exact (hdecision r hr d hrd).2

end

/-! ### A map around a fixed loop -/

namespace Exported

/-- A context for export to another format than stablehlo. -/
def ctx : Context := { target := .exporting, exportFormat := some "tf" }

def jax : Jax := ⟨"cpu", fun _ _ => none⟩

def outer : SiteKey := .root .primal "outer" 0

/-- A map over eight rows, a loop of three steps for each, and its visit on the diff path. -/
def records : List SiteRecord :=
  [{ key := outer, kind := .map, avals := [[8, 4]], length := none },
    { key := .child outer .primal "inner" 0, kind := .loop, avals := [[4]], length := some 3 },
    { key := .child outer .diff "inner" 0, kind := .loop, avals := [[4]], length := some 3 }]

end Exported

theorem export_plan_exportable_sample :
    ∃ plan, resolve Exported.jax Exported.records Exported.ctx [] {} = .ok plan ∧
      plan.decisions.map SiteDecision.primal = [.vmap, .scan true, .scan true] ∧
      ∀ d ∈ plan.decisions, Exportable Exported.ctx d := by
  have hplan : (resolve Exported.jax Exported.records Exported.ctx [] {}).map
      (fun plan => plan.decisions.map SiteDecision.primal) =
        .ok [.vmap, .scan true, .scan true] := by
    decide
  cases hresolve : resolve Exported.jax Exported.records Exported.ctx [] {} with
  | error e =>
    rw [hresolve] at hplan
    exact nomatch hplan
  | ok plan =>
    rw [hresolve] at hplan
    exact ⟨plan, rfl, Except.ok.inj hplan, (export_plan_exportable (by decide) rfl hresolve).1⟩

end Xtrax.Intent
