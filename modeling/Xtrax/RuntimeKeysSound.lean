import Xtrax.LoopScalingSound
import Xtrax.Results
import Xtrax.RuntimeKeys

/-!
# No runtime key is missed where the carries are covered

Values that are not derived from the inputs are the same in two runs, along the equations
(`envAfter_agrees`) and into the programs they enter (`entered_agrees`).  Only a loop needs more:
what a body hands to its next iteration is the same when the carries that it computes from derived
inputs start derived (`Covered`).
-/

namespace Xtrax.RuntimeKeys

open List Option Dependence

/-! ### What the walk marks -/

section

variable {walk : Jaxpr → List Nat → Option (List Nat)} {e : Eqn Jaxpr} {derived seeds : Nat → Prop}
variable {tainted tainted' : List Nat} {sub : Jaxpr} {v : Nat}

theorem isTainted_of_operand {i : Nat} (h : Operand e derived i)
    (hderived : ∀ v, derived v → v ∈ tainted) :
    ∃ a, e.invars[i]? = some a ∧ isTainted tainted a = true := by
  obtain ⟨v, hv, hd⟩ := h
  exact ⟨.var v, hv, decide_eq_true (hderived v hd)⟩

theorem consumesTainted_of_consumes (h : Consumes e derived)
    (hderived : ∀ v, derived v → v ∈ tainted) : consumesTainted e tainted = true := by
  obtain ⟨i, hi⟩ := h
  obtain ⟨a, ha, htainted⟩ := isTainted_of_operand hi hderived
  exact any_eq_true.mpr ⟨a, mem_of_getElem? ha, htainted⟩

theorem mem_subSeed (h : Seeds e derived sub v) (hderived : ∀ v, derived v → v ∈ tainted) :
    v ∈ subSeed e tainted sub := by
  obtain ⟨i, hv, hpaired⟩ := h
  unfold subSeed
  by_cases hlength : sub.invars.length = e.invars.length
  · rw [if_pos hlength]
    obtain ⟨a, ha, htainted⟩ := isTainted_of_operand (hpaired hlength) hderived
    refine mem_map.mpr ⟨(v, a), mem_filter.mpr ⟨?_, htainted⟩, rfl⟩
    exact mem_of_getElem? (getElem?_zip_eq_some.mpr ⟨hv, ha⟩)
  · rw [if_neg hlength]
    exact mem_of_getElem? hv

theorem subset_deriveSubs {subs : List Jaxpr} (h : deriveSubs walk e subs tainted = some tainted') :
    tainted ⊆ tainted' := by
  induction subs generalizing tainted with
  | nil =>
    obtain rfl := some.inj h
    exact List.Subset.refl _
  | cons sub rest ih =>
    obtain ⟨inner, -, h⟩ := bind_eq_some_iff.mp h
    exact List.Subset.trans (subset_append_right _ _) (ih h)

theorem walked_of_deriveSubs {subs : List Jaxpr}
    (h : deriveSubs walk e subs tainted = some tainted') (hsub : sub ∈ subs)
    (hderived : ∀ v, derived v → v ∈ tainted) :
    ∃ seeded inner, walk sub seeded = some inner ∧ (∀ v, Seeds e derived sub v → v ∈ seeded) ∧
      inner ⊆ tainted' := by
  induction subs generalizing tainted with
  | nil => exact absurd hsub not_mem_nil
  | cons first rest ih =>
    obtain ⟨inner, hinner, hrest⟩ := bind_eq_some_iff.mp h
    rcases mem_cons.mp hsub with rfl | hsub
    · refine ⟨_, inner, hinner, fun v hv => mem_subSeed hv hderived, ?_⟩
      exact List.Subset.trans (subset_append_left _ _) (subset_deriveSubs hrest)
    · exact ih hrest hsub fun v hv => mem_append_right _ (hderived v hv)

theorem subset_deriveEqn (h : deriveEqn walk tainted e = some tainted') : tainted ⊆ tainted' := by
  unfold deriveEqn at h
  by_cases hconsumes : consumesTainted e tainted = true
  · rw [if_pos hconsumes] at h
    obtain ⟨inner, hinner, rfl⟩ := map_eq_some_iff.mp h
    exact List.Subset.trans (subset_deriveSubs hinner) (subset_append_right _ _)
  · rw [if_neg hconsumes] at h
    obtain rfl := some.inj h
    exact List.Subset.refl _

theorem subset_deriveEqns {eqns : List (Eqn Jaxpr)}
    (h : eqns.foldlM (deriveEqn walk) tainted = some tainted') : tainted ⊆ tainted' := by
  induction eqns generalizing tainted with
  | nil =>
    obtain rfl := some.inj h
    exact List.Subset.refl _
  | cons e rest ih =>
    rw [foldlM_cons] at h
    obtain ⟨next, hnext, h⟩ := bind_eq_some_iff.mp h
    exact List.Subset.trans (subset_deriveEqn hnext) (ih h)

theorem deriveEqns_split {before after : List (Eqn Jaxpr)}
    (h : (before ++ e :: after).foldlM (deriveEqn walk) tainted = some tainted') :
    ∃ reached next, before.foldlM (deriveEqn walk) tainted = some reached ∧
      deriveEqn walk reached e = some next ∧ next ⊆ tainted' := by
  rw [foldlM_append] at h
  obtain ⟨reached, hreached, h⟩ := bind_eq_some_iff.mp h
  rw [foldlM_cons] at h
  obtain ⟨next, hnext, h⟩ := bind_eq_some_iff.mp h
  exact ⟨reached, next, hreached, hnext, subset_deriveEqns h⟩

theorem mem_of_derived {eqns : List (Eqn Jaxpr)} (hseeds : ∀ v, seeds v → v ∈ tainted)
    (h : eqns.foldlM (deriveEqn walk) tainted = some tainted') (hv : Derived eqns seeds v) :
    v ∈ tainted' := by
  obtain ⟨a, ha, hflows⟩ := hv
  induction hflows generalizing tainted' with
  | refl => exact subset_deriveEqns h (hseeds _ ha)
  | @step before after e a b c _ hb hc ih =>
    obtain ⟨reached, next, hreached, hnext, hsubset⟩ := deriveEqns_split h
    have hconsumes : consumesTainted e reached = true :=
      any_eq_true.mpr ⟨.var b, hb, decide_eq_true (ih hreached ha)⟩
    unfold deriveEqn at hnext
    rw [if_pos hconsumes] at hnext
    obtain ⟨inner, -, rfl⟩ := map_eq_some_iff.mp hnext
    exact hsubset (mem_append_left _ hc)

theorem walked_of_consumes {before after : List (Eqn Jaxpr)} (hseeds : ∀ v, seeds v → v ∈ tainted)
    (h : (before ++ e :: after).foldlM (deriveEqn walk) tainted = some tainted')
    (hconsumes : Consumes e (Derived before seeds)) (hsub : sub ∈ e.subs) :
    ∃ seeded inner, walk sub seeded = some inner ∧
      (∀ v, Seeds e (Derived before seeds) sub v → v ∈ seeded) ∧ inner ⊆ tainted' := by
  obtain ⟨reached, next, hreached, hnext, hsubset⟩ := deriveEqns_split h
  have hderived : ∀ v, Derived before seeds v → v ∈ reached :=
    fun v hv => mem_of_derived hseeds hreached hv
  unfold deriveEqn at hnext
  rw [if_pos (consumesTainted_of_consumes hconsumes hderived)] at hnext
  obtain ⟨after', hafter, rfl⟩ := map_eq_some_iff.mp hnext
  obtain ⟨seeded, inner, hwalk, hin, hinner⟩ := walked_of_deriveSubs hafter hsub hderived
  refine ⟨seeded, inner, hwalk, hin, List.Subset.trans hinner ?_⟩
  exact List.Subset.trans (subset_append_right _ _) hsubset

end

theorem inputDerivedVarIds_isSome {depth : Nat} {j : Jaxpr} (h : sizeOf j ≤ depth)
    (seeded : List Nat) : ∃ tainted, inputDerivedVarIds depth j seeded = some tainted := by
  induction depth generalizing j seeded with
  | zero =>
    cases j
    rw [Jaxpr.mk.sizeOf_spec] at h
    omega
  | succ n ih =>
    have hsubs : ∀ e ∈ j.eqns, ∀ subs, (∀ sub ∈ subs, sub ∈ e.subs) → ∀ tainted,
        ∃ tainted', deriveSubs (inputDerivedVarIds n) e subs tainted = some tainted' := by
      intro e he subs
      induction subs with
      | nil => exact fun _ tainted => ⟨tainted, rfl⟩
      | cons sub rest ihs =>
        intro hmem tainted
        have hlt := LoopScaling.sizeOf_sub he (hmem sub (mem_cons_self ..))
        obtain ⟨inner, hinner⟩ := ih (j := sub) (by omega) (subSeed e tainted sub)
        obtain ⟨tainted', htainted'⟩ :=
          ihs (fun sub hsub => hmem sub (mem_cons_of_mem _ hsub)) (inner ++ tainted)
        exact ⟨tainted', by rw [deriveSubs, hinner]; exact htainted'⟩
    have heqns : ∀ eqns : List (Eqn Jaxpr), (∀ e ∈ eqns, e ∈ j.eqns) → ∀ tainted,
        ∃ tainted', eqns.foldlM (deriveEqn (inputDerivedVarIds n)) tainted = some tainted' := by
      intro eqns
      induction eqns with
      | nil => exact fun _ tainted => ⟨tainted, rfl⟩
      | cons e rest ihe =>
        intro hmem tainted
        obtain ⟨next, hnext⟩ : ∃ next, deriveEqn (inputDerivedVarIds n) tainted e = some next := by
          unfold deriveEqn
          by_cases hconsumes : consumesTainted e tainted = true
          · obtain ⟨inner, hinner⟩ :=
              hsubs e (hmem e (mem_cons_self ..)) e.subs (fun _ h => h) tainted
            exact ⟨e.outvars ++ inner, by rw [if_pos hconsumes, hinner]; rfl⟩
          · exact ⟨tainted, if_neg hconsumes⟩
        obtain ⟨tainted', htainted'⟩ := ihe (fun e he => hmem e (mem_cons_of_mem _ he)) next
        exact ⟨tainted', by rw [foldlM_cons, hnext]; exact htainted'⟩
    exact heqns j.eqns (fun _ h => h) seeded

/-! ### Values that agree -/

section

variable {V : Type}

/-- Two lists of values are the same but at the positions in `P`. -/
structure AgreeOff (P : Nat → Prop) (xs ys : List V) : Prop where
  length : xs.length = ys.length
  get : ∀ i : Nat, ¬P i → xs[i]? = ys[i]?

namespace AgreeOff

variable {P Q : Nat → Prop} {xs ys xs' ys' : List V}

theorem take (h : AgreeOff P xs ys) (n : Nat) : AgreeOff P (xs.take n) (ys.take n) where
  length := by rw [length_take, length_take, h.length]
  get i hi := by
    by_cases hn : i < n
    · rw [getElem?_take_of_lt hn, getElem?_take_of_lt hn, h.get i hi]
    · rw [getElem?_take_eq_none (by omega), getElem?_take_eq_none (by omega)]

theorem drop (h : AgreeOff P xs ys) (n : Nat) :
    AgreeOff (fun i => P (n + i)) (xs.drop n) (ys.drop n) where
  length := by rw [length_drop, length_drop, h.length]
  get i hi := by rw [getElem?_drop, getElem?_drop, h.get _ hi]

theorem append (h : AgreeOff P xs ys) (h' : AgreeOff Q xs' ys')
    (hQ : ∀ i, i < xs'.length → Q i → P (xs.length + i)) : AgreeOff P (xs ++ xs') (ys ++ ys') where
  length := by rw [length_append, length_append, h.length, h'.length]
  get i hi := by
    by_cases hlt : i < xs.length
    · rw [getElem?_append_left hlt, getElem?_append_left (h.length ▸ hlt), h.get i hi]
    · have hshift : xs.length + (i - xs.length) = i := by omega
      rw [getElem?_append_right (by omega),
        getElem?_append_right (by rw [← h.length]; omega), ← h.length]
      by_cases hin : i - xs.length < xs'.length
      · exact h'.get _ fun hq => hi (hshift ▸ hQ _ hin hq)
      · rw [getElem?_eq_none (by omega), getElem?_eq_none (by rw [← h'.length]; omega)]

theorem map (h : AgreeOff P xs ys) (f : V → V) : AgreeOff P (xs.map f) (ys.map f) where
  length := by rw [length_map, length_map, h.length]
  get i hi := by rw [getElem?_map, getElem?_map, h.get i hi]

theorem mono (h : AgreeOff P xs ys) (hPQ : ∀ i, i < xs.length → P i → Q i) : AgreeOff Q xs ys where
  length := h.length
  get i hi := by
    by_cases hin : i < xs.length
    · exact h.get i fun hp => hi (hPQ i hin hp)
    · rw [getElem?_eq_none (by omega), getElem?_eq_none (by rw [← h.length]; omega)]

theorem eq_of_none (h : AgreeOff P xs ys) (hP : ∀ i, ¬P i) : xs = ys :=
  ext_getElem? fun i => h.get i (hP i)

end AgreeOff

/-- Two environments are the same but for the variables in `D`. -/
def EnvAgreeOff (D : Nat → Prop) (env env' : Nat → Option V) : Prop :=
  ∀ v, ¬D v → env v = env' v

/-- The values for the inputs that are not in `S` are the same. -/
def InputsAgree (S : Nat → Prop) (vs : List Nat) (xs ys : List V) : Prop :=
  ∀ (i v : Nat), vs[i]? = some v → ¬S v → xs[i]? = ys[i]?

variable {D S : Nat → Prop} {env env' r r' : Nat → Option V} {vs : List Nat} {xs ys : List V}

theorem length_of_assign (h : assign vs (xs.map some) env = some r) : vs.length = xs.length := by
  induction vs generalizing xs env with
  | nil =>
    cases xs with
    | nil => rfl
    | cons _ _ => exact nomatch h
  | cons v vs ih =>
    cases xs with
    | nil => exact nomatch h
    | cons x xs => exact congrArg Nat.succ (ih h)

theorem EnvAgreeOff.assign (henv : EnvAgreeOff D env env') (hvals : InputsAgree D vs xs ys)
    (hr : assign vs (xs.map some) env = some r) (hr' : assign vs (ys.map some) env' = some r') :
    EnvAgreeOff D r r' := by
  induction vs generalizing xs ys env env' with
  | nil =>
    cases xs with
    | nil =>
      cases ys with
      | nil =>
        obtain rfl := some.inj hr
        obtain rfl := some.inj hr'
        exact henv
      | cons _ _ => exact nomatch hr'
    | cons _ _ => exact nomatch hr
  | cons v vs ih =>
    cases xs with
    | nil => exact nomatch hr
    | cons x xs =>
      cases ys with
      | nil => exact nomatch hr'
      | cons y ys =>
        refine ih (fun u hu => ?_) (fun i u hi hu => hvals (i + 1) u hi hu) hr hr'
        by_cases heq : u = v
        · subst heq
          have hxy : x = y := some.inj (hvals 0 u rfl hu)
          rw [Function.update_self, Function.update_self, hxy]
        · rw [Function.update_of_ne heq, Function.update_of_ne heq, henv u hu]

theorem readAll_get {I : Interp V} {atoms : List Atom} (h : readAll I env atoms = some xs) :
    xs.length = atoms.length ∧ ∀ (i : Nat) a, atoms[i]? = some a → xs[i]? = readAtom I env a := by
  induction atoms generalizing xs with
  | nil =>
    obtain rfl := some.inj h
    exact ⟨rfl, fun i a hi => (nomatch hi)⟩
  | cons a atoms ih =>
    obtain ⟨x, hx, h⟩ := bind_eq_some_iff.mp h
    obtain ⟨rest, hrest, h⟩ := bind_eq_some_iff.mp h
    obtain rfl := some.inj h
    obtain ⟨hlength, hget⟩ := ih hrest
    refine ⟨congrArg Nat.succ hlength, fun i b hi => ?_⟩
    cases i with
    | zero =>
      obtain rfl := some.inj hi
      exact hx.symm
    | succ i => exact hget i b hi

theorem readAll_agrees {I : Interp V} {atoms : List Atom} (henv : EnvAgreeOff D env env')
    (h : readAll I env atoms = some xs) (h' : readAll I env' atoms = some ys) :
    AgreeOff (fun i => ∃ v, atoms[i]? = some (.var v) ∧ D v) xs ys where
  length := (readAll_get h).1.trans (readAll_get h').1.symm
  get i hi := by
    cases ha : atoms[i]? with
    | none =>
      have hle := getElem?_eq_none_iff.mp ha
      rw [getElem?_eq_none (by rw [(readAll_get h).1]; exact hle),
        getElem?_eq_none (by rw [(readAll_get h').1]; exact hle)]
    | some a =>
      rw [(readAll_get h).2 i a ha, (readAll_get h').2 i a ha]
      cases a with
      | literal l => rfl
      | var v => exact henv v fun hv => hi ⟨v, ha, hv⟩

end

/-! ### Along the equations -/

section

variable {V : Type} {role : String → Role} {I : Interp V} {n : Nat} {S : Nat → Prop}
variable {env env' r r' : Nat → Option V} {before rest : List (Eqn Jaxpr)} {e : Eqn Jaxpr}

theorem FlowsTo.append {eqns : List (Eqn Jaxpr)} {a b : Nat} (h : FlowsTo eqns a b)
    (more : List (Eqn Jaxpr)) : FlowsTo (eqns ++ more) a b := by
  cases h with
  | refl => exact .refl _ _
  | step hflows hb hc =>
    rw [append_assoc, cons_append]
    exact .step hflows hb hc

theorem Derived.append {v : Nat} (h : Derived before S v) (more : List (Eqn Jaxpr)) :
    Derived (before ++ more) S v := by
  obtain ⟨a, ha, hflows⟩ := h
  exact ⟨a, ha, hflows.append more⟩

theorem derived_of_consumes (h : Consumes e (Derived before S)) {v : Nat} (hv : v ∈ e.outvars) :
    Derived (before ++ [e]) S v := by
  obtain ⟨i, u, hu, a, ha, hflows⟩ := h
  exact ⟨a, ha, .step hflows (mem_of_getElem? hu) hv⟩

theorem ops_eq (henv : EnvAgreeOff (Derived before S) env env')
    (hnone : ¬Consumes e (Derived before S)) {ops ops' : List V}
    (hops : readAll I env e.invars = some ops) (hops' : readAll I env' e.invars = some ops') :
    ops = ops' :=
  (readAll_agrees henv hops hops').eq_of_none fun i hi => hnone ⟨i, hi⟩

theorem evalEqns_agrees (henv : EnvAgreeOff (Derived before S) env env')
    (hr : evalEqns role I (evalJaxpr role I n) n rest env = some r)
    (hr' : evalEqns role I (evalJaxpr role I n) n rest env' = some r') :
    EnvAgreeOff (Derived (before ++ rest) S) r r' := by
  induction rest generalizing before env env' with
  | nil =>
    obtain rfl := some.inj hr
    obtain rfl := some.inj hr'
    rw [append_nil]
    exact henv
  | cons e rest ih =>
    obtain ⟨ops, hops, hr⟩ := bind_eq_some_iff.mp hr
    obtain ⟨outs, houts, hr⟩ := bind_eq_some_iff.mp hr
    obtain ⟨next, hnext, hr⟩ := bind_eq_some_iff.mp hr
    obtain ⟨ops', hops', hr'⟩ := bind_eq_some_iff.mp hr'
    obtain ⟨outs', houts', hr'⟩ := bind_eq_some_iff.mp hr'
    obtain ⟨next', hnext', hr'⟩ := bind_eq_some_iff.mp hr'
    have hstep : EnvAgreeOff (Derived (before ++ [e]) S) next next' := by
      have hmono : EnvAgreeOff (Derived (before ++ [e]) S) env env' :=
        fun v hv => henv v fun hd => hv (hd.append [e])
      refine hmono.assign (fun i v hi hv => ?_) hnext hnext'
      by_cases hconsumes : Consumes e (Derived before S)
      · exact absurd (derived_of_consumes hconsumes (mem_of_getElem? hi)) hv
      · obtain rfl := ops_eq henv hconsumes hops hops'
        rw [some.inj (houts.symm.trans houts')]
    have hall := ih hstep hr hr'
    rw [append_assoc, singleton_append] at hall
    exact hall

theorem envAfter_agrees {j : Jaxpr} {args args' : List V} {eqns : List (Eqn Jaxpr)}
    (hargs : InputsAgree S j.invars args args')
    (hr : envAfter role I n j args eqns = some r) (hr' : envAfter role I n j args' eqns = some r') :
    EnvAgreeOff (Derived eqns S) r r' := by
  obtain ⟨start, hstart, hr⟩ := bind_eq_some_iff.mp hr
  obtain ⟨start', hstart', hr'⟩ := bind_eq_some_iff.mp hr'
  have hfirst : EnvAgreeOff S start start' :=
    EnvAgreeOff.assign (fun _ _ => rfl) hargs hstart hstart'
  have hbefore : EnvAgreeOff (Derived [] S) start start' :=
    fun v hv => hfirst v fun hs => hv ⟨v, hs, .refl _ _⟩
  exact evalEqns_agrees hbefore hr hr'

theorem evalJaxpr_agrees {j : Jaxpr} {args args' outs outs' : List V}
    (hargs : InputsAgree S j.invars args args')
    (houts : evalJaxpr role I n j args = some outs)
    (houts' : evalJaxpr role I n j args' = some outs') :
    AgreeOff (fun i => ∃ o, j.outvars[i]? = some (.var o) ∧ Derived j.eqns S o) outs outs' := by
  cases n with
  | zero => exact nomatch houts
  | succ n =>
    obtain ⟨start, hstart, houts⟩ := bind_eq_some_iff.mp houts
    obtain ⟨env, henv, houts⟩ := bind_eq_some_iff.mp houts
    obtain ⟨start', hstart', houts'⟩ := bind_eq_some_iff.mp houts'
    obtain ⟨env', henv', houts'⟩ := bind_eq_some_iff.mp houts'
    have hr : envAfter role I n j args j.eqns = some env :=
      bind_eq_some_iff.mpr ⟨start, hstart, henv⟩
    have hr' : envAfter role I n j args' j.eqns = some env' :=
      bind_eq_some_iff.mpr ⟨start', hstart', henv'⟩
    exact readAll_agrees (envAfter_agrees hargs hr hr') houts houts'

end

/-! ### Into the programs of an equation -/

section

variable {V : Type} {role : String → Role} {I : Interp V} {n : Nat} {e : Eqn Jaxpr}
variable {derived : Nat → Prop} {loop : Loop} {sub sub' : Jaxpr}
variable {ops ops' args args' outs outs' carry carry' : List V} {part : Part} {k : Nat}

theorem body_agrees (hstart : ∀ i o, i < loop.carries → loop.body.outvars[i]? = some (.var o) →
      Derived loop.body.eqns (loop.Starts e derived) o →
      Operand e derived (loop.skip + loop.consts + i))
    (hargs : AgreeOff (fun i => Operand e derived (loop.skip + i)) args args')
    (houts : evalJaxpr role I n loop.body args = some outs)
    (houts' : evalJaxpr role I n loop.body args' = some outs') {m : Nat} (hm : m ≤ loop.carries) :
    AgreeOff (fun i => Operand e derived (loop.skip + loop.consts + i))
      (outs.take m) (outs'.take m) := by
  have hinputs : InputsAgree (loop.Starts e derived) loop.body.invars args args' :=
    fun i v hi hv => hargs.get i fun hoperand => hv ⟨i, hi, hoperand⟩
  refine ((evalJaxpr_agrees hinputs houts houts').take m).mono fun i hi hderived => ?_
  obtain ⟨o, ho, hderived⟩ := hderived
  rw [length_take] at hi
  exact hstart i o (by omega) ho hderived

theorem scanArgs_agrees (loop : Loop) (hskip : loop.skip = 0) {consts consts' xs xs' : List V} {ts : List Nat}
    (hstart : 2 ≤ ts.length → ∀ i o, i < loop.carries → loop.body.outvars[i]? = some (.var o) →
      Derived loop.body.eqns (loop.Starts e derived) o →
      Operand e derived (loop.skip + loop.consts + i))
    (hconsts : AgreeOff (Operand e derived) consts consts')
    (hlength : consts.length = loop.consts)
    (hcarry : AgreeOff (fun i => Operand e derived (loop.consts + i)) carry carry')
    (hcarries : carry.length = loop.carries)
    (hxs : AgreeOff (fun i => Operand e derived (loop.consts + loop.carries + i)) xs xs')
    (h : scanArgs I (evalJaxpr role I n loop.body) consts xs ts carry k = some args)
    (h' : scanArgs I (evalJaxpr role I n loop.body) consts' xs' ts carry' k = some args') :
    AgreeOff (Operand e derived) args args' := by
  have happ : ∀ t, AgreeOff (Operand e derived) (consts ++ carry ++ xs.map fun x => I.slice x t)
      (consts' ++ carry' ++ xs'.map fun x => I.slice x t) := by
    intro t
    refine (hconsts.append hcarry fun i _ hi => ?_).append (hxs.map _) fun i _ hi => ?_
    · rw [hlength]
      exact hi
    · rw [length_append, hlength, hcarries]
      exact hi
  induction k generalizing ts carry carry' with
  | zero =>
    cases ts with
    | nil => exact nomatch h
    | cons t ts =>
      obtain rfl := some.inj h
      obtain rfl := some.inj h'
      exact happ t
  | succ k ih =>
    cases ts with
    | nil => exact nomatch h
    | cons t ts =>
      obtain ⟨outs, houts, h⟩ := bind_eq_some_iff.mp h
      obtain ⟨outs', houts', h'⟩ := bind_eq_some_iff.mp h'
      by_cases hle : carry.length ≤ outs.length
      · by_cases hle' : carry'.length ≤ outs'.length
        · rw [if_pos hle] at h
          rw [if_pos hle'] at h'
          have hmore : 2 ≤ (t :: ts).length := by
            cases ts with
            | nil => cases k <;> exact nomatch h
            | cons _ _ => exact Nat.le_add_left _ _
          have hargs : AgreeOff (fun i => Operand e derived (loop.skip + i))
              (consts ++ carry ++ xs.map fun x => I.slice x t)
              (consts' ++ carry' ++ xs'.map fun x => I.slice x t) := by
            simpa only [hskip, Nat.zero_add] using happ t
          have hnext := body_agrees (hstart hmore) hargs houts houts' hcarries.le
          rw [hskip, Nat.zero_add] at hnext
          rw [← hcarry.length] at h'
          have hcount : (outs.take carry.length).length = loop.carries := by
            rw [length_take]
            omega
          refine ih (fun hts => hstart hmore) hnext hcount h h' fun t' => ?_
          refine (hconsts.append hnext fun i _ hi => ?_).append (hxs.map _) fun i _ hi => ?_
          · rw [hlength]
            exact hi
          · rw [length_append, hlength, hcount]
            exact hi
        · rw [if_neg hle'] at h'
          exact nomatch h'
      · rw [if_neg hle] at h
        exact nomatch h

theorem whileCarry_succ {cond body : List V → Option (List V)} {condConsts bodyConsts : List V}
    {final : List V}
    (h : whileCarry I cond body condConsts bodyConsts (k + 1) carry = some final) :
    ∃ next, body (bodyConsts ++ carry) = some next ∧ next.length = carry.length ∧
      whileCarry I cond body condConsts bodyConsts k next = some final := by
  obtain ⟨decision, -, h⟩ := bind_eq_some_iff.mp h
  obtain ⟨first, -, h⟩ := bind_eq_some_iff.mp h
  by_cases htruth : I.truth first = true
  · rw [if_pos htruth] at h
    obtain ⟨next, hnext, h⟩ := bind_eq_some_iff.mp h
    by_cases hsame : next.length = carry.length
    · rw [if_pos hsame] at h
      exact ⟨next, hnext, hsame, h⟩
    · rw [if_neg hsame] at h
      exact nomatch h
  · rw [if_neg htruth] at h
    exact nomatch h

theorem whileCarry_agrees (loop : Loop) {cond : Jaxpr} {condConsts condConsts' bodyConsts bodyConsts' : List V}
    (hstart : ∀ i o, i < loop.carries → loop.body.outvars[i]? = some (.var o) →
      Derived loop.body.eqns (loop.Starts e derived) o →
      Operand e derived (loop.skip + loop.consts + i))
    (hconsts : AgreeOff (fun i => Operand e derived (loop.skip + i)) bodyConsts bodyConsts')
    (hlength : bodyConsts.length = loop.consts)
    (hcarry : AgreeOff (fun i => Operand e derived (loop.skip + loop.consts + i)) carry carry')
    (hcarries : carry.length = loop.carries) {final final' : List V}
    (h : whileCarry I (evalJaxpr role I n cond) (evalJaxpr role I n loop.body) condConsts
      bodyConsts k carry = some final)
    (h' : whileCarry I (evalJaxpr role I n cond) (evalJaxpr role I n loop.body) condConsts'
      bodyConsts' k carry' = some final') :
    AgreeOff (fun i => Operand e derived (loop.skip + loop.consts + i)) final final' ∧
      final.length = loop.carries := by
  induction k generalizing carry carry' with
  | zero =>
    obtain rfl := some.inj h
    obtain rfl := some.inj h'
    exact ⟨hcarry, hcarries⟩
  | succ k ih =>
    obtain ⟨next, hnext, hsame, h⟩ := whileCarry_succ h
    obtain ⟨next', hnext', hsame', h'⟩ := whileCarry_succ h'
    have hargs : AgreeOff (fun i => Operand e derived (loop.skip + i))
        (bodyConsts ++ carry) (bodyConsts' ++ carry') := by
      refine hconsts.append hcarry fun i _ hi => ?_
      rw [hlength, ← Nat.add_assoc]
      exact hi
    have hstep := body_agrees hstart hargs hnext hnext' hcarries.le
    rw [← hsame, take_length, hsame, hcarry.length, ← hsame', take_length] at hstep
    exact ih hstep (hsame.trans hcarries) h h'

theorem enteredScan_spec {eval : Jaxpr → List V → Option (List V)}
    (h : enteredScan I eval e ops part k = some (sub, args)) :
    ∃ nConsts nCarry length, e.scanCounts = some (nConsts, nCarry) ∧
      e.body "jaxpr" = some sub ∧ e.num "length" = some length ∧ nConsts + nCarry ≤ ops.length ∧
      scanArgs I (eval sub) (ops.take nConsts) (ops.drop (nConsts + nCarry))
        (if e.num "reverse" = some 1 then (range length).reverse else range length)
        ((ops.drop nConsts).take nCarry) k = some args := by
  cases part with
  | condition => exact nomatch h
  | branch i => exact nomatch h
  | body =>
    obtain ⟨⟨nConsts, nCarry⟩, hcounts, h⟩ := bind_eq_some_iff.mp h
    obtain ⟨body, hbody, h⟩ := bind_eq_some_iff.mp h
    obtain ⟨length, hlength, h⟩ := bind_eq_some_iff.mp h
    by_cases hle : nConsts + nCarry ≤ ops.length
    · simp only [if_pos hle] at h
      obtain ⟨found, hfound, h⟩ := bind_eq_some_iff.mp h
      cases h
      exact ⟨nConsts, nCarry, length, hcounts, hbody, hlength, hle, hfound⟩
    · simp only [if_neg hle] at h
      exact nomatch h

theorem enteredWhile_spec {eval : Jaxpr → List V → Option (List V)}
    (h : enteredWhile I eval e ops part k = some (sub, args)) :
    ∃ nCond nBody body cond carry, e.num "cond_nconsts" = some nCond ∧
      e.num "body_nconsts" = some nBody ∧ e.body "body_jaxpr" = some body ∧
      e.body "cond_jaxpr" = some cond ∧ nCond + nBody ≤ ops.length ∧
      whileCarry I (eval cond) (eval body) (ops.take nCond) ((ops.drop nCond).take nBody) k
        (ops.drop (nCond + nBody)) = some carry ∧
      enteredAfter I eval cond body (ops.take nCond) ((ops.drop nCond).take nBody) carry part =
        some (sub, args) := by
  obtain ⟨nCond, hcond, h⟩ := bind_eq_some_iff.mp h
  obtain ⟨nBody, hbody, h⟩ := bind_eq_some_iff.mp h
  obtain ⟨body, hb, h⟩ := bind_eq_some_iff.mp h
  obtain ⟨cond, hc, h⟩ := bind_eq_some_iff.mp h
  by_cases hle : nCond + nBody ≤ ops.length
  · rw [if_pos hle] at h
    obtain ⟨carry, hcarry, h⟩ := bind_eq_some_iff.mp h
    exact ⟨nCond, nBody, body, cond, carry, hcond, hbody, hb, hc, hle, hcarry, h⟩
  · rw [if_neg hle] at h
    exact nomatch h

theorem enteredAfter_spec {eval : Jaxpr → List V → Option (List V)} {cond body : Jaxpr}
    {condConsts bodyConsts : List V}
    (h : enteredAfter I eval cond body condConsts bodyConsts carry part = some (sub, args)) :
    part = .condition ∧ sub = cond ∧ args = condConsts ++ carry ∨
      part = .body ∧ sub = body ∧ args = bodyConsts ++ carry := by
  cases part with
  | condition =>
    cases h
    exact .inl ⟨rfl, rfl, rfl⟩
  | branch i => exact nomatch h
  | body =>
    obtain ⟨decision, -, h⟩ := bind_eq_some_iff.mp h
    obtain ⟨first, -, h⟩ := bind_eq_some_iff.mp h
    by_cases htruth : I.truth first = true
    · rw [if_pos htruth] at h
      cases h
      exact .inr ⟨rfl, rfl, rfl⟩
    · rw [if_neg htruth] at h
      exact nomatch h

/-- Arguments agree on the inputs that are no seeds, once they do where inputs are paired. -/
theorem inputsAgree_of_paired (h : sub.invars.length = e.invars.length →
    AgreeOff (Operand e derived) args args') :
    InputsAgree (Seeds e derived sub) sub.invars args args' := by
  intro i v hi hv
  by_cases hpaired : sub.invars.length = e.invars.length
  · exact (h hpaired).get i fun hoperand => hv ⟨i, hi, fun _ => hoperand⟩
  · exact absurd ⟨i, hi, fun hlength => absurd hlength hpaired⟩ hv

theorem enteredScan_agrees (hprimitive : e.primitive = "scan") (hcarries : CarriesStart e derived)
    (hops : AgreeOff (Operand e derived) ops ops')
    (h : enteredScan I (evalJaxpr role I n) e ops part k = some (sub, args))
    (h' : enteredScan I (evalJaxpr role I n) e ops' part k = some (sub', args')) :
    sub = sub' ∧ sub ∈ e.subs ∧ InputsAgree (Seeds e derived sub) sub.invars args args' := by
  obtain ⟨nConsts, nCarry, length, hcounts, hbody, hlength, hle, hargs⟩ := enteredScan_spec h
  obtain ⟨nConsts', nCarry', length', hcounts', hbody', hlength', -, hargs'⟩ := enteredScan_spec h'
  obtain ⟨rfl, rfl⟩ := Prod.mk.inj (some.inj (hcounts.symm.trans hcounts'))
  obtain rfl := some.inj (hbody.symm.trans hbody')
  obtain rfl := some.inj (hlength.symm.trans hlength')
  refine ⟨rfl, Eqn.mem_subs_of_body hbody, inputsAgree_of_paired fun hpaired => ?_⟩
  let loop : Loop := ⟨sub, 0, nConsts, nCarry⟩
  have hround : ∀ ts : List Nat, ts = (if e.num "reverse" = some 1 then
      (range length).reverse else range length) → ts.length = length := by
    rintro ts rfl
    split_ifs <;> simp
  refine scanArgs_agrees loop rfl (fun hts => ?_) (hops.take nConsts)
    (by rw [length_take]; exact Nat.min_eq_left (by omega)) ((hops.drop nConsts).take nCarry)
    (by rw [length_take, length_drop]; exact Nat.min_eq_left (by omega))
    (hops.drop (nConsts + nCarry)) hargs hargs'
  rw [hround _ rfl] at hts
  refine hcarries loop ?_
  unfold pairedLoop
  rw [if_pos hprimitive, hcounts, hbody, hlength]
  exact if_pos ⟨hts, hpaired⟩

theorem enteredWhile_agrees (hprimitive : e.primitive = "while")
    (hcarries : CarriesStart e derived) (hops : AgreeOff (Operand e derived) ops ops')
    (hcount : ops.length = e.invars.length)
    (h : enteredWhile I (evalJaxpr role I n) e ops part k = some (sub, args))
    (h' : enteredWhile I (evalJaxpr role I n) e ops' part k = some (sub', args'))
    (hlength : args.length = sub.invars.length) :
    sub = sub' ∧ sub ∈ e.subs ∧ InputsAgree (Seeds e derived sub) sub.invars args args' := by
  obtain ⟨nCond, nBody, body, cond, carry, hcond, hbody, hb, hc, hle, hcarry, hargs⟩ :=
    enteredWhile_spec h
  obtain ⟨nCond', nBody', body', cond', carry', hcond', hbody', hb', hc', -, hcarry', hargs'⟩ :=
    enteredWhile_spec h'
  obtain rfl := some.inj (hcond.symm.trans hcond')
  obtain rfl := some.inj (hbody.symm.trans hbody')
  obtain rfl := some.inj (hb.symm.trans hb')
  obtain rfl := some.inj (hc.symm.trans hc')
  let loop : Loop := ⟨body, nCond, nBody, e.invars.length - (nCond + nBody)⟩
  have hfinal : body.invars.length = e.invars.length ∨ cond.invars.length = e.invars.length →
      AgreeOff (fun i => Operand e derived (nCond + nBody + i)) carry carry' ∧
        carry.length = e.invars.length - (nCond + nBody) := by
    intro hpaired
    have hloop : pairedLoop e = some loop := by
      unfold pairedLoop
      rw [if_neg (by rw [hprimitive]; decide), if_pos hprimitive, hcond, hbody, hb, hc]
      exact if_pos hpaired
    exact whileCarry_agrees loop (hcarries loop hloop) ((hops.drop nCond).take nBody)
      (by rw [length_take, length_drop]; exact Nat.min_eq_left (by omega))
      (hops.drop (nCond + nBody)) (by rw [length_drop, hcount]) hcarry hcarry'
  rcases enteredAfter_spec hargs with ⟨rfl, rfl, rfl⟩ | ⟨rfl, rfl, rfl⟩
  · rcases enteredAfter_spec hargs' with ⟨-, rfl, rfl⟩ | ⟨hpart, -, -⟩
    · refine ⟨rfl, Eqn.mem_subs_of_body hc, inputsAgree_of_paired fun hpaired => ?_⟩
      obtain ⟨hagrees, hcarryLength⟩ := hfinal (.inr hpaired)
      refine (hops.take nCond).append hagrees fun i hi hoperand => ?_
      rw [length_append, length_take, hpaired] at hlength
      have hnone : nBody = 0 := by omega
      rw [length_take, Nat.min_eq_left (by omega)]
      rw [hnone, Nat.add_zero] at hoperand
      exact hoperand
    · exact nomatch hpart
  · rcases enteredAfter_spec hargs' with ⟨hpart, -, -⟩ | ⟨-, rfl, rfl⟩
    · exact nomatch hpart
    · refine ⟨rfl, Eqn.mem_subs_of_body hb, inputsAgree_of_paired fun hpaired => ?_⟩
      obtain ⟨hagrees, hcarryLength⟩ := hfinal (.inl hpaired)
      have hall : AgreeOff (fun i => Operand e derived (nCond + i))
          ((ops.drop nCond).take nBody ++ carry) ((ops'.drop nCond).take nBody ++ carry') := by
        refine ((hops.drop nCond).take nBody).append hagrees fun i hi hoperand => ?_
        rw [length_take, length_drop, Nat.min_eq_left (by omega), ← Nat.add_assoc]
        exact hoperand
      refine hall.mono fun i hi hoperand => ?_
      rw [length_append, length_take, length_drop, hpaired] at hlength
      have hnone : nCond = 0 := by omega
      rw [hnone, Nat.zero_add] at hoperand
      exact hoperand

theorem enteredCond_spec {branches : List Jaxpr}
    (h : enteredCond I branches ops part = some (sub, args)) :
    ∃ p i, ops = p :: args ∧ part = .branch i ∧ branches[i]? = some sub ∧
      sub.invars.length = args.length := by
  cases ops with
  | nil => exact nomatch h
  | cons p rest =>
    cases part with
    | body => exact nomatch h
    | condition => exact nomatch h
    | branch i =>
      obtain ⟨branch, hbranch, h⟩ := bind_eq_some_iff.mp h
      by_cases hright : i = min (I.branch p) (branches.length - 1) ∧
          ∀ b ∈ branches, b.invars.length = rest.length
      · rw [if_pos hright] at h
        cases h
        rw [← hright.1] at hbranch
        exact ⟨p, i, rfl, rfl, hbranch, hright.2 _ (mem_of_getElem? hbranch)⟩
      · rw [if_neg hright] at h
        exact nomatch h

theorem enteredCond_agrees (hcount : ops.length = e.invars.length)
    (h : enteredCond I e.subs ops part = some (sub, args))
    (h' : enteredCond I e.subs ops' part = some (sub', args')) :
    sub = sub' ∧ sub ∈ e.subs ∧ InputsAgree (Seeds e derived sub) sub.invars args args' := by
  obtain ⟨p, i, rfl, rfl, hbranch, hlength⟩ := enteredCond_spec h
  obtain ⟨p', i', rfl, hpart, hbranch', -⟩ := enteredCond_spec h'
  obtain rfl := Part.branch.inj hpart
  obtain rfl := some.inj (hbranch.symm.trans hbranch')
  refine ⟨rfl, mem_of_getElem? hbranch, inputsAgree_of_paired fun hpaired => ?_⟩
  -- a branch does not take the predicate
  rw [length_cons] at hcount
  omega

theorem calleeArgs_agrees (hops : AgreeOff (Operand e derived) ops ops')
    (hcount : ops.length = e.invars.length) :
    InputsAgree (Seeds e derived sub) sub.invars (calleeArgs I sub ops) (calleeArgs I sub ops') := by
  refine inputsAgree_of_paired fun hpaired => ?_
  unfold calleeArgs
  rw [← hops.length, hcount, hpaired, Nat.sub_self, take_zero, drop_zero, drop_zero]
  exact hops

/-- **Into the programs.**  Where the carries are covered, two runs enter the same program with
the same values for the inputs that are no seeds. -/
theorem entered_agrees (hcarries : CarriesStart e derived)
    (hops : AgreeOff (Operand e derived) ops ops') (hcount : ops.length = e.invars.length)
    (h : entered role I (evalJaxpr role I n) e ops part k = some (sub, args))
    (h' : entered role I (evalJaxpr role I n) e ops' part k = some (sub', args'))
    (hlength : args.length = sub.invars.length) :
    sub = sub' ∧ sub ∈ e.subs ∧ InputsAgree (Seeds e derived sub) sub.invars args args' := by
  unfold entered at h h'
  by_cases hscan : e.primitive = "scan"
  · rw [if_pos hscan] at h h'
    exact enteredScan_agrees hscan hcarries hops h h'
  · rw [if_neg hscan] at h h'
    by_cases hwhile : e.primitive = "while"
    · rw [if_pos hwhile] at h h'
      exact enteredWhile_agrees hwhile hcarries hops hcount h h' hlength
    · rw [if_neg hwhile] at h h'
      cases hsubs : e.subs with
      | nil =>
        rw [hsubs] at h
        exact nomatch h
      | cons callee rest =>
        rw [hsubs] at h h'
        cases hrole : role e.primitive with
        | plain =>
          simp only [hrole] at h
          exact nomatch h
        | other =>
          simp only [hrole] at h
          exact nomatch h
        | call =>
          simp only [hrole] at h h'
          by_cases hpart : part = .body ∧ k = 0
          · rw [if_pos hpart] at h h'
            cases h
            cases h'
            exact ⟨rfl, mem_cons_self .., calleeArgs_agrees hops hcount⟩
          · rw [if_neg hpart] at h
            exact nomatch h
        | cond =>
          simp only [hrole] at h h'
          by_cases hk : k = 0
          · rw [if_pos hk, ← hsubs] at h h'
            rw [← hsubs]
            exact enteredCond_agrees hcount h h'
          · rw [if_neg hk] at h
            exact nomatch h

end

/-! ### At every place -/

section

variable {V : Type} {role : String → Role} {I : Interp V}

theorem length_of_valueAt {n : Nat} {j : Jaxpr} {args : List V} {place : Place} {k v : Nat} {x : V}
    (h : valueAt role I n j args place k v = some x) : args.length = j.invars.length := by
  cases n with
  | zero => exact nomatch h
  | succ n =>
    have hassign : ∀ eqns env, envAfter role I n j args eqns = some env →
        args.length = j.invars.length := by
      intro eqns env henv
      obtain ⟨start, hstart, -⟩ := bind_eq_some_iff.mp henv
      exact (length_of_assign hstart).symm
    cases place with
    | nil =>
      obtain ⟨env, henv, -⟩ := bind_eq_some_iff.mp h
      exact hassign _ _ henv
    | cons entry place =>
      obtain ⟨env, henv, -⟩ := bind_eq_some_iff.mp h
      exact hassign _ _ henv

/-- **At every place** of a program whose carries are covered, a value that is not marked is the
same in two runs. -/
theorem valueAt_agrees {n depth : Nat} {j : Jaxpr} {S : Nat → Prop} {seeded tainted : List Nat}
    {args args' : List V} {place : Place} {k v : Nat} {x y : V} (hcovered : Covered j S)
    (hwalk : inputDerivedVarIds depth j seeded = some tainted) (hseeds : ∀ u, S u → u ∈ seeded)
    (hargs : InputsAgree S j.invars args args')
    (h : valueAt role I n j args place k v = some x)
    (h' : valueAt role I n j args' place k v = some y) (hv : v ∉ tainted) : x = y := by
  induction place generalizing n depth j S seeded tainted args args' with
  | nil =>
    cases n with
    | zero => exact nomatch h
    | succ n =>
      cases depth with
      | zero => exact nomatch hwalk
      | succ depth =>
        obtain ⟨env, henv, hx⟩ := Option.bind_eq_some_iff.mp h
        obtain ⟨env', henv', hy⟩ := Option.bind_eq_some_iff.mp h'
        have hnot : ¬Derived (j.eqns.take k) S v := by
          intro hd
          have hall := hd.append (j.eqns.drop k)
          rw [List.take_append_drop] at hall
          exact hv (mem_of_derived hseeds hwalk hall)
        have hsame := envAfter_agrees hargs henv henv' v hnot
        exact Option.some.inj (hx.symm.trans (hsame.trans hy))
  | cons entry place ih =>
    obtain ⟨i, part, t⟩ := entry
    cases n with
    | zero => exact nomatch h
    | succ n =>
      cases depth with
      | zero => exact nomatch hwalk
      | succ depth =>
        obtain ⟨env, henv, h⟩ := Option.bind_eq_some_iff.mp h
        obtain ⟨e, he, h⟩ := Option.bind_eq_some_iff.mp h
        obtain ⟨ops, hops, h⟩ := Option.bind_eq_some_iff.mp h
        obtain ⟨⟨sub, subArgs⟩, hentered, h⟩ := Option.bind_eq_some_iff.mp h
        obtain ⟨env', henv', h'⟩ := Option.bind_eq_some_iff.mp h'
        obtain ⟨e', he', h'⟩ := Option.bind_eq_some_iff.mp h'
        obtain ⟨ops', hops', h'⟩ := Option.bind_eq_some_iff.mp h'
        obtain ⟨⟨sub', subArgs'⟩, hentered', h'⟩ := Option.bind_eq_some_iff.mp h'
        obtain rfl := Option.some.inj (he.symm.trans he')
        have hsplit : j.eqns = j.eqns.take i ++ e :: j.eqns.drop (i + 1) := by
          obtain ⟨hi, rfl⟩ := List.getElem?_eq_some_iff.mp he
          rw [List.cons_getElem_drop_succ, List.take_append_drop]
        have hsame := envAfter_agrees hargs henv henv'
        by_cases hconsumes : Consumes e (Derived (j.eqns.take i) S)
        · obtain ⟨hcarries, hsubs⟩ := hcovered
          have hagree := readAll_agrees hsame hops hops'
          obtain ⟨rfl, hmem, hinputs⟩ := entered_agrees (hcarries _ _ _ hsplit hconsumes) hagree
            (readAll_get hops).1 hentered hentered' (length_of_valueAt h)
          have hwalk' := hwalk
          rw [inputDerivedVarIds, hsplit] at hwalk'
          obtain ⟨seeded', inner, hinner, hseeds', hsubset⟩ :=
            walked_of_consumes hseeds hwalk' hconsumes hmem
          exact ih (hsubs _ _ _ hsplit hconsumes sub hmem) hinner hseeds' hinputs h h'
            fun hin => hv (hsubset hin)
        · -- no operand is derived, so the two runs enter the same
          obtain rfl := ops_eq hsame hconsumes hops hops'
          obtain ⟨rfl, rfl⟩ := Prod.mk.inj (Option.some.inj (hentered.symm.trans hentered'))
          exact Option.some.inj (h.symm.trans h')

end

theorem mem_of_varies {depth : Nat} {top : Jaxpr} {derived : List Nat} {v : Nat}
    (hcovered : Covered top (· ∈ top.invars))
    (hwalk : inputDerivedVarIds depth top top.invars = some derived) (hv : Varies top v) :
    v ∈ derived := by
  obtain ⟨V, role, I, n, args, args', place, k, x, y, hx, hy, hne⟩ := hv
  by_contra hnot
  have hinputs : InputsAgree (· ∈ top.invars) top.invars args args' :=
    fun i u hi hu => absurd (mem_of_getElem? hi) hu
  exact hne (valueAt_agrees hcovered hwalk (fun _ hu => hu) hinputs hx hy hnot)

theorem opBlocker_of_randomWrap {info : Metadata} {derived : List Nat} {e : Eqn Jaxpr}
    (hwrap : e.primitive = "random_wrap") (hkey : isUnbatchedKey info e = true)
    (hconsumes : consumesTainted e derived = true) :
    opBlocker info derived e = some unbatchedThreefryKey := by
  simp [opBlocker, hwrap, hkey, hconsumes]

/-- **The runtime-key rule misses no key** of a program whose carries are covered: each variable
that varies with the inputs is marked, and each un-batched `random_wrap` of one gets a blocker. -/
theorem runtime_keys_found (info : Metadata) (top : Jaxpr)
    (hcovered : Covered top (· ∈ top.invars)) (depth : Nat) (hdepth : sizeOf top ≤ depth) :
    ∃ derived blockers, inputDerivedVarIds depth top top.invars = some derived ∧
      ireeOpBlockers info depth top = some blockers ∧ (∀ v, Varies top v → v ∈ derived) ∧
      ∀ e ∈ iterJaxprEqns depth top, e.primitive = "random_wrap" → isUnbatchedKey info e = true →
        ∀ v, .var v ∈ e.invars → Varies top v →
          opBlocker info derived e = some unbatchedThreefryKey ∧
            unbatchedThreefryKey ∈ blockers := by
  obtain ⟨derived, hderived⟩ := inputDerivedVarIds_isSome hdepth top.invars
  have hvaries : ∀ v, Varies top v → v ∈ derived := fun v hv => mem_of_varies hcovered hderived hv
  refine ⟨derived, _, hderived, by rw [ireeOpBlockers, hderived]; rfl, hvaries, ?_⟩
  intro e he hwrap hkey v hv hvary
  have hblocker : opBlocker info derived e = some unbatchedThreefryKey := by
    refine opBlocker_of_randomWrap hwrap hkey ?_
    exact List.any_eq_true.mpr ⟨.var v, hv, decide_eq_true (hvaries v hvary)⟩
  exact ⟨hblocker, List.mem_filterMap.mpr ⟨e, he, hblocker⟩⟩

/-! ### A carry that is handed on -/

/-- The body draws with its first carry and hands its second on as both. -/
def shiftBody : Jaxpr :=
  .mk [] [1, 2] [⟨0, "random_wrap", [], [.var 1], [3]⟩] [.var 2, .var 2]

/-- Two iterations from a constant key and the key of the input. -/
def shiftProgram : Jaxpr :=
  .mk [] [0] [⟨1, "broadcast_in_dim", [], [.literal 0], [4]⟩,
    ⟨2, "scan", [("num_consts", .num 0), ("num_carry", .num 2), ("length", .num 2),
      ("jaxpr", .closed shiftBody)], [.var 4, .var 0], [5, 6]⟩] []

/-- Numbers: every equation hands its first operand on. -/
def numbers : Interp Nat where
  literal l := l
  const c := c
  apply _ ops := [ops.headD 0]
  truth x := x ≠ 0
  branch x := x
  slice x _ := x
  stack xs := xs.headD 0

def keyShapes : Metadata where
  shape _ := some []
  isStable _ := false
  calleeName _ := none

/-- In the second iteration the key is the input, and the variable is not marked. -/
theorem shifted_key_missed :
    Varies shiftProgram 1 ∧
      inputDerivedVarIds 3 shiftProgram shiftProgram.invars = some [5, 6, 2, 0] ∧
      ireeOpBlockers keyShapes 3 shiftProgram = some [] := by
  refine ⟨⟨Nat, fun _ => .plain, numbers, 3, [7], [8], [(1, .body, 1)], 0, 7, 8, ?_⟩, ?_, ?_⟩ <;>
    decide

/-! ### A carry that stays -/

theorem covered_of_single {j : Jaxpr} {e : Eqn Jaxpr} {seeds : Nat → Prop} (hj : j.eqns = [e])
    (hcarries : CarriesStart e (Derived [] seeds))
    (hsubs : ∀ sub ∈ e.subs, Covered sub (Seeds e (Derived [] seeds) sub)) : Covered j seeds := by
  have hone : ∀ before e' after, j.eqns = before ++ e' :: after → before = [] ∧ e' = e := by
    intro before e' after heq
    rcases append_eq_singleton_iff.mp (heq.symm.trans hj) with ⟨rfl, h⟩ | ⟨-, h⟩
    · exact ⟨rfl, (cons.inj h).1⟩
    · exact nomatch h
  refine .intro (fun before e' after heq _ => ?_) (fun before e' after heq _ => ?_)
  · obtain ⟨rfl, rfl⟩ := hone before e' after heq
    exact hcarries
  · obtain ⟨rfl, rfl⟩ := hone before e' after heq
    exact hsubs

/-- A draw with the key that the loop carries. -/
def draw : Eqn Jaxpr := ⟨0, "random_wrap", [], [.var 1], [3]⟩

def drawBody : Jaxpr := .mk [] [1] [draw] [.var 1]

def drawLoop : Eqn Jaxpr :=
  ⟨1, "scan", [("num_consts", .num 0), ("num_carry", .num 1), ("length", .num 2),
    ("jaxpr", .closed drawBody)], [.var 0], [4]⟩

/-- Two iterations with the key of the input. -/
def drawProgram : Jaxpr := .mk [] [0] [drawLoop] []

theorem drawProgram_covered : Covered drawProgram (· ∈ drawProgram.invars) := by
  refine covered_of_single (e := drawLoop) rfl (fun loop hloop i o hi _ _ => ?_) fun sub hsub => ?_
  · obtain rfl := some.inj hloop
    obtain rfl : i = 0 := Nat.lt_one_iff.mp hi
    exact ⟨0, rfl, 0, mem_cons_self, .refl [] 0⟩
  · obtain rfl := mem_singleton.mp hsub
    refine covered_of_single (e := draw) rfl (fun loop hloop => ?_) fun sub hsub => ?_
    · exact nomatch (hloop : none = some loop)
    · exact absurd hsub not_mem_nil

theorem drawProgram_varies : Varies drawProgram 1 :=
  ⟨Nat, fun _ => .plain, numbers, 3, [7], [8], [(0, .body, 1)], 0, 7, 8, by decide⟩

theorem draw_mem (n : Nat) : draw ∈ iterJaxprEqns (n + 2) drawProgram := by
  refine mem_flatMap.mpr ⟨drawLoop, mem_singleton_self _, mem_cons_of_mem _ ?_⟩
  refine mem_flatMap.mpr ⟨drawBody, mem_singleton_self _, ?_⟩
  exact mem_flatMap.mpr ⟨draw, mem_singleton_self _, mem_cons_self⟩

theorem drawProgram_blocked : ∃ blockers,
    ireeOpBlockers keyShapes (sizeOf drawProgram + 2) drawProgram = some blockers ∧
      unbatchedThreefryKey ∈ blockers := by
  obtain ⟨derived, blockers, -, hblockers, -, hfound⟩ :=
    runtime_keys_found keyShapes drawProgram drawProgram_covered (sizeOf drawProgram + 2)
      (Nat.le_add_right _ 2)
  have hblocked := hfound _ (draw_mem _) rfl (by decide) 1 (mem_singleton_self _)
    drawProgram_varies
  exact ⟨blockers, hblockers, hblocked.2⟩

end Xtrax.RuntimeKeys
