import Xtrax.InputDependence

/-!
# Dependence, one program at a time

`dependence` is what the walk computes, told without its dictionary: from the sets that the
inputs of a program are given, the sets of its outputs.  Each program has a dictionary of its
own here, and a nested program is the function of its inputs' sets.

The function treats every input index by itself (`dependence_alike`): whether an index is in
the set of an output depends only on the inputs whose sets it is in.  So the rounds of a loop
settle before they are up (`rounds_settled`).
-/

namespace Xtrax.Dependence

open Function Option

variable {i : Nat} {env env' : Nat → Deps}

section Eqn

variable (sub : Jaxpr → List Deps → Option (List Deps))

/-- The body of a loop as a function of the carries' sets. -/
def loopBody (body : Jaxpr) (lead tail : List Deps) (carry : List Deps) : Option (List Deps) :=
  sub body (lead ++ carry ++ tail)

/-- The carries' sets when they stop growing, and the body's outputs. -/
def loopDeps (body : Jaxpr) (lead carry tail : List Deps) : Option (List Deps × List Deps) :=
  rounds (loopBody sub body lead tail) (carry.length + 1) carry []

def depScan (e : Eqn Jaxpr) (ops : List Deps) : Option (List Deps) := do
  let (nConsts, nCarry) ← e.scanCounts
  let body ← e.body "jaxpr"
  let (carry, outs) ← loopDeps sub body (ops.take nConsts) ((ops.drop nConsts).take nCarry)
    (ops.drop (nConsts + nCarry))
  return carry ++ outs.drop nCarry

def depWhile (e : Eqn Jaxpr) (ops : List Deps) : Option (List Deps) := do
  let nCond ← e.num "cond_nconsts"
  let nBody ← e.num "body_nconsts"
  let body ← e.body "body_jaxpr"
  let cond ← e.body "cond_jaxpr"
  let (carry, _) ← loopDeps sub body ((ops.drop nCond).take nBody) (ops.drop (nCond + nBody)) []
  let _ ← sub cond (ops.take nCond ++ carry)
  return carry.map (· ∪ unionAll (ops.take nCond ++ carry))

/-- The sets that the inputs of a callee are given. -/
def calleeDeps (e : Eqn Jaxpr) (callee : Jaxpr) (env : Nat → Deps) : List Deps :=
  (alignCallInvars e.invars callee.invars).map fun p => p.2.elim ∅ (depOf env)

def depRest (e : Eqn Jaxpr) (env : Nat → Deps) : List Jaxpr → List Deps → Option (List Deps)
  | [], merged => some merged
  | callee :: rest, merged => do
    let next ← sub callee (calleeDeps e callee env)
    depRest e env rest (← merge merged next)

/-- The operands that no callee is given. -/
def extraDeps (e : Eqn Jaxpr) (subs : List Jaxpr) (env : Nat → Deps) : Deps :=
  unionAll ((e.invars.filter fun a => a ∉ pairedOuter e subs).map (depOf env))

def depCall (e : Eqn Jaxpr) (first : Jaxpr) (rest : List Jaxpr) (env : Nat → Deps) :
    Option (List Deps) := do
  let merged ← sub first (calleeDeps e first env)
  let merged ← depRest sub e env rest merged
  return merged.map (· ∪ extraDeps e (first :: rest) env)

def depEqn (e : Eqn Jaxpr) (env : Nat → Deps) : Option (List Deps) :=
  let ops := e.invars.map (depOf env)
  if e.primitive = "scan" then depScan sub e ops
  else if e.primitive = "while" then depWhile sub e ops
  else
    match e.subs with
    | [] => some (List.replicate e.outvars.length (unionAll ops))
    | first :: rest => depCall sub e first rest env

def depEqns : List (Eqn Jaxpr) → (Nat → Deps) → Option (Nat → Deps)
  | [], env => some env
  | e :: es, env => do
    let outs ← depEqn sub e env
    let env ← assign e.outvars outs env
    depEqns es env

end Eqn

/-- The sets of a program's outputs, from those of its inputs. -/
def dependence : Nat → Jaxpr → List Deps → Option (List Deps)
  | 0, _, _ => none
  | n + 1, j, inDeps => do
    let env ← assign j.invars inDeps fun _ => ∅
    let env ← depEqns (dependence n) j.eqns env
    return j.outvars.map (depOf env)

/-! ### Every index is treated by itself -/

theorem mem_unionAll {ds : List Deps} : i ∈ unionAll ds ↔ ∃ d ∈ ds, i ∈ d := by
  induction ds with
  | nil => simp [unionAll]
  | cons d ds ih =>
    unfold unionAll at ih ⊢
    simp [ih]

theorem unionAll_same {s t : List Deps} (h : SameAt i s t) : i ∈ unionAll s ↔ i ∈ unionAll t := by
  induction h with
  | nil => rfl
  | cons hab _ ih =>
    unfold unionAll at ih ⊢
    simp only [List.foldr_cons, Finset.mem_union, hab, ih]

theorem map_union_same {s t : List Deps} {u v : Deps} (h : SameAt i s t) (huv : i ∈ u ↔ i ∈ v) :
    SameAt i (s.map (· ∪ u)) (t.map (· ∪ v)) := by
  induction h with
  | nil => exact List.Forall₂.nil
  | cons hab _ ih => exact List.Forall₂.cons (by rw [Finset.mem_union, Finset.mem_union, hab, huv]) ih

theorem merge_eq_some {s t r : List Deps} (h : merge s t = some r) :
    s.length = t.length ∧ s.zipWith (· ∪ ·) t = r := by
  unfold merge at h
  split at h
  · exact ⟨‹_›, some.inj h⟩
  · exact absurd h (by simp)

theorem merge_same {s t s' t' r r' : List Deps} (h : SameAt i s s') (h' : SameAt i t t')
    (hr : merge s t = some r) (hr' : merge s' t' = some r') : SameAt i r r' := by
  obtain ⟨hlen, rfl⟩ := merge_eq_some hr
  obtain ⟨hlen', rfl⟩ := merge_eq_some hr'
  refine sameAt_grow h h' (?_ : grow s t = _) (?_ : grow s' t' = _)
  · exact if_pos hlen.le
  · exact if_pos hlen'.le

/-- Two dictionaries give the same variables sets with an index. -/
def EnvSame (i : Nat) (env env' : Nat → Deps) : Prop := ∀ v, i ∈ env v ↔ i ∈ env' v

theorem EnvSame.update (h : EnvSame i env env') {d d' : Deps} (hd : i ∈ d ↔ i ∈ d') (v : Nat) :
    EnvSame i (update env v d) (update env' v d') := by
  intro u
  by_cases huv : u = v
  · subst huv
    rw [update_self, update_self, hd]
  · rw [update_of_ne huv, update_of_ne huv, h u]

theorem EnvSame.assign {vs : List Nat} : ∀ {s t : List Deps}
    {env env' r r' : Nat → Deps}, EnvSame i env env' → SameAt i s t →
    assign vs s env = some r → assign vs t env' = some r' → EnvSame i r r' := by
  induction vs with
  | nil =>
    intro s t env env' r r' henv hst hr hr'
    cases hst with
    | nil =>
      obtain rfl := some.inj hr
      obtain rfl := some.inj hr'
      exact henv
    | cons _ _ => exact absurd hr (by simp [Dependence.assign])
  | cons v vs ih =>
    intro s t env env' r r' henv hst hr hr'
    cases hst with
    | nil => exact absurd hr (by simp [Dependence.assign])
    | cons hab hst => exact ih (henv.update hab v) hst hr hr'

theorem EnvSame.depOf (h : EnvSame i env env') (a : Atom) : i ∈ depOf env a ↔ i ∈ depOf env' a := by
  cases a with
  | literal l => exact Iff.rfl
  | var v => exact h v

theorem EnvSame.map_depOf (h : EnvSame i env env') (as : List Atom) :
    SameAt i (as.map (Dependence.depOf env)) (as.map (Dependence.depOf env')) := by
  induction as with
  | nil => exact List.Forall₂.nil
  | cons a as ih => exact List.Forall₂.cons (h.depOf a) ih

theorem EnvSame.calleeDeps (h : EnvSame i env env') (e : Eqn Jaxpr) (callee : Jaxpr) :
    SameAt i (calleeDeps e callee env) (calleeDeps e callee env') := by
  unfold Dependence.calleeDeps
  induction alignCallInvars e.invars callee.invars with
  | nil => exact List.Forall₂.nil
  | cons p ps ih =>
    refine List.Forall₂.cons ?_ ih
    obtain ⟨inner, outer⟩ := p
    cases outer with
    | none => exact Iff.rfl
    | some a => exact h.depOf a

section Eqn

variable {i : Nat} {sub : Jaxpr → List Deps → Option (List Deps)} {e : Eqn Jaxpr}

theorem alike_loopBody (hsub : ∀ j, Alike i (sub j) (sub j)) (body : Jaxpr)
    {lead lead' tail tail' : List Deps} (hlead : SameAt i lead lead')
    (htail : SameAt i tail tail') :
    Alike i (loopBody sub body lead tail) (loopBody sub body lead' tail') :=
  fun _ _ _ _ hc hd hcd => hsub body _ _ _ _ hc hd ((hlead.append hcd).append htail)

theorem loopDeps_same (hsub : ∀ j, Alike i (sub j) (sub j)) {body : Jaxpr}
    {lead lead' carry carry' tail tail' c c' o o' : List Deps} (hlead : SameAt i lead lead')
    (hcarry : SameAt i carry carry') (htail : SameAt i tail tail')
    (h : loopDeps sub body lead carry tail = some (c, o))
    (h' : loopDeps sub body lead' carry' tail' = some (c', o')) :
    SameAt i c c' ∧ SameAt i o o' := by
  unfold loopDeps at h h'
  rw [← hcarry.length_eq] at h'
  exact rounds_same (alike_loopBody hsub body hlead htail) _ hcarry List.Forall₂.nil h h'

theorem depScan_same (hsub : ∀ j, Alike i (sub j) (sub j)) {ops ops' outs outs' : List Deps}
    (hops : SameAt i ops ops') (h : depScan sub e ops = some outs)
    (h' : depScan sub e ops' = some outs') : SameAt i outs outs' := by
  simp only [depScan, bind_eq_bind, pure_def, bind_eq_some_iff, some.injEq] at h h'
  obtain ⟨⟨nConsts, nCarry⟩, hcounts, body, hbody, ⟨c, o⟩, hloop, rfl⟩ := h
  obtain ⟨⟨nConsts', nCarry'⟩, hcounts', body', hbody', ⟨c', o'⟩, hloop', rfl⟩ := h'
  obtain ⟨rfl, rfl⟩ := Prod.mk.inj (some.inj (hcounts.symm.trans hcounts'))
  obtain rfl := some.inj (hbody.symm.trans hbody')
  obtain ⟨hc, ho⟩ := loopDeps_same hsub (hops.take _) ((hops.drop _).take _) (hops.drop _)
    hloop hloop'
  exact hc.append (ho.drop _)

theorem depWhile_same (hsub : ∀ j, Alike i (sub j) (sub j)) {ops ops' outs outs' : List Deps}
    (hops : SameAt i ops ops') (h : depWhile sub e ops = some outs)
    (h' : depWhile sub e ops' = some outs') : SameAt i outs outs' := by
  simp only [depWhile, bind_eq_bind, pure_def, bind_eq_some_iff, some.injEq] at h h'
  obtain ⟨nCond, hnCond, nBody, hnBody, body, hbody, cond, hcond, ⟨c, o⟩, hloop, _, -, rfl⟩ := h
  obtain ⟨nCond', hnCond', nBody', hnBody', body', hbody', cond', hcond', ⟨c', o'⟩, hloop', _, -,
    rfl⟩ := h'
  obtain rfl := some.inj (hnCond.symm.trans hnCond')
  obtain rfl := some.inj (hnBody.symm.trans hnBody')
  obtain rfl := some.inj (hbody.symm.trans hbody')
  obtain ⟨hc, -⟩ := loopDeps_same hsub ((hops.drop _).take _) (hops.drop _) List.Forall₂.nil
    hloop hloop'
  exact map_union_same hc (unionAll_same ((hops.take _).append hc))

theorem depRest_same (hsub : ∀ j, Alike i (sub j) (sub j)) {env env' : Nat → Deps}
    (henv : EnvSame i env env') : ∀ {rest : List Jaxpr}
    {merged merged' outs outs' : List Deps}, SameAt i merged merged' →
    depRest sub e env rest merged = some outs → depRest sub e env' rest merged' = some outs' →
    SameAt i outs outs'
  | [], _, _, _, _, hm, h, h' => by
    obtain rfl := some.inj h
    obtain rfl := some.inj h'
    exact hm
  | callee :: rest, _, _, _, _, hm, h, h' => by
    simp only [depRest, bind_eq_bind, bind_eq_some_iff] at h h'
    obtain ⟨next, hnext, m, hmerge, h⟩ := h
    obtain ⟨next', hnext', m', hmerge', h'⟩ := h'
    have hstep := hsub callee _ _ _ _ hnext hnext' (henv.calleeDeps e callee)
    exact depRest_same hsub henv (merge_same hm hstep hmerge hmerge') h h'

theorem depEqn_same (hsub : ∀ j, Alike i (sub j) (sub j)) {env env' : Nat → Deps}
    (henv : EnvSame i env env') {outs outs' : List Deps} (h : depEqn sub e env = some outs)
    (h' : depEqn sub e env' = some outs') : SameAt i outs outs' := by
  have hops := henv.map_depOf e.invars
  unfold depEqn at h h'
  split at h
  · rw [if_pos ‹_›] at h'
    exact depScan_same hsub hops h h'
  · rw [if_neg ‹_›] at h'
    split at h
    · rw [if_pos ‹_›] at h'
      exact depWhile_same hsub hops h h'
    · rw [if_neg ‹_›] at h'
      cases hsubs : e.subs with
      | nil =>
        rw [hsubs] at h h'
        obtain rfl := some.inj h
        obtain rfl := some.inj h'
        have hunion := unionAll_same hops
        generalize e.outvars.length = n
        induction n with
        | zero => exact List.Forall₂.nil
        | succ n ih => exact List.Forall₂.cons hunion ih
      | cons first rest =>
        rw [hsubs] at h h'
        simp only [depCall, bind_eq_bind, pure_def, bind_eq_some_iff, some.injEq] at h h'
        obtain ⟨m, hm, r, hr, rfl⟩ := h
        obtain ⟨m', hm', r', hr', rfl⟩ := h'
        have hfirst := hsub first _ _ _ _ hm hm' (henv.calleeDeps e first)
        exact map_union_same (depRest_same hsub henv hfirst hr hr')
          (unionAll_same (henv.map_depOf _))

theorem depEqns_same (hsub : ∀ j, Alike i (sub j) (sub j)) : ∀ {es : List (Eqn Jaxpr)}
    {env env' r r' : Nat → Deps}, EnvSame i env env' → depEqns sub es env = some r →
    depEqns sub es env' = some r' → EnvSame i r r'
  | [], _, _, _, _, henv, h, h' => by
    obtain rfl := some.inj h
    obtain rfl := some.inj h'
    exact henv
  | e :: es, _, _, _, _, henv, h, h' => by
    simp only [depEqns, bind_eq_bind, bind_eq_some_iff] at h h'
    obtain ⟨outs, houts, env₁, hassign, h⟩ := h
    obtain ⟨outs', houts', env₁', hassign', h'⟩ := h'
    exact depEqns_same hsub (henv.assign (depEqn_same hsub henv houts houts') hassign hassign') h h'

end Eqn

/-- **Whether an index is in an output's set depends only on the inputs whose sets it is
in.** -/
theorem dependence_alike (i : Nat) : ∀ (n : Nat) (j : Jaxpr),
    Alike i (dependence n j) (dependence n j)
  | 0, _ => fun _ _ _ _ h => absurd h (by simp [dependence])
  | n + 1, j => by
    intro s t o p hs ht hst
    simp only [dependence, bind_eq_bind, pure_def, bind_eq_some_iff, some.injEq] at hs ht
    obtain ⟨env, hassign, r, hr, rfl⟩ := hs
    obtain ⟨env', hassign', r', hr', rfl⟩ := ht
    have henv : EnvSame i env env' :=
      EnvSame.assign (fun _ => Iff.rfl) hst hassign hassign'
    exact (depEqns_same (dependence_alike i n) henv hr hr').map_depOf j.outvars

/-- **The rounds of a loop settle**: the body's outputs are those for the final carries, and
add nothing to them. -/
theorem loopDeps_settled {n : Nat} {body : Jaxpr} {lead carry tail c o : List Deps}
    (h : loopDeps (dependence n) body lead carry tail = some (c, o)) :
    dependence n body (lead ++ c ++ tail) = some o ∧ grow c o = some c :=
  rounds_settled (fun i => alike_loopBody (dependence_alike i n) body (SameAt.refl i lead)
    (SameAt.refl i tail)) h

end Xtrax.Dependence
