import Xtrax.DependenceLocal

/-!
# The walk computes the dependence of the program

The walk keeps one dictionary for all programs, and a program is walked several times.  That
does no harm where no program binds a variable of a program that it is nested in, and a constant
is bound nowhere (`WellScoped`): walking a nested program changes nothing that the program around
it reads (`visit_frame`), what is left over from an earlier visit is written before it is read,
and the walk finds what `dependence` says (`visit_refines`).
-/

namespace Xtrax.Dependence

open Function List Option

/-! ### Scopes -/

/-- A variable is bound in a program or in one nested in it. -/
inductive Binds : Jaxpr → Nat → Prop
  | invar {j : Jaxpr} {v : Nat} : v ∈ j.invars → Binds j v
  | out {j : Jaxpr} {e : Eqn Jaxpr} {v : Nat} : e ∈ j.eqns → v ∈ e.outvars → Binds j v
  | nested {j : Jaxpr} {e : Eqn Jaxpr} {s : Jaxpr} {v : Nat} :
      e ∈ j.eqns → s ∈ e.subs → Binds s v → Binds j v

/-- A variable is bound by the program itself. -/
def BindsHere (j : Jaxpr) (v : Nat) : Prop := v ∈ j.invars ∨ ∃ e ∈ j.eqns, v ∈ e.outvars

/-- An operand whose variable is known. -/
def Atom.Known (known : Nat → Prop) : Atom → Prop
  | .literal _ => True
  | .var v => known v

/-- Every variable that is read is known or written by an equation before. -/
def ReadsKnown (outvars : List Atom) : (Nat → Prop) → List (Eqn Jaxpr) → Prop
  | known, [] => ∀ a ∈ outvars, a.Known known
  | known, e :: es =>
    (∀ a ∈ e.invars, a.Known known) ∧ ReadsKnown outvars (fun v => known v ∨ v ∈ e.outvars) es

/-- Variables are read after they are bound, constants are bound nowhere, and nested programs
have variables of their own. -/
inductive WellScoped (const : Nat → Prop) : Jaxpr → Prop
  | mk {j : Jaxpr} :
      (∀ v ∈ j.constvars, const v) →
      (∀ v, BindsHere j v → ¬ const v) →
      ReadsKnown j.outvars (fun v => v ∈ j.constvars ∨ v ∈ j.invars) j.eqns →
      (∀ e ∈ j.eqns, ∀ s ∈ e.subs, ∀ v, Binds s v → ¬ BindsHere j v) →
      (∀ e ∈ j.eqns, ∀ s ∈ e.subs, WellScoped const s) → WellScoped const j

/-- A program whose constants are the variables that it binds nowhere. -/
def Jaxpr.WellFormed (j : Jaxpr) : Prop := WellScoped (fun v => ¬ Binds j v) j

theorem WellScoped.not_binds {const : Nat → Prop} {j : Jaxpr} (h : WellScoped const j) {v : Nat}
    (hv : const v) : ¬ Binds j v := by
  intro hbinds
  induction hbinds with
  | invar hmem =>
    obtain ⟨-, hfresh, -, -, -⟩ := h
    exact hfresh _ (Or.inl hmem) hv
  | out he hmem =>
    obtain ⟨-, hfresh, -, -, -⟩ := h
    exact hfresh _ (Or.inr ⟨_, he, hmem⟩) hv
  | nested he hs _ ih =>
    obtain ⟨-, -, -, -, hnested⟩ := h
    exact ih (hnested _ he _ hs) hv

/-! ### Writing to a dictionary -/

theorem assign_frame {γ : Type} {vs : List Nat} : ∀ {xs : List γ} {env r : Nat → γ},
    assign vs xs env = some r → ∀ {v}, v ∉ vs → r v = env v := by
  induction vs with
  | nil =>
    intro xs env r h v _
    cases xs with
    | nil => rw [← some.inj h]
    | cons x xs => exact absurd h (by simp [assign])
  | cons u vs ih =>
    intro xs env r h v hv
    cases xs with
    | nil => exact absurd h (by simp [assign])
    | cons x xs =>
      rw [mem_cons, not_or] at hv
      rw [ih h hv.2, update_of_ne hv.1]

theorem assign_agree {γ : Type} {vs : List Nat} : ∀ {xs : List γ} {known : Nat → Prop}
    {env deps deps' : Nat → γ}, (∀ v, known v → env v = deps v) →
    assign vs xs deps = some deps' →
    ∃ env', assign vs xs env = some env' ∧ ∀ v, known v ∨ v ∈ vs → env' v = deps' v := by
  induction vs with
  | nil =>
    intro xs known env deps deps' hagree h
    cases xs with
    | nil =>
      obtain rfl := some.inj h
      exact ⟨env, rfl, fun v hv => hagree v (hv.resolve_right not_mem_nil)⟩
    | cons x xs => exact absurd h (by simp [assign])
  | cons u vs ih =>
    intro xs known env deps deps' hagree h
    cases xs with
    | nil => exact absurd h (by simp [assign])
    | cons x xs =>
      have hupdate : ∀ v, known v ∨ v = u → update env u x v = update deps u x v := by
        intro v hv
        by_cases huv : v = u
        · rw [huv, update_self, update_self]
        · rw [update_of_ne huv, update_of_ne huv, hagree v (hv.resolve_right huv)]
      obtain ⟨env', henv', hagree'⟩ := ih hupdate h
      refine ⟨env', henv', fun v hv => hagree' v ?_⟩
      rw [mem_cons] at hv
      tauto

theorem depOf_agree {known : Nat → Prop} {env deps : Nat → Deps}
    (hagree : ∀ v, known v → env v = deps v) {a : Atom} (ha : a.Known known) :
    depOf env a = depOf deps a := by
  cases a with
  | literal l => rfl
  | var v => exact hagree v ha

theorem map_depOf_agree {known : Nat → Prop} {env deps : Nat → Deps}
    (hagree : ∀ v, known v → env v = deps v) {as : List Atom} (has : ∀ a ∈ as, a.Known known) :
    as.map (depOf env) = as.map (depOf deps) :=
  map_congr_left fun a ha => depOf_agree hagree (has a ha)

/-! ### What a visit leaves as it was -/

section Frame

variable {order : Nat → Option Nat} {visit : Jaxpr → Walk → Option Walk} {e : Eqn Jaxpr}
  {w w' : Walk}

/-- A visit writes to variables of the visited program only. -/
def Frames (visit : Jaxpr → Walk → Option Walk) : Prop :=
  ∀ j w w', visit j w = some w' → ∀ v, ¬ Binds j v → w'.deps v = w.deps v

theorem seed_frame (hvisit : Frames visit) {j : Jaxpr} {inDeps outs : List Deps}
    (h : seed visit j inDeps w = some (w', outs)) {v : Nat} (hv : ¬ Binds j v) :
    w'.deps v = w.deps v := by
  simp only [seed, Option.bind_eq_bind, Option.pure_def, Option.bind_eq_some_iff,
    Option.some.injEq, Prod.mk.injEq] at h
  obtain ⟨deps, hassign, w₁, hw₁, rfl, -⟩ := h
  rw [hvisit _ _ _ hw₁ v hv]
  exact assign_frame hassign fun hmem => hv (Binds.invar hmem)

theorem bindInvars_frame {v : Nat} : ∀ {pairs : List (Nat × Option Atom)} {deps : Nat → Deps},
    v ∉ pairs.map Prod.fst → bindInvars pairs deps v = deps v
  | [], _, _ => rfl
  | (inner, outer) :: pairs, deps, hv => by
    rw [map_cons, mem_cons, not_or] at hv
    cases outer with
    | none => rw [bindInvars, bindInvars_frame hv.2, update_of_ne hv.1]
    | some a => rw [bindInvars, bindInvars_frame hv.2, update_of_ne hv.1]

theorem map_fst_alignCallInvars (outer : List Atom) (inner : List Nat) :
    (alignCallInvars outer inner).map Prod.fst = inner := by
  unfold alignCallInvars
  split
  · rw [List.map_fst_zip]
    simp only [List.length_map, List.length_drop]
    omega
  · rw [List.map_append, List.map_map, List.map_fst_zip]
    · have hfst : (Prod.fst ∘ fun v : Nat => (v, (none : Option Atom))) = id := rfl
      rw [hfst, List.map_id, List.take_append_drop]
    · simp only [List.length_map, List.length_drop]
      omega

theorem mem_of_mem_alignCallInvars {outer : List Atom} {inner : List Nat} {v : Nat} {a : Atom}
    (h : (v, some a) ∈ alignCallInvars outer inner) : a ∈ outer := by
  unfold alignCallInvars at h
  split at h
  · obtain ⟨b, hb, heq⟩ := mem_map.mp (of_mem_zip h).2
    obtain rfl := some.inj heq
    exact mem_of_mem_drop hb
  · rcases mem_append.mp h with h | h
    · obtain ⟨u, -, heq⟩ := mem_map.mp h
      exact absurd (Prod.mk.inj heq).2 (by simp)
    · obtain ⟨b, hb, heq⟩ := mem_map.mp (of_mem_zip h).2
      obtain rfl := some.inj heq
      exact hb

theorem bind_frame (hvisit : Frames visit) {sub : Jaxpr} {outs : List Deps}
    (h : bind visit e sub w = some (w', outs)) {v : Nat} (hv : ¬ Binds sub v) :
    w'.deps v = w.deps v := by
  simp only [bind, Option.bind_eq_bind, Option.pure_def, Option.bind_eq_some_iff,
    Option.some.injEq, Prod.mk.injEq] at h
  obtain ⟨w₁, hw₁, rfl, -⟩ := h
  rw [hvisit _ _ _ hw₁ v hv]
  refine bindInvars_frame ?_
  rw [map_fst_alignCallInvars]
  exact fun hmem => hv (Binds.invar hmem)

theorem carryRounds_frame (hvisit : Frames visit) {body : Jaxpr} {lead tail : List Deps}
    {mark : Nat} {v : Nat} (hv : ¬ Binds body v) (k : Nat) :
    ∀ {current outs c o : List Deps} {w w' : Walk},
      carryRounds visit body lead tail mark k current outs w = some (w', c, o) →
      w'.deps v = w.deps v := by
  induction k with
  | zero =>
    intro current outs c o w w' h
    rw [(Prod.mk.inj (some.inj h)).1]
  | succ k ih =>
    intro current outs c o w w' h
    simp only [carryRounds, bind_eq_bind, bind_eq_some_iff] at h
    obtain ⟨⟨w₁, outs₁⟩, hseed, grown, -, h⟩ := h
    have hstep := seed_frame hvisit hseed hv
    split at h
    · rw [← (Prod.mk.inj (some.inj h)).1, hstep]
    · rw [ih h, hstep]

theorem bindRest_frame (hvisit : Frames visit) {v : Nat} :
    ∀ {rest : List Jaxpr} {merged outs : List Deps} {w w' : Walk},
      (∀ s ∈ rest, ¬ Binds s v) → bindRest visit e rest merged w = some (w', outs) →
      w'.deps v = w.deps v
  | [], _, _, _, _, _, h => by rw [(Prod.mk.inj (some.inj h)).1]
  | sub :: rest, _, _, _, _, hv, h => by
    simp only [bindRest, bind_eq_bind, bind_eq_some_iff] at h
    obtain ⟨⟨w₁, next⟩, hbind, m, -, h⟩ := h
    rw [bindRest_frame hvisit (fun s hs => hv s (mem_cons_of_mem _ hs)) h,
      bind_frame hvisit hbind (hv sub mem_cons_self)]

theorem record_deps {perOut : List Deps} (h : record order e perOut w = some w') :
    assign e.outvars perOut w.deps = some w'.deps := by
  simp only [record, Option.bind_eq_bind, Option.pure_def, Option.bind_eq_some_iff,
    Option.some.injEq] at h
  obtain ⟨slot, -, deps, hassign, rfl⟩ := h
  exact hassign

/-- What an equation does to the dictionary: it visits the programs it carries, and writes
sets to its outputs. -/
theorem visitEqn_writes (hvisit : Frames visit) (h : visitEqn order visit e w = some w') :
    ∃ (w₁ : Walk) (outs : List Deps), assign e.outvars outs w₁.deps = some w'.deps ∧
      ∀ v, (∀ s ∈ e.subs, ¬ Binds s v) → w₁.deps v = w.deps v := by
  unfold visitEqn at h
  split at h
  · simp only [visitScan, carryFixpoint, bind_eq_bind, bind_eq_some_iff] at h
    obtain ⟨_, -, body, hbody, ⟨w₁, c, o⟩, hrounds, h⟩ := h
    exact ⟨w₁, _, record_deps h, fun v hv =>
      carryRounds_frame hvisit (hv body (Eqn.mem_subs_of_body hbody)) _ hrounds⟩
  · split at h
    · simp only [visitWhile, carryFixpoint, bind_eq_bind, bind_eq_some_iff] at h
      obtain ⟨_, -, _, -, body, hbody, cond, hcond, ⟨w₁, c, o⟩, hrounds, ⟨w₂, o₂⟩, hseed, h⟩ := h
      refine ⟨w₂, _, record_deps h, fun v hv => ?_⟩
      rw [seed_frame hvisit hseed (hv cond (Eqn.mem_subs_of_body hcond)),
        carryRounds_frame hvisit (hv body (Eqn.mem_subs_of_body hbody)) _ hrounds]
    · split at h
      · exact ⟨w, _, record_deps h, fun _ _ => rfl⟩
      · rename_i first rest hsubs
        simp only [visitCall, bind_eq_bind, bind_eq_some_iff] at h
        obtain ⟨⟨w₁, m⟩, hbind, ⟨w₂, r⟩, hrest, h⟩ := h
        refine ⟨w₂, _, record_deps h, fun v hv => ?_⟩
        rw [hsubs] at hv
        rw [bindRest_frame hvisit (fun s hs => hv s (mem_cons_of_mem _ hs)) hrest,
          bind_frame hvisit hbind (hv first mem_cons_self)]

theorem visitEqns_frame (hvisit : Frames visit) {v : Nat} :
    ∀ {es : List (Eqn Jaxpr)} {w w' : Walk}, (∀ e ∈ es, v ∉ e.outvars) →
      (∀ e ∈ es, ∀ s ∈ e.subs, ¬ Binds s v) → visitEqns order visit es w = some w' →
      w'.deps v = w.deps v
  | [], _, _, _, _, h => by rw [some.inj h]
  | e :: es, _, _, hout, hsub, h => by
    simp only [visitEqns, bind_eq_bind, bind_eq_some_iff] at h
    obtain ⟨w₁, hw₁, h⟩ := h
    obtain ⟨w₀, outs, hassign, hframe⟩ := visitEqn_writes hvisit hw₁
    rw [visitEqns_frame hvisit (fun e he => hout e (mem_cons_of_mem _ he))
      (fun e he => hsub e (mem_cons_of_mem _ he)) h,
      assign_frame hassign (hout e mem_cons_self), hframe v (hsub e mem_cons_self)]

/-- **A visit writes to variables of the visited program only.** -/
theorem visit_frame (order : Nat → Option Nat) : ∀ n, Frames (Dependence.visit order n)
  | 0 => fun _ _ _ h => absurd h (by simp [Dependence.visit])
  | n + 1 => by
    intro j w w' h v hv
    exact visitEqns_frame (visit_frame order n) (fun e he hmem => hv (Binds.out he hmem))
      (fun e he s hs hb => hv (Binds.nested he hs hb)) h

end Frame

/-! ### What a visit finds -/

section Refine

variable {const : Nat → Prop} {order : Nat → Option Nat} {w w' : Walk} {e : Eqn Jaxpr} {j : Jaxpr}
variable {visit : Jaxpr → Walk → Option Walk} {sub : Jaxpr → List Deps → Option (List Deps)}

def ConstEmpty (const : Nat → Prop) (deps : Nat → Deps) : Prop := ∀ c, const c → deps c = ∅

/-- A visit from a dictionary that gives the inputs their sets finds the sets of the outputs. -/
def Refines (const : Nat → Prop) (visit : Jaxpr → Walk → Option Walk)
    (sub : Jaxpr → List Deps → Option (List Deps)) : Prop :=
  ∀ j w w' inDeps env, WellScoped const j → ConstEmpty const w.deps →
    assign j.invars inDeps (fun _ => ∅) = some env → (∀ v ∈ j.invars, env v = w.deps v) →
    visit j w = some w' → sub j inDeps = some (j.outvars.map (depOf w'.deps))

theorem ConstEmpty.frame {deps deps' : Nat → Deps} (h : ConstEmpty const deps)
    (hj : WellScoped const j) (hframe : ∀ v, ¬ Binds j v → deps' v = deps v) :
    ConstEmpty const deps' := by
  intro c hc
  rw [hframe c (hj.not_binds hc), h c hc]

theorem refines_of_assign (hsub : Refines const visit sub) {inDeps : List Deps} {deps : Nat → Deps}
    (hj : WellScoped const j) (hempty : ConstEmpty const w.deps)
    (hassign : assign j.invars inDeps w.deps = some deps)
    (hvisit : visit j { w with deps := deps } = some w') :
    sub j inDeps = some (j.outvars.map (depOf w'.deps)) := by
  have hnothing : ∀ v, False → (∅ : Deps) = w.deps v := fun _ h => h.elim
  obtain ⟨env, henv, hagree⟩ := assign_agree hnothing hassign
  refine hsub j _ w' inDeps env hj ?_ henv (fun v hv => hagree v (Or.inr hv)) hvisit
  intro c hc
  rw [← hempty c hc]
  exact assign_frame hassign fun hmem => hj.not_binds hc (Binds.invar hmem)

theorem seed_refines (hsub : Refines const visit sub) {inDeps outs : List Deps}
    (hj : WellScoped const j) (h : seed visit j inDeps w = some (w', outs))
    (hempty : ConstEmpty const w.deps) : sub j inDeps = some outs := by
  simp only [seed, Option.bind_eq_bind, Option.pure_def, Option.bind_eq_some_iff,
    Option.some.injEq, Prod.mk.injEq] at h
  obtain ⟨deps, hassign, w₁, hw₁, rfl, rfl⟩ := h
  exact refines_of_assign hsub hj hempty hassign hw₁

theorem carryRounds_refines (hvisit : Frames visit) (hsub : Refines const visit sub)
    {body : Jaxpr} (hbody : WellScoped const body) {lead tail : List Deps} {mark : Nat} (k : Nat) :
    ∀ {current outs c o : List Deps} {w w' : Walk}, ConstEmpty const w.deps →
      carryRounds visit body lead tail mark k current outs w = some (w', c, o) →
      rounds (loopBody sub body lead tail) k current outs = some (c, o) := by
  induction k with
  | zero =>
    intro current outs c o w w' _ h
    exact congrArg some (Prod.mk.inj (some.inj h)).2
  | succ k ih =>
    intro current outs c o w w' hempty h
    simp only [carryRounds, bind_eq_bind, bind_eq_some_iff] at h
    obtain ⟨⟨w₁, outs₁⟩, hseed, grown, hgrown, h⟩ := h
    have hstep : loopBody sub body lead tail current = some outs₁ :=
      seed_refines hsub hbody hseed hempty
    have hempty₁ : ConstEmpty const w₁.deps :=
      hempty.frame hbody fun v hv => seed_frame hvisit hseed hv
    rw [rounds, hstep]
    simp only [bind_eq_bind, bind_some, hgrown]
    split at h
    · rw [if_pos ‹_›]
      exact congrArg some (Prod.mk.inj (some.inj h)).2
    · rw [if_neg ‹_›]
      exact ih hempty₁ h

theorem carryFixpoint_refines (hvisit : Frames visit) (hsub : Refines const visit sub)
    {body : Jaxpr} (hbody : WellScoped const body) {lead carry tail c o : List Deps}
    (hempty : ConstEmpty const w.deps)
    (h : carryFixpoint visit body lead carry tail w = some (w', c, o)) :
    loopDeps sub body lead carry tail = some (c, o) :=
  carryRounds_refines hvisit hsub hbody _ hempty h

/-- Binding the inputs one after the other is the same as reading all operands first: no
operand is an input of the callee. -/
theorem assign_of_bindInvars : ∀ {pairs : List (Nat × Option Atom)} {deps : Nat → Deps},
    (∀ v a, (v, some a) ∈ pairs → ∀ u ∈ pairs.map Prod.fst, a ≠ .var u) →
    assign (pairs.map Prod.fst) (pairs.map fun p => p.2.elim ∅ (depOf deps)) deps =
      some (bindInvars pairs deps)
  | [], _, _ => rfl
  | (inner, outer) :: pairs, deps, hpairs => by
    have hrest : ∀ v a, (v, some a) ∈ pairs → ∀ u ∈ pairs.map Prod.fst, a ≠ .var u :=
      fun v a hmem u hu => hpairs v a (mem_cons_of_mem _ hmem) u (mem_cons_of_mem _ hu)
    have hread : ∀ x, pairs.map (fun p => p.2.elim ∅ (depOf (update deps inner x))) =
        pairs.map fun p => p.2.elim ∅ (depOf deps) := by
      intro x
      refine map_congr_left fun p hp => ?_
      obtain ⟨v, a⟩ := p
      cases a with
      | none => rfl
      | some a =>
        cases a with
        | literal l => rfl
        | var u =>
          have hne := hpairs v (.var u) (mem_cons_of_mem _ hp) inner mem_cons_self
          show update deps inner x u = deps u
          exact update_of_ne (fun heq => hne (congrArg Atom.var heq)) _ _
    cases outer with
    | none =>
      rw [bindInvars, ← assign_of_bindInvars hrest, hread]
      rfl
    | some a =>
      rw [bindInvars, ← assign_of_bindInvars hrest, hread]
      rfl

/-- The operands of an equation are not bound in the programs it carries. -/
def OperandsApart (e : Eqn Jaxpr) : Prop :=
  ∀ a ∈ e.invars, a.Known fun v => ∀ s ∈ e.subs, ¬ Binds s v

theorem bind_refines (hsub : Refines const visit sub) (hapart : OperandsApart e) {s : Jaxpr}
    (hs : s ∈ e.subs) (hscoped : WellScoped const s) {outs : List Deps}
    (hempty : ConstEmpty const w.deps) (h : bind visit e s w = some (w', outs)) :
    sub s (calleeDeps e s w.deps) = some outs := by
  simp only [bind, Option.bind_eq_bind, Option.pure_def, Option.bind_eq_some_iff,
    Option.some.injEq, Prod.mk.injEq] at h
  obtain ⟨w₁, hw₁, rfl, rfl⟩ := h
  have hother : ∀ v a, (v, some a) ∈ alignCallInvars e.invars s.invars →
      ∀ u ∈ (alignCallInvars e.invars s.invars).map Prod.fst, a ≠ .var u := by
    intro v a hmem u hu heq
    have hknown := hapart a (mem_of_mem_alignCallInvars hmem)
    rw [heq] at hknown
    rw [map_fst_alignCallInvars] at hu
    exact hknown s hs (Binds.invar hu)
  have hassign : assign ((alignCallInvars e.invars s.invars).map Prod.fst)
      (calleeDeps e s w.deps) w.deps = some _ := assign_of_bindInvars hother
  rw [map_fst_alignCallInvars] at hassign
  exact refines_of_assign hsub hscoped hempty hassign hw₁

theorem calleeDeps_agree {known : Nat → Prop} {env deps : Nat → Deps}
    (hagree : ∀ v, known v → env v = deps v) (hknown : ∀ a ∈ e.invars, a.Known known) (s : Jaxpr) :
    calleeDeps e s env = calleeDeps e s deps := by
  refine map_congr_left fun p hp => ?_
  obtain ⟨v, a⟩ := p
  cases a with
  | none => rfl
  | some a => exact depOf_agree hagree (hknown a (mem_of_mem_alignCallInvars hp))

/-- The variables that no program an equation carries binds. -/
def Outside (e : Eqn Jaxpr) (v : Nat) : Prop := ∀ s ∈ e.subs, ¬ Binds s v

theorem bindRest_refines (hvisit : Frames visit) (hsub : Refines const visit sub)
    (hapart : OperandsApart e) {env : Nat → Deps} : ∀ {rest : List Jaxpr} {merged outs : List Deps}
    {w w' : Walk}, (∀ s ∈ rest, s ∈ e.subs ∧ WellScoped const s) → ConstEmpty const w.deps →
    (∀ v, Outside e v → env v = w.deps v) → bindRest visit e rest merged w = some (w', outs) →
    depRest sub e env rest merged = some outs
  | [], _, _, _, _, _, _, _, h => congrArg some (Prod.mk.inj (some.inj h)).2
  | s :: rest, _, _, w, _, hrest, hempty, hagree, h => by
    simp only [bindRest, bind_eq_bind, bind_eq_some_iff] at h
    obtain ⟨⟨w₁, next⟩, hbind, m, hmerge, h⟩ := h
    obtain ⟨hs, hscoped⟩ := hrest s mem_cons_self
    have hstep := bind_refines hsub hapart hs hscoped hempty hbind
    rw [← calleeDeps_agree hagree hapart s] at hstep
    simp only [depRest, hstep, bind_eq_bind, bind_some, hmerge]
    refine bindRest_refines hvisit hsub hapart (fun s' hs' => hrest s' (mem_cons_of_mem _ hs'))
      (hempty.frame hscoped fun v hv => bind_frame hvisit hbind hv) (fun v hv => ?_) h
    rw [hagree v hv, bind_frame hvisit hbind (hv s hs)]

theorem visitEqn_refines (hvisit : Frames visit) (hsub : Refines const visit sub)
    (hapart : OperandsApart e) (hscoped : ∀ s ∈ e.subs, WellScoped const s)
    (hempty : ConstEmpty const w.deps) (h : visitEqn order visit e w = some w') :
    ∃ (w₁ : Walk) (outs : List Deps), depEqn sub e w.deps = some outs ∧
      assign e.outvars outs w₁.deps = some w'.deps ∧
      ∀ v, Outside e v → w₁.deps v = w.deps v := by
  unfold visitEqn at h
  unfold depEqn
  split at h
  · simp only [visitScan, Option.bind_eq_bind, Option.bind_eq_some_iff] at h
    obtain ⟨⟨nConsts, nCarry⟩, hcounts, body, hbody, ⟨w₁, c, o⟩, hloop, h⟩ := h
    have hmem := Eqn.mem_subs_of_body hbody
    have hdeps := carryFixpoint_refines hvisit hsub (hscoped body hmem) hempty hloop
    refine ⟨w₁, c ++ o.drop nCarry, ?_, record_deps h, fun v hv =>
      carryRounds_frame hvisit (hv body hmem) _ hloop⟩
    rw [if_pos ‹_›]
    simp [depScan, hcounts, hbody, hdeps]
  · rw [if_neg ‹_›]
    split at h
    · simp only [visitWhile, Option.bind_eq_bind, Option.bind_eq_some_iff] at h
      obtain ⟨nCond, hnCond, nBody, hnBody, body, hbody, cond, hcond, ⟨w₁, c, o⟩, hloop,
        ⟨w₂, o₂⟩, hseed, h⟩ := h
      have hmem := Eqn.mem_subs_of_body hbody
      have hmem' := Eqn.mem_subs_of_body hcond
      have hframe : ∀ v, ¬ Binds body v → w₁.deps v = w.deps v :=
        fun v hv => carryRounds_frame hvisit hv _ hloop
      have hdeps := carryFixpoint_refines hvisit hsub (hscoped body hmem) hempty hloop
      have hdecide := seed_refines hsub (hscoped cond hmem') hseed
        (hempty.frame (hscoped body hmem) hframe)
      refine ⟨w₂, _, ?_, record_deps h, fun v hv => ?_⟩
      · rw [if_pos ‹_›]
        simp [depWhile, hnCond, hnBody, hbody, hcond, hdeps, hdecide]
      · rw [seed_frame hvisit hseed (hv cond hmem'), hframe v (hv body hmem)]
    · rw [if_neg ‹_›]
      cases hsubs : e.subs with
      | nil =>
        rw [hsubs] at h
        exact ⟨w, _, rfl, record_deps h, fun _ _ => rfl⟩
      | cons first rest =>
        rw [hsubs] at h
        simp only [visitCall, Option.bind_eq_bind, Option.bind_eq_some_iff] at h
        obtain ⟨⟨w₁, m⟩, hbind, ⟨w₂, r⟩, hrest, h⟩ := h
        have hmem : ∀ s, s ∈ first :: rest → s ∈ e.subs := fun s hs => hsubs ▸ hs
        have hfirst := hscoped first (hmem first List.mem_cons_self)
        have hframe : ∀ v, Outside e v → w₁.deps v = w.deps v :=
          fun v hv => bind_frame hvisit hbind (hv first (hmem first List.mem_cons_self))
        have hframe' : ∀ v, Outside e v → w₂.deps v = w.deps v := by
          intro v hv
          rw [bindRest_frame hvisit
            (fun s hs => hv s (hmem s (List.mem_cons_of_mem _ hs))) hrest, hframe v hv]
        have hm := bind_refines hsub hapart (hmem first List.mem_cons_self) hfirst hempty hbind
        have hr : depRest sub e w.deps rest m = some r := bindRest_refines hvisit hsub hapart
          (fun s hs => ⟨hmem s (List.mem_cons_of_mem _ hs),
            hscoped s (hmem s (List.mem_cons_of_mem _ hs))⟩)
          (hempty.frame hfirst fun v hv => bind_frame hvisit hbind hv)
          (fun v hv => (hframe v hv).symm) hrest
        refine ⟨w₂, _, ?_, record_deps h, hframe'⟩
        -- the operands that no callee is given still have the sets they had
        have hextra : extraDeps e (first :: rest) w.deps = extraDeps e (first :: rest) w₂.deps :=
          congrArg unionAll (map_depOf_agree (fun v hv => (hframe' v hv).symm)
            fun a ha => hapart a (List.mem_of_mem_filter ha))
        simp only [depCall, hm, hr, Option.bind_eq_bind, Option.bind_some, Option.pure_def, hextra]
        rfl

theorem visitEqns_refines (hvisit : Frames visit) (hsub : Refines const visit sub)
    (hj : WellScoped const j) : ∀ {es : List (Eqn Jaxpr)} {known : Nat → Prop}
    {env : Nat → Deps} {w w' : Walk}, (∀ e ∈ es, e ∈ j.eqns) →
    (∀ v, known v → const v ∨ BindsHere j v) → ReadsKnown j.outvars known es →
    ConstEmpty const w.deps → (∀ v, known v → env v = w.deps v) →
    visitEqns order visit es w = some w' →
    ∃ env', depEqns sub es env = some env' ∧
      j.outvars.map (depOf env') = j.outvars.map (depOf w'.deps)
  | [], _, env, _, _, _, _, hreads, _, hagree, h => by
    obtain rfl := some.inj h
    exact ⟨env, rfl, map_depOf_agree hagree hreads⟩
  | e :: es, known, env, w, w', hes, hknown, hreads, hempty, hagree, h => by
    obtain ⟨-, hfresh, -, hnotHere, hnested⟩ := id hj
    obtain ⟨hinvars, hreads⟩ := hreads
    simp only [visitEqns, bind_eq_bind, bind_eq_some_iff] at h
    obtain ⟨w₁, hw₁, h⟩ := h
    have he := hes e mem_cons_self
    -- what is known is not bound in a program nested in this one
    have houtside : ∀ v, known v → Outside e v := by
      intro v hv s hs hbinds
      rcases hknown v hv with hconst | hhere
      · exact (hnested e he s hs).not_binds hconst hbinds
      · exact hnotHere e he s hs v hbinds hhere
    have hapart : OperandsApart e := by
      intro a ha
      cases a with
      | literal l => trivial
      | var v => exact houtside v (hinvars (.var v) ha)
    obtain ⟨w₀, outs, houts, hassign, hframe⟩ :=
      visitEqn_refines hvisit hsub hapart (hnested e he) hempty hw₁
    have hcongr : depEqn sub e env = depEqn sub e w.deps := by
      have hops := map_depOf_agree hagree hinvars
      have hcallee : ∀ s, calleeDeps e s env = calleeDeps e s w.deps :=
        calleeDeps_agree hagree hinvars
      have hextra : ∀ subs, extraDeps e subs env = extraDeps e subs w.deps := fun subs =>
        congrArg unionAll (map_depOf_agree hagree fun a ha => hinvars a (mem_of_mem_filter ha))
      have hrest : ∀ rest m, depRest sub e env rest m = depRest sub e w.deps rest m := by
        intro rest
        induction rest with
        | nil => intro m; rfl
        | cons s rest ih => intro m; simp only [depRest, hcallee, ih]
      simp only [depEqn, depCall, hops, hcallee, hextra, hrest]
    have hagree₀ : ∀ v, known v → env v = w₀.deps v := by
      intro v hv
      rw [hagree v hv, hframe v (houtside v hv)]
    obtain ⟨env₁, henv₁, hagree₁⟩ := assign_agree hagree₀ hassign
    have hempty₁ : ConstEmpty const w₁.deps := by
      intro c hc
      rw [assign_frame hassign fun hmem => hfresh c (Or.inr ⟨e, he, hmem⟩) hc,
        hframe c fun s hs => (hnested e he s hs).not_binds hc, hempty c hc]
    obtain ⟨env', henv', hout⟩ := visitEqns_refines hvisit hsub hj
      (fun e' he' => hes e' (mem_cons_of_mem _ he'))
      (fun v hv => by
        rcases hv with hv | hv
        · exact hknown v hv
        · exact Or.inr (Or.inr ⟨e, he, hv⟩)) hreads hempty₁ hagree₁ h
    refine ⟨env', ?_, hout⟩
    simp only [depEqns, hcongr, houts, bind_eq_bind, bind_some, henv₁, henv']

/-- **A visit finds what `dependence` says.** -/
theorem visit_refines (const : Nat → Prop) (order : Nat → Option Nat) :
    ∀ n, Refines const (Dependence.visit order n) (dependence n)
  | 0 => fun _ _ _ _ _ _ _ _ _ h => absurd h (by simp [Dependence.visit])
  | n + 1 => by
    intro j w w' inDeps env hj hempty hassign hagree h
    obtain ⟨hconst, hfresh, hreads, -, -⟩ := id hj
    have hknown : ∀ v, v ∈ j.constvars ∨ v ∈ j.invars → env v = w.deps v := by
      rintro v (hv | hv)
      · rw [hempty v (hconst v hv)]
        exact assign_frame hassign fun hmem => hfresh v (Or.inl hmem) (hconst v hv)
      · exact hagree v hv
    have hhere : ∀ v, v ∈ j.constvars ∨ v ∈ j.invars → const v ∨ BindsHere j v := by
      rintro v (hv | hv)
      · exact Or.inl (hconst v hv)
      · exact Or.inr (Or.inl hv)
    obtain ⟨env', henv', hout⟩ := visitEqns_refines (visit_frame order n)
      (visit_refines const order n) hj (fun _ he => he) hhere hreads hempty hknown h
    simp only [dependence, hassign, henv', Option.bind_eq_bind, Option.bind_some,
      Option.pure_def, hout]

end Refine

/-- **The outputs of a trace are those of `dependence`**, each input depending on itself. -/
theorem outputs_eq_dependence {n : Nat} {j : Jaxpr} (hj : j.WellFormed) {r : InputDependence}
    (h : traceInputDependence n j = some r) :
    dependence n j ((List.range j.invars.length).map fun i => {i}) = some r.outputs := by
  simp only [traceInputDependence, initialDeps, Option.bind_eq_bind, Option.pure_def,
    Option.bind_eq_some_iff, Option.some.injEq] at h
  obtain ⟨deps, hassign, w, hw, rfl⟩ := h
  refine visit_refines _ _ n j _ w _ deps hj (fun c hc => ?_) hassign (fun _ _ => rfl) hw
  exact assign_frame hassign fun hmem => hc (Binds.invar hmem)

end Xtrax.Dependence
