import Xtrax.DependenceRefines

/-!
# What does not depend on an input does not change with it

Two runs of a program on arguments that differ in one input, index `i`, agree on every value
whose set does not have `i` (`dependence_sound`).  Loops keep the promise from one iteration to
the next because the carries' sets have settled; the predicate of a `while` decides how often it
runs, and its inputs are in the set of every output.

Two kinds of equations break it.

* An equation that carries a jaxpr for another purpose than to call it is taken for a call,
  and its operands count only as far as that jaxpr makes use of them.
* The operands no branch is given are found by identity: a predicate that is also the operand
  of a branch is not among them.
-/

namespace Xtrax.Dependence

open List Option

variable {V : Type} {outvars : List Atom} {invars : List Nat} {e : Eqn Jaxpr} {i : Nat}

/-! ### Values that agree where nothing is promised otherwise -/

/-- Two lists of values agree wherever the set does not have `i`. -/
inductive Agrees (i : Nat) : List Deps → List V → List V → Prop
  | nil : Agrees i [] [] []
  | cons {d : Deps} {ds : List Deps} {x y : V} {xs ys : List V} :
      (i ∉ d → x = y) → Agrees i ds xs ys → Agrees i (d :: ds) (x :: xs) (y :: ys)

namespace Agrees

variable {i : Nat} {ds es : List Deps} {xs ys : List V}

theorem lengths (h : Agrees i ds xs ys) : xs.length = ds.length ∧ ys.length = ds.length := by
  induction h with
  | nil => exact ⟨rfl, rfl⟩
  | cons _ _ ih => exact ⟨congrArg Nat.succ ih.1, congrArg Nat.succ ih.2⟩

theorem append {xs' ys' : List V} (h : Agrees i ds xs ys) (h' : Agrees i es xs' ys') :
    Agrees i (ds ++ es) (xs ++ xs') (ys ++ ys') := by
  induction h with
  | nil => exact h'
  | cons hxy _ ih => exact cons hxy ih

theorem take (h : Agrees i ds xs ys) (n : Nat) : Agrees i (ds.take n) (xs.take n) (ys.take n) := by
  induction h generalizing n with
  | nil => simpa using nil
  | cons hxy _ ih =>
    cases n with
    | zero => exact nil
    | succ n => exact cons hxy (ih n)

theorem drop (h : Agrees i ds xs ys) (n : Nat) : Agrees i (ds.drop n) (xs.drop n) (ys.drop n) := by
  induction h generalizing n with
  | nil => simpa using nil
  | cons hxy hrest ih =>
    cases n with
    | zero => exact cons hxy hrest
    | succ n => exact ih n

theorem mono (h : Agrees i ds xs ys) (hsub : List.Forall₂ (· ⊆ ·) ds es) : Agrees i es xs ys := by
  induction h generalizing es with
  | nil =>
    cases hsub
    exact nil
  | cons hxy _ ih =>
    cases hsub with
    | cons hd hrest => exact cons (fun hi => hxy fun hmem => hi (hd hmem)) (ih hrest)

theorem eq_of_notMem (h : Agrees i ds xs ys) (hi : i ∉ unionAll ds) : xs = ys := by
  induction h with
  | nil => rfl
  | cons hxy _ ih =>
    rw [unionAll, foldr_cons, Finset.mem_union, not_or] at hi
    rw [hxy hi.1, ih hi.2]

theorem of_eq : ∀ {ds : List Deps} {xs : List V}, xs.length = ds.length → Agrees i ds xs xs
  | [], [], _ => nil
  | _ :: _, _ :: _, h => cons (fun _ => rfl) (of_eq (Nat.succ.inj h))

theorem of_mem : ∀ {ds : List Deps} {xs ys : List V}, (∀ d ∈ ds, i ∈ d) →
    xs.length = ds.length → ys.length = ds.length → Agrees i ds xs ys
  | [], [], [], _, _, _ => nil
  | d :: _, _ :: _, _ :: _, hi, hxs, hys =>
    cons (fun hd => absurd (hi d mem_cons_self) hd)
      (of_mem (fun e he => hi e (mem_cons_of_mem _ he)) (Nat.succ.inj hxs) (Nat.succ.inj hys))

theorem get (h : Agrees i ds xs ys) {k : Nat} {d : Deps} (hd : ds[k]? = some d) (hi : i ∉ d) :
    xs[k]? = ys[k]? := by
  induction h generalizing k with
  | nil => rfl
  | cons hxy _ ih =>
    cases k with
    | zero =>
      obtain rfl := some.inj hd
      exact congrArg some (hxy hi)
    | succ k => exact ih hd

theorem map (h : Agrees i ds xs ys) (f : V → V) : Agrees i ds (xs.map f) (ys.map f) := by
  induction h with
  | nil => exact nil
  | cons hxy _ ih => exact cons (fun hi => congrArg f (hxy hi)) ih

end Agrees

/-! ### Environments -/

/-- Two runs' environments agree on every variable whose set does not have `i`. -/
def EnvAgrees (i : Nat) (deps : Nat → Deps) (env env' : Nat → Option V) : Prop :=
  ∀ v x y, env v = some x → env' v = some y → i ∉ deps v → x = y

theorem EnvAgrees.assign {vs : List Nat} : ∀ {ds : List Deps} {xs ys : List V}
    {deps deps' : Nat → Deps} {env env' r r' : Nat → Option V}, EnvAgrees i deps env env' →
    Agrees i ds xs ys → assign vs ds deps = some deps' →
    assign vs (xs.map some) env = some r → assign vs (ys.map some) env' = some r' →
    EnvAgrees i deps' r r' := by
  induction vs with
  | nil =>
    intro ds xs ys deps deps' env env' r r' henv hvals hdeps hr hr'
    cases hvals with
    | nil =>
      obtain rfl := some.inj hdeps
      obtain rfl := some.inj hr
      obtain rfl := some.inj hr'
      exact henv
    | cons _ _ => exact absurd hdeps (by simp [Dependence.assign])
  | cons v vs ih =>
    intro ds xs ys deps deps' env env' r r' henv hvals hdeps hr hr'
    cases hvals with
    | nil => exact absurd hdeps (by simp [Dependence.assign])
    | cons hxy hrest =>
      refine ih ?_ hrest hdeps hr hr'
      intro u a b ha hb hi
      by_cases huv : u = v
      · rw [huv, Function.update_self] at ha hb hi
        rw [← some.inj ha, ← some.inj hb]
        exact hxy hi
      · rw [Function.update_of_ne huv] at ha hb hi
        exact henv u a b ha hb hi

theorem EnvAgrees.readAll {I : Interp V} {deps : Nat → Deps} {env env' : Nat → Option V}
    (h : EnvAgrees i deps env env') : ∀ {as : List Atom} {xs ys : List V},
    readAll I env as = some xs → readAll I env' as = some ys →
    Agrees i (as.map (depOf deps)) xs ys
  | [], _, _, hxs, hys => by
    obtain rfl := Option.some.inj hxs
    obtain rfl := Option.some.inj hys
    exact Agrees.nil
  | a :: as, _, _, hxs, hys => by
    simp only [Dependence.readAll, Option.bind_eq_bind, Option.pure_def, Option.bind_eq_some_iff,
      Option.some.injEq] at hxs hys
    obtain ⟨x, hx, xs, hxs, rfl⟩ := hxs
    obtain ⟨y, hy, ys, hys, rfl⟩ := hys
    refine Agrees.cons (fun hi => ?_) (h.readAll hxs hys)
    cases a with
    | literal l => exact Option.some.inj (hx.symm.trans hy)
    | var v => exact h v x y hx hy hi

/-! ### Equations that the walk takes for what they are -/

/-- An equation of a program or of one nested in it. -/
inductive Jaxpr.Carries : Jaxpr → Eqn Jaxpr → Prop
  | here {j : Jaxpr} {e : Eqn Jaxpr} : e ∈ j.eqns → Carries j e
  | nested {j : Jaxpr} {e e' : Eqn Jaxpr} {s : Jaxpr} :
      e' ∈ j.eqns → s ∈ e'.subs → Carries s e → Carries j e

/-- The predicate is not one of the operands that the branches are given. -/
def Eqn.PredicateApart (e : Eqn Jaxpr) : Prop :=
  ∀ v args, e.invars = .var v :: args → .var v ∉ args

/-- What an equation carries jaxprs for is what the walk takes it for. -/
def Eqn.Followed (role : String → Role) (e : Eqn Jaxpr) : Prop :=
  e.subs ≠ [] → e.primitive ≠ "scan" → e.primitive ≠ "while" →
    role e.primitive = .call ∨ (role e.primitive = .cond ∧ e.PredicateApart)

def Jaxpr.Followed (role : String → Role) (j : Jaxpr) : Prop :=
  ∀ e, j.Carries e → e.Followed role

/-! ### Loops -/

section Eqn

variable {I : Interp V} {i : Nat} {f f' : List V → Option (List V)}

theorem scanLoop_agrees {c o lead tail : List Deps} {consts consts' xs xs' : List V}
    (hbody : ∀ args args' outs outs', Agrees i (lead ++ c ++ tail) args args' →
      f args = some outs → f' args' = some outs' → Agrees i o outs outs')
    (hsettled : grow c o = some c) (hconsts : Agrees i lead consts consts')
    (hxs : Agrees i tail xs xs') : ∀ {ts : List Nat} {carry carry' final final' : List V}
    {yss yss' : List (List V)}, Agrees i c carry carry' →
    scanLoop I f consts xs ts carry = some (final, yss) →
    scanLoop I f' consts' xs' ts carry' = some (final', yss') →
    Agrees i c final final' ∧ List.Forall₂ (Agrees i (o.drop c.length)) yss yss'
  | [], _, _, _, _, _, _, hcarry, h, h' => by
    cases h
    cases h'
    exact ⟨hcarry, List.Forall₂.nil⟩
  | t :: ts, carry, carry', _, _, _, _, hcarry, h, h' => by
    simp only [scanLoop, Option.bind_eq_bind, Option.bind_eq_some_iff] at h h'
    obtain ⟨outs, houts, h⟩ := h
    obtain ⟨outs', houts', h'⟩ := h'
    rw [Option.ite_none_right_eq_some] at h h'
    obtain ⟨-, h⟩ := h
    obtain ⟨-, h'⟩ := h'
    simp only [Option.bind_eq_some_iff, Option.pure_def, Option.some.injEq, Prod.mk.injEq] at h h'
    obtain ⟨⟨final₁, yss₁⟩, hrest, rfl, rfl⟩ := h
    obtain ⟨⟨final₁', yss₁'⟩, hrest', rfl, rfl⟩ := h'
    have hstep := hbody _ _ _ _ ((hconsts.append hcarry).append (hxs.map fun x => I.slice x t))
      houts houts'
    obtain ⟨hlen, hlen'⟩ := hcarry.lengths
    rw [hlen] at hrest ⊢
    rw [hlen'] at hrest' ⊢
    have hnext : Agrees i c (outs.take c.length) (outs'.take c.length) :=
      (hstep.take c.length).mono (subset_of_settled hsettled)
    obtain ⟨hfinal, hyss⟩ := scanLoop_agrees hbody hsettled hconsts hxs hnext hrest hrest'
    exact ⟨hfinal, List.Forall₂.cons (hstep.drop c.length) hyss⟩

theorem agrees_map_range : ∀ {ds : List Deps} {g h : Nat → V},
    (∀ k d, ds[k]? = some d → i ∉ d → g k = h k) →
    Agrees i ds ((List.range ds.length).map g) ((List.range ds.length).map h)
  | [], _, _, _ => Agrees.nil
  | d :: ds, g, h, hgh => by
    rw [List.length_cons, List.range_succ_eq_map, List.map_cons, List.map_cons, List.map_map,
      List.map_map]
    exact Agrees.cons (hgh 0 d rfl) (agrees_map_range fun k d hd hi => hgh (k + 1) d hd hi)

theorem stackAll_agrees {ds : List Deps} {yss yss' : List (List V)}
    (h : List.Forall₂ (Agrees i ds) yss yss') :
    Agrees i ds (stackAll I ds.length yss) (stackAll I ds.length yss') := by
  refine agrees_map_range fun k d hd hi => congrArg I.stack ?_
  induction h with
  | nil => rfl
  | cons hys _ ih => rw [filterMap_cons, filterMap_cons, hys.get hd hi, ih]

theorem length_whileLoop {cond body : List V → Option (List V)} {cc bc : List V} (k : Nat) :
    ∀ {carry final : List V}, whileLoop I cond body cc bc k carry = some final →
      final.length = carry.length := by
  induction k with
  | zero => exact fun h => absurd h (by simp [whileLoop])
  | succ k ih =>
    intro carry final h
    simp only [whileLoop, bind_eq_bind, bind_eq_some_iff] at h
    obtain ⟨decision, -, b, -, h⟩ := h
    split at h
    · obtain ⟨next, -, h⟩ := bind_eq_some_iff.mp h
      rw [ite_none_right_eq_some] at h
      rw [ih h.2, h.1]
    · rw [some.inj h]

/-- Two runs of a `while` whose predicate gets the same values run equally often, and keep the
promise of settled carries. -/
theorem whileLoop_agrees {g g' : List V → Option (List V)} {c o lead ccDeps : List Deps}
    {cc cc' bc bc' : List V}
    (hbody : ∀ args args' outs outs', Agrees i (lead ++ c ++ []) args args' →
      f args = some outs → f' args' = some outs' → Agrees i o outs outs')
    (hcond : ∀ args outs outs', args.length = (ccDeps ++ c).length → g args = some outs →
      g' args = some outs' → outs = outs')
    (hsettled : grow c o = some c) (hcc : Agrees i ccDeps cc cc') (hbc : Agrees i lead bc bc')
    (htrips : i ∉ unionAll (ccDeps ++ c)) : ∀ (k k' : Nat) {carry carry' final final' : List V},
    Agrees i c carry carry' → whileLoop I g f cc bc k carry = some final →
    whileLoop I g' f' cc' bc' k' carry' = some final' → Agrees i c final final'
  | 0, _, _, _, _, _, _, h, _ => absurd h (by simp [whileLoop])
  | _ + 1, 0, _, _, _, _, _, _, h' => absurd h' (by simp [whileLoop])
  | k + 1, k' + 1, carry, carry', _, _, hcarry, h, h' => by
    simp only [whileLoop, bind_eq_bind, bind_eq_some_iff] at h h'
    obtain ⟨decision, hdecision, b, hb, h⟩ := h
    obtain ⟨decision', hdecision', b', hb', h'⟩ := h'
    have hvalues := hcc.append hcarry
    -- the predicate is given the same values, so it decides the same
    rw [← hvalues.eq_of_notMem htrips] at hdecision'
    obtain rfl := hcond _ _ _ hvalues.lengths.1 hdecision hdecision'
    obtain rfl := some.inj (hb.symm.trans hb')
    split at h
    · rw [if_pos ‹_›] at h'
      obtain ⟨next, hnext, h⟩ := bind_eq_some_iff.mp h
      obtain ⟨next', hnext', h'⟩ := bind_eq_some_iff.mp h'
      rw [ite_none_right_eq_some] at h h'
      have hstep := hbody _ _ _ _ ((hbc.append hcarry).append Agrees.nil)
        (by rwa [append_nil]) (by rwa [append_nil])
      have hlen : o.length = c.length := by rw [← hstep.lengths.1, h.1, hcarry.lengths.1]
      have hsub := subset_of_settled hsettled
      rw [← hlen, take_length] at hsub
      exact whileLoop_agrees hbody hcond hsettled hcc hbc htrips k k' (hstep.mono hsub) h.2 h'.2
    · rw [if_neg ‹_›] at h'
      obtain rfl := some.inj h
      obtain rfl := some.inj h'
      exact hcarry

end Eqn

/-! ### Calls and branches -/

/-- What the inputs of a callee are given: nothing for the constants it was closed over, and
the last operands' sets. -/
theorem calleeDeps_eq (e : Eqn Jaxpr) (s : Jaxpr) (env : Nat → Deps) :
    calleeDeps e s env =
      (s.invars.take (s.invars.length - e.invars.length)).map (fun _ => ∅) ++
        (e.invars.map (depOf env)).drop (e.invars.length - s.invars.length) := by
  have hzip : ∀ (vs : List Nat) (as : List Atom), vs.length = as.length →
      (vs.zip (as.map some)).map (fun p => p.2.elim ∅ (depOf env)) = as.map (depOf env) := by
    intro vs as hlen
    have hsnd : (vs.zip (as.map some)).map (fun p => p.2.elim ∅ (depOf env)) =
        ((vs.zip (as.map some)).map Prod.snd).map fun a => a.elim ∅ (depOf env) := by
      rw [List.map_map]
      rfl
    rw [hsnd, List.map_snd_zip (by simp [hlen]), List.map_map]
    rfl
  unfold calleeDeps alignCallInvars
  split
  · have hle : s.invars.length - e.invars.length = 0 := by omega
    rw [hzip _ _ (by rw [List.length_drop]; omega), hle, List.take_zero, List.map_nil,
      List.nil_append, List.map_drop]
  · have hle : e.invars.length - s.invars.length = 0 := by omega
    rw [List.map_append, List.map_map, hzip _ _ (by rw [List.length_drop]; omega), hle,
      List.drop_zero]
    rfl

theorem calleeArgs_agrees {I : Interp V} {s : Jaxpr} {env : Nat → Deps} {ops ops' : List V}
    (hops : Agrees i (e.invars.map (depOf env)) ops ops') :
    Agrees i (calleeDeps e s env) (calleeArgs I s ops) (calleeArgs I s ops') := by
  obtain ⟨hlen, hlen'⟩ := hops.lengths
  rw [length_map] at hlen hlen'
  rw [calleeDeps_eq, calleeArgs, calleeArgs, hlen, hlen']
  exact (Agrees.of_eq (by simp)).append (hops.drop _)

theorem merge_subset {s t r : List Deps} (h : merge s t = some r) :
    List.Forall₂ (· ⊆ ·) s r ∧ List.Forall₂ (· ⊆ ·) t r := by
  obtain ⟨hlen, rfl⟩ := merge_eq_some h
  clear h
  induction s generalizing t with
  | nil =>
    obtain rfl := length_eq_zero_iff.mp hlen.symm
    exact ⟨List.Forall₂.nil, List.Forall₂.nil⟩
  | cons a s ih =>
    cases t with
    | nil => exact absurd hlen (by simp)
    | cons b t =>
      obtain ⟨hs, ht⟩ := ih (by simpa using hlen)
      exact ⟨List.Forall₂.cons Finset.subset_union_left hs,
        List.Forall₂.cons Finset.subset_union_right ht⟩

section Calls

variable {sub : Jaxpr → List Deps → Option (List Deps)} {e : Eqn Jaxpr} {env : Nat → Deps}

theorem depRest_subset : ∀ {rest : List Jaxpr} {m r : List Deps},
    depRest sub e env rest m = some r → List.Forall₂ (· ⊆ ·) m r ∧
      ∀ s ∈ rest, ∃ o, sub s (calleeDeps e s env) = some o ∧ List.Forall₂ (· ⊆ ·) o r
  | [], m, _, h => by
    obtain rfl := some.inj h
    exact ⟨forall₂_refl m, nofun⟩
  | s :: rest, _, _, h => by
    simp only [depRest, bind_eq_bind, bind_eq_some_iff] at h
    obtain ⟨o, ho, m', hmerge, h⟩ := h
    obtain ⟨hm, hrest⟩ := depRest_subset h
    obtain ⟨hleft, hright⟩ := merge_subset hmerge
    refine ⟨forall₂_subset_trans hleft hm, fun t ht => ?_⟩
    rcases mem_cons.mp ht with rfl | ht
    · exact ⟨o, ho, forall₂_subset_trans hright hm⟩
    · exact hrest t ht

theorem depCall_subset {first : Jaxpr} {rest : List Jaxpr} {outs : List Deps}
    (h : depCall sub e first rest env = some outs) :
    (∀ s ∈ first :: rest, ∃ o, sub s (calleeDeps e s env) = some o ∧ List.Forall₂ (· ⊆ ·) o outs) ∧
      ∀ d ∈ outs, extraDeps e (first :: rest) env ⊆ d := by
  simp only [depCall, Option.bind_eq_bind, Option.pure_def, Option.bind_eq_some_iff,
    Option.some.injEq] at h
  obtain ⟨m, hm, r, hr, rfl⟩ := h
  obtain ⟨hmr, hrest⟩ := depRest_subset hr
  have hmap : List.Forall₂ (· ⊆ ·) r (r.map (· ∪ extraDeps e (first :: rest) env)) := by
    clear hr hmr hrest
    induction r with
    | nil => exact List.Forall₂.nil
    | cons d r ih => exact List.Forall₂.cons Finset.subset_union_left ih
  constructor
  · intro s hs
    rcases List.mem_cons.mp hs with rfl | hs
    · exact ⟨m, hm, forall₂_subset_trans hmr hmap⟩
    · obtain ⟨o, ho, hor⟩ := hrest s hs
      exact ⟨o, ho, forall₂_subset_trans hor hmap⟩
  · intro d hd
    obtain ⟨d', -, rfl⟩ := List.mem_map.mp hd
    exact Finset.subset_union_right

end Calls

theorem mem_drop_of_mem_alignCallInvars {outer : List Atom} {inner : List Nat} {v : Nat}
    {a : Atom} (hle : inner.length ≤ outer.length) (h : (v, some a) ∈ alignCallInvars outer inner) :
    a ∈ outer.drop (outer.length - inner.length) := by
  rw [alignCallInvars, if_pos hle] at h
  obtain ⟨b, hb, heq⟩ := mem_map.mp (of_mem_zip h).2
  obtain rfl := some.inj heq
  exact hb

theorem depOf_predicate_subset (hapart : e.PredicateApart) {a : Atom} {as : List Atom}
    (he : e.invars = a :: as) {subs : List Jaxpr} (hsubs : ∀ s ∈ subs, s.invars.length = as.length)
    (env : Nat → Deps) : depOf env a ⊆ extraDeps e subs env := by
  cases a with
  | literal l => exact Finset.empty_subset _
  | var v =>
    intro i hi
    refine mem_unionAll.mpr ⟨_, mem_map.mpr ⟨.var v, ?_, rfl⟩, hi⟩
    rw [mem_filter, decide_eq_true_eq]
    refine ⟨by rw [he]; exact mem_cons_self, fun hpaired => ?_⟩
    obtain ⟨s, hs, hmem⟩ := mem_flatMap.mp hpaired
    obtain ⟨⟨u, b⟩, hpair, rfl⟩ := mem_filterMap.mp hmem
    have hlen := hsubs s hs
    rw [he] at hpair
    have hdrop := mem_drop_of_mem_alignCallInvars (by rw [hlen, length_cons]; omega) hpair
    rw [hlen, length_cons, Nat.add_sub_cancel_left] at hdrop
    exact hapart v as he hdrop

/-! ### Equations and programs -/

/-- A program's function and what is said of its outputs' sets: two runs on values that agree
end with values that agree. -/
def SoundAt (i : Nat) (sub : List Deps → Option (List Deps)) (f f' : List V → Option (List V)) :
    Prop :=
  ∀ ds outs xs xs' ys ys', sub ds = some outs → Agrees i ds xs xs' → f xs = some ys →
    f' xs' = some ys' → Agrees i outs ys ys'

/-- Two runs on the same values end with the same values: no output depends on an index that
is in no set. -/
theorem SoundAt.eq_of_eq {sub : List Deps → Option (List Deps)} {f f' : List V → Option (List V)}
    (h : ∀ i, SoundAt i sub f f') {ds outs : List Deps} {xs ys ys' : List V}
    (hsub : sub ds = some outs) (hlen : xs.length = ds.length) (hf : f xs = some ys)
    (hf' : f' xs = some ys') : ys = ys' := by
  obtain ⟨i, hi⟩ := Infinite.exists_notMem_finset (unionAll outs)
  exact (h i ds outs xs xs ys ys' hsub (Agrees.of_eq hlen) hf hf').eq_of_notMem hi

section Eqn

variable {role : String → Role} {I : Interp V} {i : Nat} {xs xs' ys ys' : List V} {e : Eqn Jaxpr}
variable {n : Nat} {eval eval' : Jaxpr → List V → Option (List V)} {m m' : Nat}

theorem length_dependence {j : Jaxpr} {ds outs : List Deps} (h : dependence n j ds = some outs) :
    outs.length = j.outvars.length := by
  cases n with
  | zero => exact absurd h (by simp [dependence])
  | succ n =>
    simp only [dependence, Option.bind_eq_bind, Option.pure_def, Option.bind_eq_some_iff,
      Option.some.injEq] at h
    obtain ⟨_, -, _, -, rfl⟩ := h
    rw [List.length_map]

theorem loopDeps_length {body : Jaxpr} {lead carry tail c o : List Deps}
    (h : loopDeps (dependence n) body lead carry tail = some (c, o)) : c.length = carry.length :=
  length_rounds _ h

theorem loopDeps_subset {body : Jaxpr} {lead carry tail c o : List Deps}
    (h : loopDeps (dependence n) body lead carry tail = some (c, o)) :
    List.Forall₂ (· ⊆ ·) carry c := subset_rounds _ h

theorem depScan_sound (hsub : ∀ s ∈ e.subs, ∀ i, SoundAt i (dependence n s) (eval s) (eval' s))
    {ops outs : List Deps} (hdeps : depScan (dependence n) e ops = some outs)
    (hops : Agrees i ops xs xs') (h : evalScan I eval e xs = some ys)
    (h' : evalScan I eval' e xs' = some ys') : Agrees i outs ys ys' := by
  simp only [depScan, evalScan, Option.bind_eq_bind, Option.pure_def, Option.bind_eq_some_iff,
    Option.some.injEq] at hdeps h h'
  obtain ⟨⟨nConsts, nCarry⟩, hcounts, body, hbody, ⟨c, o⟩, hloop, rfl⟩ := hdeps
  simp only [hcounts, hbody, Option.some.injEq, exists_eq_left'] at h h'
  obtain ⟨length, hlength, h⟩ := h
  obtain ⟨length', hlength', h'⟩ := h'
  obtain rfl := Option.some.inj (hlength.symm.trans hlength')
  rw [Option.ite_none_right_eq_some] at h h'
  obtain ⟨hcount, h⟩ := h
  obtain ⟨-, h'⟩ := h'
  simp only [Option.bind_eq_some_iff, Option.some.injEq] at h h'
  obtain ⟨⟨final, yss⟩, hrun, rfl⟩ := h
  obtain ⟨⟨final', yss'⟩, hrun', rfl⟩ := h'
  obtain ⟨hdep, hsettled⟩ := loopDeps_settled hloop
  -- the carries have as many slots as the equation says
  have hc : c.length = nCarry := by
    rw [loopDeps_length hloop, List.length_take, List.length_drop]
    have hlen := hops.lengths.1
    omega
  have hstart : Agrees i c ((xs.drop nConsts).take nCarry) ((xs'.drop nConsts).take nCarry) :=
    ((hops.drop nConsts).take nCarry).mono (loopDeps_subset hloop)
  obtain ⟨hfinal, hyss⟩ := scanLoop_agrees
    (fun args args' outs outs' hargs hf hf' => hsub body (Eqn.mem_subs_of_body hbody) i _ _ _ _ _ _
      hdep hargs hf hf') hsettled (hops.take nConsts) (hops.drop (nConsts + nCarry)) hstart hrun hrun'
  have hstack : body.outvars.length - nCarry = (o.drop c.length).length := by
    rw [List.length_drop, length_dependence hdep, hc]
  rw [hstack, ← hc]
  refine hfinal.append (stackAll_agrees ?_)
  split
  · exact List.forall₂_reverse_iff.mpr hyss
  · exact hyss

theorem depWhile_sound (hsub : ∀ s ∈ e.subs, ∀ i, SoundAt i (dependence n s) (eval s) (eval' s))
    {ops outs : List Deps} (hdeps : depWhile (dependence n) e ops = some outs)
    (hops : Agrees i ops xs xs') (h : evalWhile I eval m e xs = some ys)
    (h' : evalWhile I eval' m' e xs' = some ys') : Agrees i outs ys ys' := by
  simp only [depWhile, evalWhile, Option.bind_eq_bind, Option.pure_def, Option.bind_eq_some_iff,
    Option.some.injEq] at hdeps h h'
  obtain ⟨nCond, hnCond, nBody, hnBody, body, hbody, cond, hcond, ⟨c, o⟩, hloop, decided, hdecided,
    rfl⟩ := hdeps
  simp only [hnCond, hnBody, hbody, hcond, Option.some.injEq, exists_eq_left'] at h h'
  obtain ⟨hdep, hsettled⟩ := loopDeps_settled hloop
  have hstart : Agrees i c (xs.drop (nCond + nBody)) (xs'.drop (nCond + nBody)) :=
    (hops.drop (nCond + nBody)).mono (loopDeps_subset hloop)
  have hsubset : List.Forall₂ (· ⊆ ·) c (c.map (· ∪ unionAll (ops.take nCond ++ c))) := by
    generalize unionAll (ops.take nCond ++ c) = trips
    clear hloop hdecided hdep hsettled hstart
    induction c with
    | nil => exact List.Forall₂.nil
    | cons d c ih => exact List.Forall₂.cons Finset.subset_union_left ih
  by_cases htrips : i ∈ unionAll (ops.take nCond ++ c)
  · -- the predicate may depend on the input, and then every output does
    refine Agrees.of_mem (fun d hd => ?_) ?_ ?_
    · obtain ⟨d', -, rfl⟩ := List.mem_map.mp hd
      exact Finset.mem_union_right _ htrips
    · rw [length_whileLoop _ h, List.length_map, hstart.lengths.1]
    · rw [length_whileLoop _ h', List.length_map, hstart.lengths.2]
  · refine (whileLoop_agrees ?_ ?_ hsettled (hops.take nCond) ((hops.drop nCond).take nBody)
      htrips m m' hstart h h').mono hsubset
    · exact fun args args' outs outs' hargs hf hf' =>
        hsub body (Eqn.mem_subs_of_body hbody) i _ _ _ _ _ _ hdep hargs hf hf'
    · exact fun args outs outs' hlen hf hf' =>
        SoundAt.eq_of_eq (hsub cond (Eqn.mem_subs_of_body hcond)) hdecided hlen hf hf'

theorem evalCond_sound (hapart : e.PredicateApart) {first : Jaxpr} {rest : List Jaxpr}
    (hsub : ∀ s ∈ first :: rest, ∀ i, SoundAt i (dependence n s) (eval s) (eval' s))
    {env : Nat → Deps} {outs : List Deps}
    (hdeps : depCall (dependence n) e first rest env = some outs)
    (hops : Agrees i (e.invars.map (depOf env)) xs xs')
    (h : evalCond I eval (first :: rest) xs = some ys)
    (h' : evalCond I eval' (first :: rest) xs' = some ys') (hys : ys.length = outs.length)
    (hys' : ys'.length = outs.length) : Agrees i outs ys ys' := by
  obtain ⟨hcallees, hextra⟩ := depCall_subset hdeps
  cases hinvars : e.invars with
  | nil =>
    rw [hinvars] at hops
    cases hops with
    | nil => exact absurd h (by simp [evalCond])
  | cons a as =>
    have hall := hops
    rw [hinvars] at hops
    cases hops with
    | cons hp hargs =>
      rename_i p p' args args'
      simp only [evalCond, bind_eq_bind, bind_eq_some_iff] at h h'
      obtain ⟨branch, hbranch, h⟩ := h
      obtain ⟨branch', hbranch', h'⟩ := h'
      rw [ite_none_right_eq_some] at h h'
      obtain ⟨harity, h⟩ := h
      obtain ⟨-, h'⟩ := h'
      have hlen := hargs.lengths
      rw [length_map] at hlen
      by_cases hi : i ∈ extraDeps e (first :: rest) env
      · exact Agrees.of_mem (fun d hd => hextra d hd hi) hys hys'
      · -- both runs take the same branch
        have hsame : p = p' := hp fun hmem => hi (depOf_predicate_subset hapart hinvars
          (fun s hs => (harity s hs).trans hlen.1) env hmem)
        obtain rfl := hsame
        obtain rfl := some.inj (hbranch.symm.trans hbranch')
        have hmem := mem_of_getElem? hbranch
        obtain ⟨o, ho, hsubset⟩ := hcallees branch hmem
        have hdrop : ∀ q : V, ∀ qs : List V, qs.length = as.length →
            calleeArgs I branch (q :: qs) = qs := by
          intro q qs hqs
          have hb := (harity branch hmem).trans hlen.1
          rw [calleeArgs, hb, length_cons, hqs, Nat.add_sub_cancel_left,
            show as.length - (as.length + 1) = 0 by omega]
          rfl
        have hcall := calleeArgs_agrees (I := I) (s := branch) hall
        rw [hdrop p args hlen.1, hdrop p args' hlen.2] at hcall
        exact (hsub branch hmem i _ _ _ _ _ _ ho hcall h h').mono hsubset

/-- **An equation whose jaxprs are what the walk takes them for keeps the promise.** -/
theorem depEqn_sound (hfollowed : e.Followed role)
    (hsub : ∀ s ∈ e.subs, ∀ i, SoundAt i (dependence n s) (eval s) (eval' s)) {env : Nat → Deps}
    {outs : List Deps} (hdeps : depEqn (dependence n) e env = some outs)
    (hops : Agrees i (e.invars.map (depOf env)) xs xs') (h : evalEqn role I eval m e xs = some ys)
    (h' : evalEqn role I eval' m' e xs' = some ys') (hys : ys.length = outs.length)
    (hys' : ys'.length = outs.length) : Agrees i outs ys ys' := by
  unfold depEqn at hdeps
  unfold evalEqn at h h'
  split at hdeps
  · rw [if_pos ‹_›] at h h'
    exact depScan_sound hsub hdeps hops h h'
  · rw [if_neg ‹_›] at h h'
    split at hdeps
    · rw [if_pos ‹_›] at h h'
      exact depWhile_sound hsub hdeps hops h h'
    · rw [if_neg ‹_›] at h h'
      cases hsubs : e.subs with
      | nil =>
        rw [hsubs] at hdeps h h'
        obtain rfl := some.inj hdeps
        obtain rfl := some.inj h
        obtain rfl := some.inj h'
        by_cases hi : i ∈ unionAll (e.invars.map (depOf env))
        · exact Agrees.of_mem (fun d hd => (eq_of_mem_replicate hd).symm ▸ hi) hys hys'
        · rw [hops.eq_of_notMem hi] at hys ⊢
          exact Agrees.of_eq hys
      | cons first rest =>
        have hrole := hfollowed (by rw [hsubs]; exact cons_ne_nil _ _) ‹_› ‹_›
        rw [hsubs] at hdeps h h' hsub
        rcases hrole with hcall | ⟨hcond, hapart⟩
        · simp only [hcall] at h h'
          obtain ⟨hcallees, -⟩ := depCall_subset hdeps
          obtain ⟨o, ho, hsubset⟩ := hcallees first mem_cons_self
          exact (hsub first mem_cons_self i _ _ _ _ _ _ ho (calleeArgs_agrees hops) h h').mono
            hsubset
        · simp only [hcond] at h h'
          exact evalCond_sound hapart hsub hdeps hops h h' hys hys'

theorem length_assign {γ : Type} {vs : List Nat} : ∀ {xs : List γ} {env r : Nat → γ},
    assign vs xs env = some r → xs.length = vs.length := by
  induction vs with
  | nil =>
    intro xs env r h
    cases xs with
    | nil => rfl
    | cons x xs => exact absurd h (by simp [assign])
  | cons v vs ih =>
    intro xs env r h
    cases xs with
    | nil => exact absurd h (by simp [assign])
    | cons x xs => exact congrArg Nat.succ (ih h)

theorem depEqns_sound : ∀ {es : List (Eqn Jaxpr)}, (∀ e ∈ es, e.Followed role) →
    (∀ e ∈ es, ∀ s ∈ e.subs, ∀ i, SoundAt i (dependence n s) (eval s) (eval' s)) →
    ∀ {deps deps' : Nat → Deps} {env env' r r' : Nat → Option V}, EnvAgrees i deps env env' →
    depEqns (dependence n) es deps = some deps' → evalEqns role I eval m es env = some r →
    evalEqns role I eval' m' es env' = some r' → EnvAgrees i deps' r r'
  | [], _, _, _, _, _, _, _, _, henv, hdeps, h, h' => by
    obtain rfl := some.inj hdeps
    obtain rfl := some.inj h
    obtain rfl := some.inj h'
    exact henv
  | e :: es, hfollowed, hsub, _, _, _, _, _, _, henv, hdeps, h, h' => by
    simp only [depEqns, evalEqns, bind_eq_bind, bind_eq_some_iff] at hdeps h h'
    obtain ⟨outs, houts, deps₁, hassign, hdeps⟩ := hdeps
    obtain ⟨ops, hread, ys, heval, env₁, henv₁, h⟩ := h
    obtain ⟨ops', hread', ys', heval', env₁', henv₁', h'⟩ := h'
    have hlen : ∀ {zs : List V} {a b : Nat → Option V},
        assign e.outvars (zs.map some) a = some b → zs.length = outs.length := by
      intro zs a b hzs
      rw [length_assign hassign, ← length_assign hzs, length_map]
    have hstep := depEqn_sound (hfollowed e mem_cons_self) (hsub e mem_cons_self) houts
      (henv.readAll hread hread') heval heval' (hlen henv₁) (hlen henv₁')
    exact depEqns_sound (fun e' he' => hfollowed e' (mem_cons_of_mem _ he'))
      (fun e' he' => hsub e' (mem_cons_of_mem _ he'))
      (henv.assign hstep hassign henv₁ henv₁') hdeps h h'

end Eqn

/-- **Two runs of a program agree on every output whose set does not have the input they differ
in**, for any nesting, any numbers of iterations and any interpretation. -/
theorem dependence_sound {role : String → Role} (I : Interp V) : ∀ (n : Nat) (j : Jaxpr),
    j.Followed role → ∀ m m' i,
      SoundAt i (dependence n j) (evalJaxpr role I m j) (evalJaxpr role I m' j)
  | 0, _, _, _, _, _ => fun _ _ _ _ _ _ h => absurd h (by simp [dependence])
  | _ + 1, _, _, 0, _, _ => fun _ _ _ _ _ _ _ _ h => absurd h (by simp [evalJaxpr])
  | _ + 1, _, _, _ + 1, 0, _ => fun _ _ _ _ _ _ _ _ _ h => absurd h (by simp [evalJaxpr])
  | n + 1, j, hj, m + 1, m' + 1, i => by
    intro ds outs xs xs' ys ys' hdeps hxs h h'
    simp only [dependence, evalJaxpr, Option.bind_eq_bind, Option.pure_def,
      Option.bind_eq_some_iff, Option.some.injEq] at hdeps h h'
    obtain ⟨deps, hassign, deps₁, hdeps, rfl⟩ := hdeps
    obtain ⟨env, henv, r, hr, h⟩ := h
    obtain ⟨env', henv', r', hr', h'⟩ := h'
    have hconsts : EnvAgrees i (fun _ => ∅)
        (fun v => if v ∈ j.constvars then some (I.const v) else none)
        (fun v => if v ∈ j.constvars then some (I.const v) else none) :=
      fun v x y hx hy _ => Option.some.inj (hx.symm.trans hy)
    have hbind := hconsts.assign hxs hassign henv henv'
    have hend := depEqns_sound (fun e he => hj e (.here he))
      (fun e he s hs => dependence_sound I n s (fun e' he' => hj e' (.nested he hs he')) m m')
      hbind hdeps hr hr'
    exact hend.readAll h h'

/-! ### What the trace says of a program -/

/-- Two lists of arguments differ in one input only. -/
def AgreeExcept (i : Nat) (args args' : List V) : Prop :=
  args.length = args'.length ∧ ∀ k, k ≠ i → args[k]? = args'[k]?

/-- **Noninterference**: an output whose set does not have an input does not change when only
that input does. -/
def Jaxpr.Sound (role : String → Role) (j : Jaxpr) : Prop :=
  ∀ depth r, traceInputDependence depth j = some r → ∀ (V : Type) (I : Interp V) (m m' : Nat)
    (i : Nat) (args args' ys ys' : List V), AgreeExcept i args args' →
    evalJaxpr role I m j args = some ys → evalJaxpr role I m' j args' = some ys' →
    ∀ (o : Nat) (d : Deps), r.outputs[o]? = some d → i ∉ d → ys[o]? = ys'[o]?

/-- A program whose primitives carry jaxprs for what they are said to carry them for.  With
`reuse` the predicate of a `cond` may be an operand of its branches too. -/
def Jaxpr.Speaks (role : String → Role) (reuse : String → Prop) (j : Jaxpr) : Prop :=
  ∀ e, j.Carries e → e.subs ≠ [] → e.primitive ≠ "scan" → e.primitive ≠ "while" →
    role e.primitive ≠ .plain ∧ (role e.primitive = .cond → ¬ reuse e.primitive → e.PredicateApart)

theorem agrees_singletons : ∀ (s : Nat) {args args' : List V},
    args.length = args'.length → (∀ k, s + k ≠ i → args[k]? = args'[k]?) →
    Agrees i ((range' s args.length).map fun k => {k}) args args'
  | _, [], [], _, _ => Agrees.nil
  | s, x :: xs, y :: ys, hlen, h => by
    rw [length_cons, range'_succ, map_cons]
    refine Agrees.cons (fun hi => ?_) (agrees_singletons (s + 1) (by simpa using hlen) fun k hk => ?_)
    · exact some.inj (h 0 fun heq => hi (Finset.mem_singleton.mpr heq.symm))
    · exact h (k + 1) (by omega)
  | _, [], _ :: _, hlen, _ => absurd hlen (by simp)
  | _, _ :: _, [], hlen, _ => absurd hlen (by simp)

theorem sound_of_followed {role : String → Role} {j : Jaxpr} (hj : j.WellFormed)
    (hfollowed : j.Followed role) : j.Sound role := by
  intro depth r htrace V I m m' i args args' ys ys' hargs h h' o d hd hi
  have hlen : args.length = j.invars.length := by
    cases m with
    | zero => exact absurd h (by simp [evalJaxpr])
    | succ m =>
      simp only [evalJaxpr, bind_eq_bind, bind_eq_some_iff] at h
      obtain ⟨env, henv, -⟩ := h
      rw [← length_assign henv, length_map]
  have hstart := agrees_singletons (i := i) 0 hargs.1
    fun (k : Nat) (hk : 0 + k ≠ i) => hargs.2 k (by omega)
  rw [hlen, ← range_eq_range'] at hstart
  exact (dependence_sound I depth j hfollowed m m' i _ _ _ _ _ _
    (outputs_eq_dependence hj htrace) hstart h h').get hd hi

/-! ### Two programs whose traces are wrong -/

theorem BindsHere.binds {j : Jaxpr} {v : Nat} (h : BindsHere j v) : Binds j v := by
  rcases h with h | ⟨e, he, h⟩
  · exact .invar h
  · exact .out he h

theorem binds_of_no_eqns {v : Nat} (h : Binds (.mk [] invars [] outvars) v) : v ∈ invars := by
  cases h with
  | invar h => exact h
  | out he _ => exact absurd he not_mem_nil
  | nested he _ _ => exact absurd he not_mem_nil

/-- A program of one equation whose jaxprs have no equations is well formed when it reads what it
binds. -/
theorem wellFormed_of_one (hreads : ∀ a ∈ e.invars, a.Known (· ∈ invars))
    (houts : ∀ a ∈ outvars, a.Known (· ∈ e.outvars))
    (hsubs : ∀ s ∈ e.subs, ∃ is os, s = .mk [] is [] os ∧ (∀ a ∈ os, a.Known (· ∈ is)) ∧ ∀ v ∈ is, v ∉ invars ∧ v ∉ e.outvars) :
    (Jaxpr.mk [] invars [e] outvars).WellFormed := by
  have hmono : ∀ {a : Atom} {known known' : Nat → Prop}, a.Known known →
      (∀ v, known v → known' v) → a.Known known' := by
    intro a known known' ha h
    cases a with
    | literal l => trivial
    | var v => exact h v ha
  refine .mk nofun (fun v hv => not_not.mpr hv.binds) ?_ ?_ ?_
  · exact ⟨fun a ha => hmono (hreads a ha) fun v hv => Or.inr hv,
      fun a ha => hmono (houts a ha) fun v hv => Or.inr hv⟩
  · intro e' he' s hs v hbinds hhere
    obtain rfl := mem_singleton.mp he'
    obtain ⟨is, os, rfl, -, hfresh⟩ := hsubs s hs
    obtain ⟨hin, hout⟩ := hfresh v (binds_of_no_eqns hbinds)
    rcases hhere with h | ⟨e', he', h⟩
    · exact hin h
    · obtain rfl := mem_singleton.mp he'
      exact hout h
  · intro e' he' s hs
    obtain rfl := mem_singleton.mp he'
    obtain ⟨is, os, rfl, hos, -⟩ := hsubs s hs
    refine .mk nofun (fun v hv => not_not.mpr (.nested he' hs hv.binds)) ?_ nofun nofun
    exact fun a ha => hmono (hos a ha) fun v hv => Or.inr hv

theorem carries_of_one {e e' : Eqn Jaxpr} (hsubs : ∀ s ∈ e.subs, s.eqns = [])
    (h : (Jaxpr.mk [] invars [e] outvars).Carries e') : e' = e := by
  have hempty : ∀ {s : Jaxpr}, s.eqns = [] → ¬ s.Carries e' := by
    intro s hs hc
    cases hc with
    | here h => exact absurd (hs ▸ h) not_mem_nil
    | nested h _ _ => exact absurd (hs ▸ h) not_mem_nil
  cases h with
  | here h => exact mem_singleton.mp h
  | nested h hs hc =>
    obtain rfl := mem_singleton.mp h
    exact absurd hc (hempty (hsubs _ hs))

/-- Rows are updated by a jaxpr that takes the new row: it uses the last of the operands that the
walk pairs with its inputs, and the indices, paired with the first, are lost. -/
def updateEqn (p : String) : Eqn Jaxpr :=
  ⟨0, p, [("update_jaxpr", .jaxpr (.mk [] [10, 11] [] [.var 11]))], [.var 0, .var 1, .var 2], [3]⟩

def updateProgram (p : String) : Jaxpr := .mk [] [0, 1, 2] [updateEqn p] [.var 3]

/-- The branches ignore their operand, which is the predicate as well. -/
def branchEqn (p : String) : Eqn Jaxpr :=
  ⟨0, p, [("branches", .seq [.closed (.mk [] [10] [] [.literal 0]),
    .closed (.mk [] [11] [] [.literal 1])])], [.var 0, .var 0], [1]⟩

def branchProgram (p : String) : Jaxpr := .mk [] [0] [branchEqn p] [.var 1]

/-- Values are numbers; an equation that is not followed computes its second operand. -/
def numbers : Interp Nat where
  literal l := l
  const c := c
  apply _ ops := ops.drop 1 |>.take 1
  truth v := v != 0
  branch v := v
  slice v _ := v
  stack vs := vs.sum

section Programs

variable {role : String → Role} {p : String}

theorem updateProgram_wellFormed : (updateProgram p).WellFormed := by
  refine wellFormed_of_one ?_ ?_ ?_
  · simp [updateEqn, Atom.Known]
  · simp [updateEqn, Atom.Known]
  · simp [updateEqn, Eqn.subs, subJaxprsMapping, subJaxprs, Atom.Known]

theorem branchProgram_wellFormed : (branchProgram p).WellFormed := by
  refine wellFormed_of_one ?_ ?_ ?_
  · simp [branchEqn, Atom.Known]
  · simp [branchEqn, Atom.Known]
  · simp [branchEqn, Eqn.subs, subJaxprsMapping, subJaxprs, subJaxprsSeq, Atom.Known]

/-- A program of one equation that carries jaxprs and is no loop is traced as a call. -/
theorem visit_of_one {invars : List Nat} {e : Eqn Jaxpr} {outvars : List Atom} {first : Jaxpr}
    {rest : List Jaxpr} (hscan : e.primitive ≠ "scan") (hwhile : e.primitive ≠ "while")
    (hsubs : e.subs = first :: rest) (order : Nat → Option Nat) (n : Nat) (w : Walk) :
    visit order (n + 1) (.mk [] invars [e] outvars) w =
      visitCall order (visit order n) e first rest w := by
  have heqn : visitEqn order (visit order n) e w =
      visitCall order (visit order n) e first rest w := by
    unfold visitEqn
    rw [if_neg hscan, if_neg hwhile, hsubs]
  rw [visit, Jaxpr.eqns, visitEqns, heqn]
  exact bind_fun_some _

theorem updateProgram_trace (hscan : p ≠ "scan") (hwhile : p ≠ "while") :
    ∃ r, traceInputDependence 2 (updateProgram p) = some r ∧
      ∃ d, r.outputs[0]? = some d ∧ 1 ∉ d := by
  have hvisit : ∀ order w, visit order 2 (updateProgram p) w = _ :=
    fun order w => visit_of_one hscan hwhile rfl order 1 w
  simp only [traceInputDependence, hvisit]
  exact ⟨_, rfl, _, rfl, of_decide_eq_true rfl⟩

theorem branchProgram_trace (hscan : p ≠ "scan") (hwhile : p ≠ "while") :
    ∃ r, traceInputDependence 2 (branchProgram p) = some r ∧
      ∃ d, r.outputs[0]? = some d ∧ 0 ∉ d := by
  have hvisit : ∀ order w, visit order 2 (branchProgram p) w = _ :=
    fun order w => visit_of_one hscan hwhile rfl order 1 w
  simp only [traceInputDependence, hvisit]
  exact ⟨_, rfl, _, rfl, of_decide_eq_true rfl⟩

theorem evalEqn_of_role {I : Interp V} {e : Eqn Jaxpr} {callee : Jaxpr} {rest : List Jaxpr}
    (hscan : e.primitive ≠ "scan") (hwhile : e.primitive ≠ "while")
    (hsubs : e.subs = callee :: rest) (eval : Jaxpr → List V → Option (List V)) (m : Nat)
    (ops : List V) :
    evalEqn role I eval m e ops =
      match role e.primitive with
      | .call => eval callee (calleeArgs I callee ops)
      | .cond => evalCond I eval (callee :: rest) ops
      | _ => some (I.apply e ops) := by
  unfold evalEqn
  rw [if_neg hscan, if_neg hwhile]
  cases role e.primitive <;> simp only [hsubs]

/-- The first program computes its second input: the equation uses the operand that no input
of its jaxpr is paired with. -/
theorem updateProgram_eval (hscan : p ≠ "scan") (hwhile : p ≠ "while") (hrole : role p = .other)
    (x y z : Nat) : evalJaxpr role numbers 1 (updateProgram p) [x, y, z] = some [y] := by
  have heqn : ∀ eval m, evalEqn role numbers eval m (updateEqn p) [x, y, z] = some [y] := by
    intro eval m
    rw [evalEqn_of_role hscan hwhile rfl, show role (updateEqn p).primitive = .other from hrole]
    rfl
  show ((evalEqn role numbers _ 0 (updateEqn p) [x, y, z]).bind _).bind _ = _
  rw [heqn]
  rfl

theorem branchProgram_eval (hscan : p ≠ "scan") (hwhile : p ≠ "while") (hrole : role p = .cond)
    {b : Nat} (hb : b < 2) : evalJaxpr role numbers 2 (branchProgram p) [b] = some [b] := by
  have heqn : evalEqn role numbers (evalJaxpr role numbers 1) 1 (branchEqn p) [b, b] = some [b] := by
    rw [evalEqn_of_role hscan hwhile rfl, show role (branchEqn p).primitive = .cond from hrole]
    rcases (by omega : b = 0 ∨ b = 1) with rfl | rfl <;> rfl
  show ((evalEqn role numbers (evalJaxpr role numbers 1) 1 (branchEqn p) [b, b]).bind _).bind _ = _
  rw [heqn]
  rfl

theorem not_sound_of {j : Jaxpr} {depth m i : Nat} {args args' ys ys' : List Nat}
    (htrace : ∃ r, traceInputDependence depth j = some r ∧ ∃ d, r.outputs[0]? = some d ∧ i ∉ d)
    (hargs : AgreeExcept i args args') (h : evalJaxpr role numbers m j args = some ys)
    (h' : evalJaxpr role numbers m j args' = some ys') (hne : ys[0]? ≠ ys'[0]?) :
    ¬ j.Sound role := by
  intro hsound
  obtain ⟨r, htrace, d, hd, hi⟩ := htrace
  exact hne (hsound depth r htrace Nat numbers m m i args args' ys ys' hargs h h' 0 d hd hi)

theorem updateProgram_not_sound (hscan : p ≠ "scan") (hwhile : p ≠ "while")
    (hrole : role p = .other) : ¬ (updateProgram p).Sound role := by
  have hargs : AgreeExcept 1 [0, 0, 0] [0, 1, 0] := by
    refine ⟨rfl, fun k hk => ?_⟩
    rcases k with _ | _ | k
    · rfl
    · exact absurd rfl hk
    · rfl
  exact not_sound_of (updateProgram_trace hscan hwhile) hargs
    (updateProgram_eval hscan hwhile hrole 0 0 0) (updateProgram_eval hscan hwhile hrole 0 1 0)
    (by decide)

theorem branchProgram_not_sound (hscan : p ≠ "scan") (hwhile : p ≠ "while")
    (hrole : role p = .cond) : ¬ (branchProgram p).Sound role := by
  have hargs : AgreeExcept 0 [0] [1] := by
    refine ⟨rfl, fun k hk => ?_⟩
    cases k with
    | zero => exact absurd rfl hk
    | succ k => rfl
  exact not_sound_of (branchProgram_trace hscan hwhile) hargs
    (branchProgram_eval hscan hwhile hrole (by omega))
    (branchProgram_eval hscan hwhile hrole (by omega)) (by decide)

end Programs

/-- **When the trace is right.**  It is right for every program whose equations carry jaxprs
only to call them or to choose among them, and choose by a predicate that no branch is given;
and those are the only uses of jaxprs for which it is right for every program. -/
theorem traceInputDependence_sound_iff (role : String → Role) :
    (∀ j : Jaxpr, j.WellFormed → j.Followed role → j.Sound role) ∧
      ∀ reuse : String → Prop,
        (∀ j : Jaxpr, j.WellFormed → j.Speaks role reuse → j.Sound role) ↔
          ∀ p, p ≠ "scan" → p ≠ "while" → role p ≠ .other ∧ (role p = .cond → ¬ reuse p) := by
  refine ⟨fun j => sound_of_followed, fun reuse => ⟨fun h p hscan hwhile => ⟨?_, ?_⟩, ?_⟩⟩
  · intro hrole
    refine updateProgram_not_sound hscan hwhile hrole
      (h _ updateProgram_wellFormed fun e he _ _ _ => ?_)
    obtain rfl := carries_of_one (by simp [updateEqn, Eqn.subs, subJaxprsMapping, subJaxprs,
      Jaxpr.eqns]) he
    have hother : role (updateEqn p).primitive = .other := hrole
    rw [hother]
    exact ⟨by decide, fun hcond => absurd hcond (by decide)⟩
  · intro hrole hreuse
    refine branchProgram_not_sound hscan hwhile hrole
      (h _ branchProgram_wellFormed fun e he _ _ _ => ?_)
    obtain rfl := carries_of_one (by simp [branchEqn, Eqn.subs, subJaxprsMapping, subJaxprs,
      subJaxprsSeq, Jaxpr.eqns]) he
    have hcond : role (branchEqn p).primitive = .cond := hrole
    rw [hcond]
    exact ⟨by decide, fun _ hno => absurd hreuse hno⟩
  · intro hroles j hj hspeaks
    refine sound_of_followed hj fun e he hsubs hscan hwhile => ?_
    obtain ⟨hplain, hapart⟩ := hspeaks e he hsubs hscan hwhile
    obtain ⟨hother, hreuse⟩ := hroles e.primitive hscan hwhile
    cases hrole : role e.primitive with
    | plain => exact absurd hrole hplain
    | call => exact Or.inl rfl
    | cond => exact Or.inr ⟨rfl, hapart hrole (hreuse hrole)⟩
    | other => exact absurd hrole hother

namespace Sample

/-- The names of the sample: `scatter` carries a jaxpr it does not call. -/
def roleOf (p : String) : Role :=
  if p = "scatter" then .other
  else if p = "cond" then .cond
  else if p = "pjit" then .call
  else .plain

/-- Setting a row by index, and branching on a value that the branches are also given: the
traces lack an input that the output changes with. -/
theorem trace_lacks_input :
    ((updateProgram "scatter").WellFormed ∧ ¬ (updateProgram "scatter").Sound roleOf) ∧
      (branchProgram "cond").WellFormed ∧ ¬ (branchProgram "cond").Sound roleOf :=
  ⟨⟨updateProgram_wellFormed, updateProgram_not_sound (by decide) (by decide) rfl⟩,
    branchProgram_wellFormed, branchProgram_not_sound (by decide) (by decide) rfl⟩

end Sample

end Xtrax.Dependence
