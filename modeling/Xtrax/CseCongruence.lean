import Xtrax.Cse

/-!
# Congruent equations

Two equations are congruent when they have one primitive, the same parameters and, operand by
operand, equal literals, the same free variable or the same output of congruent equations
(`Congruent`).  Congruent equations have the same outputs whatever the primitives mean
(`outputs_congr`).

The relation is defined for any notion of equal literals and of equal output positions.  The
classes that `Cse.classes` gives are those of one of these relations, which compares the keys of
literals and no output positions.
-/

namespace Xtrax.Cse

open List

variable {W : Type}

/-- The variable is the output of the equation at this position. -/
def IsOutput (eqns : List (Eqn W)) (p a v : Nat) : Prop :=
  ∃ e, eqns[p]? = some e ∧ e.outIds[a]? = some v

/-- A jaxpr: each variable is bound once, and before it is read. -/
structure Jaxpr (W : Type) where
  eqns : List (Eqn W)
  bound_once : (eqns.flatMap Eqn.outIds).Nodup
  bound_before : ∀ {i e v p a}, eqns[i]? = some e → Operand.var v ∈ e.invars →
    IsOutput eqns p a v → p < i

/-- Two operands are the same, for equations that are related by `R`. -/
inductive SameOperand (eqns : List (Eqn W)) (lit : Literal → Literal → Prop) (pos : Nat → Nat → Prop)
    (R : Nat → Nat → Prop) : Operand → Operand → Prop
  | lit {l l'} : lit l l' → SameOperand eqns lit pos R (.lit l) (.lit l')
  | free {v} : (∀ p a, ¬ IsOutput eqns p a v) → SameOperand eqns lit pos R (.var v) (.var v)
  | output {p a v q b w} : IsOutput eqns p a v → IsOutput eqns q b w → pos a b → R p q →
      SameOperand eqns lit pos R (.var v) (.var w)

/-- The two equations have one primitive, the same parameters and the same operands. -/
structure SameEqn (eqns : List (Eqn W)) (lit : Literal → Literal → Prop) (pos : Nat → Nat → Prop)
    (R : Nat → Nat → Prop) (e f : Eqn W) : Prop where
  primitive : e.primitive = f.primitive
  params : e.params.Perm f.params
  operands : List.Forall₂ (SameOperand eqns lit pos R) e.invars f.invars

/-- The least relation that relates what has the same operands by it. -/
inductive Cong (eqns : List (Eqn W)) (lit : Literal → Literal → Prop) (pos : Nat → Nat → Prop) :
    Nat → Nat → Prop
  | intro {i j e f} : eqns[i]? = some e → eqns[j]? = some f → e.primitive = f.primitive →
      e.params.Perm f.params →
      List.Forall₂ (SameOperand eqns lit pos (Cong eqns lit pos)) e.invars f.invars →
      Cong eqns lit pos i j

theorem forall₂_imp_mem {A B : Type} {R S : A → B → Prop} {l : List A} {l' : List B}
    (h : List.Forall₂ R l l') (himp : ∀ x ∈ l, ∀ y ∈ l', R x y → S x y) :
    List.Forall₂ S l l' := by
  induction h with
  | nil => exact .nil
  | cons hxy _ ih =>
    refine .cons (himp _ mem_cons_self _ mem_cons_self hxy) (ih ?_)
    exact fun x hx y hy => himp x (mem_cons_of_mem _ hx) y (mem_cons_of_mem _ hy)

theorem forall₂_trans_mem {A : Type} {R S T : A → A → Prop} {l m r : List A}
    (hlm : List.Forall₂ R l m) (hmr : List.Forall₂ S m r)
    (himp : ∀ x ∈ l, ∀ y z, R x y → S y z → T x z) : List.Forall₂ T l r := by
  induction hlm generalizing r with
  | nil =>
    cases hmr
    exact .nil
  | cons hxy _ ih =>
    cases hmr with
    | cons hyz hmr =>
      obtain ⟨hhead, htail⟩ := forall_mem_cons.mp himp
      exact .cons (hhead _ _ hxy hyz) (ih hmr htail)

section

variable {eqns : List (Eqn W)} {lit : Literal → Literal → Prop} {pos : Nat → Nat → Prop}

theorem cong_iff {i j : Nat} : Cong eqns lit pos i j ↔ ∃ e f, eqns[i]? = some e ∧
    eqns[j]? = some f ∧ SameEqn eqns lit pos (Cong eqns lit pos) e f := by
  constructor
  · rintro ⟨hi, hj, hprimitive, hparams, hoperands⟩
    exact ⟨_, _, hi, hj, hprimitive, hparams, hoperands⟩
  · rintro ⟨e, f, hi, hj, hprimitive, hparams, hoperands⟩
    exact .intro hi hj hprimitive hparams hoperands

theorem SameOperand.imp {lit' : Literal → Literal → Prop} {pos' R R' : Nat → Nat → Prop}
    (hlit : ∀ {l l'}, lit l l' → lit' l l') (hpos : ∀ {a b}, pos a b → pos' a b)
    {x y : Operand} (hR : ∀ {p a v q b w}, x = .var v → IsOutput eqns p a v →
      IsOutput eqns q b w → R p q → R' p q)
    (h : SameOperand eqns lit pos R x y) : SameOperand eqns lit' pos' R' x y := by
  cases h with
  | lit h => exact .lit (hlit h)
  | free h => exact .free h
  | output hv hw h hpq => exact .output hv hw (hpos h) (hR rfl hv hw hpq)

end

theorem IsOutput.lt {p a v : Nat} {eqns : List (Eqn W)} (h : IsOutput eqns p a v) :
    p < eqns.length := by
  obtain ⟨e, he, -⟩ := h
  exact (List.getElem?_eq_some_iff.mp he).1

namespace Jaxpr

variable {J : Jaxpr W} {lit : Literal → Literal → Prop} {pos : Nat → Nat → Prop}

theorem output_unique {p a q b v : Nat} (hp : IsOutput J.eqns p a v) (hq : IsOutput J.eqns q b v) :
    p = q ∧ a = b := by
  obtain ⟨e, he, ha⟩ := hp
  obtain ⟨f, hf, hb⟩ := hq
  obtain ⟨hnodup, hdisjoint⟩ := List.nodup_flatMap.mp J.bound_once
  have hpq : p = q := by
    obtain ⟨hlt, rfl⟩ := List.getElem?_eq_some_iff.mp he
    obtain ⟨hlt', rfl⟩ := List.getElem?_eq_some_iff.mp hf
    have hpair := List.pairwise_iff_getElem.mp hdisjoint
    rcases Nat.lt_trichotomy p q with h | h | h
    · exact absurd (List.mem_of_getElem? hb) (hpair p q hlt hlt' h (List.mem_of_getElem? ha))
    · exact h
    · exact absurd (List.mem_of_getElem? ha) (hpair q p hlt' hlt h (List.mem_of_getElem? hb))
  subst hpq
  obtain rfl := Option.some.inj (he.symm.trans hf)
  have hnodup := hnodup e (List.mem_of_getElem? he)
  obtain ⟨hlt, hget⟩ := List.getElem?_eq_some_iff.mp ha
  obtain ⟨hlt', hget'⟩ := List.getElem?_eq_some_iff.mp hb
  exact ⟨rfl, (hnodup.getElem_inj_iff).mp (hget.trans hget'.symm)⟩

section

variable (hlit : Equivalence lit) (hpos : Equivalence pos)

include hlit hpos

theorem cong_refl (i : Nat) (hi : i < J.eqns.length) : Cong J.eqns lit pos i i := by
  induction i using Nat.strong_induction_on with
  | _ i ih =>
    have he := getElem?_eq_getElem hi
    refine .intro he he rfl (.refl _) (forall₂_same.mpr fun x hx => ?_)
    cases x with
    | lit l => exact .lit (hlit.refl l)
    | var v =>
      by_cases hbound : ∃ p a, IsOutput J.eqns p a v
      · obtain ⟨p, a, hp⟩ := hbound
        have hlt := J.bound_before he hx hp
        exact .output hp hp (hpos.refl a) (ih p hlt (hlt.trans hi))
      · exact .free fun p a hp => hbound ⟨p, a, hp⟩

theorem cong_symm {i j : Nat} (h : Cong J.eqns lit pos i j) : Cong J.eqns lit pos j i := by
  induction i using Nat.strong_induction_on generalizing j with
  | _ i ih =>
    obtain ⟨e, f, hi, hj, hsame⟩ := cong_iff.mp h
    refine .intro hj hi hsame.primitive.symm hsame.params.symm (List.Forall₂.flip ?_)
    refine forall₂_imp_mem hsame.operands fun x hx y _ hxy => ?_
    cases hxy with
    | lit h => exact .lit (hlit.symm h)
    | free h => exact .free h
    | output hv hw hab hpq =>
      exact .output hw hv (hpos.symm hab) (ih _ (J.bound_before hi hx hv) hpq)

theorem cong_trans {i j k : Nat} (hij : Cong J.eqns lit pos i j) (hjk : Cong J.eqns lit pos j k) :
    Cong J.eqns lit pos i k := by
  induction i using Nat.strong_induction_on generalizing j k with
  | _ i ih =>
    obtain ⟨e, f, hi, hj, hsame⟩ := cong_iff.mp hij
    obtain ⟨f', g, hj', hk, hsame'⟩ := cong_iff.mp hjk
    obtain rfl := Option.some.inj (hj.symm.trans hj')
    refine .intro hi hk (hsame.primitive.trans hsame'.primitive)
      (hsame.params.trans hsame'.params) ?_
    refine forall₂_trans_mem hsame.operands hsame'.operands fun x hx y z hxy hyz => ?_
    cases hxy with
    | lit h =>
      cases hyz with
      | lit h' => exact .lit (hlit.trans h h')
    | free h =>
      cases hyz with
      | free _ => exact .free h
      | output hv _ _ _ => exact absurd hv (h _ _)
    | output hv hw hab hpq =>
      cases hyz with
      | free h => exact absurd hw (h _ _)
      | output hw' hu hbc hqr =>
        obtain ⟨rfl, rfl⟩ := output_unique hw hw'
        exact .output hv hu (hpos.trans hab hbc) (ih _ (J.bound_before hi hx hv) hpq hqr)

end

end Jaxpr

/-! ### Meanings -/

/-- A meaning of the literals and the primitives; that of a primitive is a function of its
parameters and operands, at every output position. -/
structure Interp (W V : Type) where
  literal : Literal → V
  run : String → List (String × W) → List V → Nat → V
  run_perm : ∀ primitive {p q : List (String × W)}, p.Perm q → run primitive p = run primitive q

variable {V : Type}

def Interp.operand (I : Interp W V) (env : Nat → V) : Operand → V
  | .lit l => I.literal l
  | .var v => env v

/-- What an equation computes. -/
def Interp.eval (I : Interp W V) (env : Nat → V) (e : Eqn W) : Nat → V :=
  I.run e.primitive e.params (e.invars.map (I.operand env))

/-- The variables that an equation binds have its outputs. -/
def Interp.bind (I : Interp W V) (env : Nat → V) (e : Eqn W) : Nat → V := fun v =>
  if v ∈ e.outIds then I.eval env e (e.outIds.idxOf v) else env v

/-- The equations one after the other. -/
def Interp.exec (I : Interp W V) (env : Nat → V) (eqns : List (Eqn W)) : Nat → V :=
  eqns.foldl I.bind env

/-- What the equation at a position computes in a run of all. -/
def Interp.outputs (I : Interp W V) (env : Nat → V) (eqns : List (Eqn W)) (i : Nat) :
    Option (Nat → V) :=
  eqns[i]?.map (I.eval (I.exec env (eqns.take i)))

namespace Jaxpr

variable {J : Jaxpr W} (I : Interp W V) (env : Nat → V)

theorem exec_take_succ {i : Nat} {e : Eqn W} (he : J.eqns[i]? = some e) :
    I.exec env (J.eqns.take (i + 1)) = I.bind (I.exec env (J.eqns.take i)) e := by
  rw [take_add_one, he]
  exact foldl_append

theorem exec_output {p a v : Nat} {f : Eqn W} (hp : J.eqns[p]? = some f)
    (hv : f.outIds[a]? = some v) (i : Nat) (hpi : p < i) (hi : i ≤ J.eqns.length) :
    I.exec env (J.eqns.take i) v = I.eval (I.exec env (J.eqns.take p)) f a := by
  induction i with
  | zero => omega
  | succ i ih =>
    have he := getElem?_eq_getElem (show i < J.eqns.length by omega)
    rw [exec_take_succ I env he]
    by_cases hpeq : p = i
    · subst hpeq
      obtain rfl := Option.some.inj (hp.symm.trans he)
      have hmem := mem_of_getElem? hv
      have hidx : (J.eqns[p]).outIds.idxOf v = a := by
        have hlt := idxOf_lt_length_iff.mpr hmem
        have hget : (J.eqns[p]).outIds[(J.eqns[p]).outIds.idxOf v]? = some v := by
          rw [getElem?_eq_getElem hlt, getElem_idxOf hlt]
        exact (output_unique ⟨_, he, hget⟩ ⟨_, he, hv⟩).2
      show (if _ then _ else _) = _
      rw [if_pos hmem, hidx]
    · -- another equation does not bind it
      have hnot : v ∉ (J.eqns[i]).outIds := by
        intro hmem
        obtain ⟨b, hb⟩ := mem_iff_getElem?.mp hmem
        exact hpeq (output_unique ⟨_, hp, hv⟩ ⟨_, he, hb⟩).1
      show (if _ then _ else _) = _
      rw [if_neg hnot]
      exact ih (by omega) (by omega)

theorem exec_free {v : Nat} (hv : ∀ p a, ¬ IsOutput J.eqns p a v) (i : Nat)
    (hi : i ≤ J.eqns.length) : I.exec env (J.eqns.take i) v = env v := by
  induction i with
  | zero => rfl
  | succ i ih =>
    have he := getElem?_eq_getElem (show i < J.eqns.length by omega)
    have hnot : v ∉ (J.eqns[i]).outIds := by
      intro hmem
      obtain ⟨b, hb⟩ := mem_iff_getElem?.mp hmem
      exact hv i b ⟨_, he, hb⟩
    rw [exec_take_succ I env he]
    show (if _ then _ else _) = _
    rw [if_neg hnot]
    exact ih (by omega)

end Jaxpr

/-- One primitive, the same parameters, and operand by operand equal literals, the same free
variable or the same output of congruent equations. -/
def Congruent (eqns : List (Eqn W)) : Nat → Nat → Prop := Cong eqns Eq Eq

/-- **Congruent equations compute the same outputs**, whatever the primitives mean. -/
theorem outputs_congr {J : Jaxpr W} (I : Interp W V) (env : Nat → V) {i j : Nat}
    (h : Congruent J.eqns i j) : I.outputs env J.eqns i = I.outputs env J.eqns j := by
  induction i using Nat.strong_induction_on generalizing j with
  | _ i ih =>
    obtain ⟨e, f, hi, hj, hsame⟩ := cong_iff.mp h
    have hilt : i < J.eqns.length := (List.getElem?_eq_some_iff.mp hi).1
    have hjlt : j < J.eqns.length := (List.getElem?_eq_some_iff.mp hj).1
    have hoperands : e.invars.map (I.operand (I.exec env (J.eqns.take i))) =
        f.invars.map (I.operand (I.exec env (J.eqns.take j))) := by
      rw [← List.forall₂_eq_eq_eq, List.forall₂_map_left_iff, List.forall₂_map_right_iff]
      refine forall₂_imp_mem hsame.operands fun x hx y hy hxy => ?_
      cases hxy with
      | lit h =>
        cases h
        rfl
      | @free v hv =>
        show I.exec env _ v = I.exec env _ v
        rw [Jaxpr.exec_free I env hv i hilt.le, Jaxpr.exec_free I env hv j hjlt.le]
      | @output p a v q b w hv hw hab hpq =>
        cases hab
        have hp := J.bound_before hi hx hv
        have hq := J.bound_before hj hy hw
        have heq := ih p hp hpq
        obtain ⟨e', he', hv⟩ := hv
        obtain ⟨f', hf', hw⟩ := hw
        rw [Interp.outputs, Interp.outputs, he', hf'] at heq
        show I.exec env _ v = I.exec env _ w
        rw [Jaxpr.exec_output I env he' hv i hp hilt.le, Jaxpr.exec_output I env hf' hw j hq hjlt.le]
        exact congrFun (Option.some.inj heq) a
    rw [Interp.outputs, Interp.outputs, hi, hj]
    show some (I.run _ _ _) = some (I.run _ _ _)
    rw [hoperands, hsame.primitive, I.run_perm _ hsame.params]

end Xtrax.Cse
