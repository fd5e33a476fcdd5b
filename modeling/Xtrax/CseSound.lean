import Xtrax.CseCongruence

/-!
# What is reported as duplicate

The rounds of `mergeToFixpoint` end, and the classes are those of the equations whose operands are
the same up to the shapes of literals and the positions of outputs (`classes_iff`).  These are the
congruent equations just when no two equations differ in these alone (`classes_congruent_iff`):
equations that read two outputs of one equation are reported as duplicates.
-/

namespace Xtrax.Cse

open List

variable {W : Type} {py : PyRepr W} {J : Jaxpr W} {uf : UnionFind} {uf' : UnionFind}
  {members : List Nat} {reps : Nat → Nat} {pair : Nat × Nat} {i j : Nat}

/-- Literals of one key. -/
def SameKey (l l' : Literal) : Prop := literalKey l = literalKey l'

/-- Any two output positions. -/
def AnyPos (_ _ : Nat) : Prop := True

/-- The relation that the classes are of. -/
def KeyCongruent (eqns : List (Eqn W)) : Nat → Nat → Prop := Cong eqns SameKey AnyPos

theorem sameKey_equivalence : Equivalence SameKey where
  refl _ := rfl
  symm h := Eq.symm h
  trans h h' := Eq.trans h h'

theorem anyPos_equivalence : Equivalence AnyPos where
  refl _ := trivial
  symm _ := trivial
  trans _ _ := trivial

/-- Equations of the jaxpr whose parameters have one text have the same parameters. -/
def ReprInjective (py : PyRepr W) (eqns : List (Eqn W)) : Prop :=
  ∀ e ∈ eqns, ∀ f ∈ eqns, paramsRepr py e.params = paramsRepr py f.params → e.params.Perm f.params

/-! ### Fingerprints -/

theorem mem_assignments {v rep : Nat} :
    (v, rep) ∈ assignments J.eqns ((List.range J.eqns.length).map reps) ↔
      ∃ p a, IsOutput J.eqns p a v ∧ rep = reps p := by
  rw [assignments, List.mem_flatMap]
  constructor
  · rintro ⟨⟨e, r⟩, hzip, hv⟩
    obtain ⟨p, hp⟩ := List.mem_iff_getElem?.mp hzip
    obtain ⟨he, hr⟩ := List.getElem?_zip_eq_some.mp hp
    obtain ⟨w, hw, heq⟩ := List.mem_map.mp hv
    cases heq
    obtain ⟨a, ha⟩ := List.mem_iff_getElem?.mp hw
    have hlt : p < J.eqns.length := (List.getElem?_eq_some_iff.mp he).1
    rw [List.getElem?_map, List.getElem?_range hlt] at hr
    exact ⟨p, a, ⟨e, he, ha⟩, (Option.some.inj hr).symm⟩
  · rintro ⟨p, a, ⟨e, he, ha⟩, rfl⟩
    have hlt : p < J.eqns.length := (List.getElem?_eq_some_iff.mp he).1
    refine ⟨(e, reps p), ?_, List.mem_map.mpr ⟨v, List.mem_of_getElem? ha, rfl⟩⟩
    refine List.mem_iff_getElem?.mpr ⟨p, List.getElem?_zip_eq_some.mpr ⟨he, ?_⟩⟩
    rw [List.getElem?_map, List.getElem?_range hlt]
    rfl

theorem varToken_output {p a v : Nat} (h : IsOutput J.eqns p a v) :
    varToken J.eqns ((range J.eqns.length).map reps) v = some (reps p) := by
  have hmem : (v, reps p) ∈ assignments J.eqns ((range J.eqns.length).map reps) :=
    mem_assignments.mpr ⟨p, a, h, rfl⟩
  obtain ⟨⟨w, rep⟩, hlast⟩ : ∃ b, LastWins.lastFor Prod.fst v
      (assignments J.eqns ((range J.eqns.length).map reps)) = some b :=
    LastWins.exists_lastFor hmem
  obtain rfl : w = v := LastWins.key_of_lastFor hlast
  obtain ⟨q, b, hq, rfl⟩ := mem_assignments.mp (LastWins.mem_of_lastFor hlast)
  obtain ⟨rfl, -⟩ := Jaxpr.output_unique h hq
  rw [varToken, hlast]
  rfl

theorem varToken_free {v : Nat} (h : ∀ p a, ¬ IsOutput J.eqns p a v) :
    varToken J.eqns ((range J.eqns.length).map reps) v = none := by
  rw [varToken, Option.map_eq_none_iff, LastWins.lastFor_eq_none_iff]
  rintro ⟨w, rep⟩ hmem rfl
  obtain ⟨p, a, hp, -⟩ := mem_assignments.mp hmem
  exact h p a hp

/-- Two operands have one token just when they are the same for the classes of the forest. -/
theorem opToken_eq_iff {x y : Operand} :
    opToken (varToken J.eqns ((range J.eqns.length).map uf.root)) x =
        opToken (varToken J.eqns ((range J.eqns.length).map uf.root)) y ↔
      SameOperand J.eqns SameKey AnyPos uf.Same x y := by
  have hbound : ∀ v, (∃ p a, IsOutput J.eqns p a v) ∨ ∀ p a, ¬ IsOutput J.eqns p a v := by
    intro v
    by_cases h : ∃ p a, IsOutput J.eqns p a v
    · exact .inl h
    · exact .inr fun p a hp => h ⟨p, a, hp⟩
  constructor
  · intro h
    cases x with
    | lit l =>
      cases y with
      | lit l' =>
        obtain ⟨hdtype, hbytes⟩ := Token.lit.inj h
        exact .lit (Prod.ext hdtype hbytes)
      | var w =>
        rcases hbound w with ⟨q, b, hq⟩ | hw
        · rw [opToken, opToken, varToken_output hq] at h
          cases h
        · rw [opToken, opToken, varToken_free hw] at h
          cases h
    | var v =>
      rcases hbound v with ⟨p, a, hp⟩ | hv
      · rw [opToken, varToken_output hp] at h
        cases y with
        | lit l => cases h
        | var w =>
          rcases hbound w with ⟨q, b, hq⟩ | hw
          · rw [opToken, varToken_output hq] at h
            exact .output hp hq trivial (Token.eq.inj h)
          · rw [opToken, varToken_free hw] at h
            cases h
      · rw [opToken, varToken_free hv] at h
        cases y with
        | lit l => cases h
        | var w =>
          rcases hbound w with ⟨q, b, hq⟩ | hw
          · rw [opToken, varToken_output hq] at h
            cases h
          · rw [opToken, varToken_free hw] at h
            cases h
            exact .free hv
  · intro h
    cases h with
    | lit h =>
      obtain ⟨hdtype, hbytes⟩ := Prod.mk.inj h
      rw [opToken, opToken, literalKey, literalKey, hdtype, hbytes]
    | free _ => rfl
    | output hp hq _ hsame =>
      rw [opToken, opToken, varToken_output hp, varToken_output hq]
      exact congrArg Token.eq hsame

theorem paramsRepr_perm {p q : List (String × W)} (h : p.Perm q) :
    paramsRepr py p = paramsRepr py q := by
  rw [paramsRepr, paramsRepr, Unique.sorted_eq_iff.mpr (h.map _)]

theorem fingerprint_eq_iff (hpy : ReprInjective py J.eqns) {e f : Eqn W} (he : e ∈ J.eqns)
    (hf : f ∈ J.eqns) :
    fingerprint py (varToken J.eqns ((range J.eqns.length).map uf.root)) e =
        fingerprint py (varToken J.eqns ((range J.eqns.length).map uf.root)) f ↔
      SameEqn J.eqns SameKey AnyPos uf.Same e f := by
  have hoperands : e.invars.map (opToken (varToken J.eqns ((range J.eqns.length).map uf.root))) =
      f.invars.map (opToken (varToken J.eqns ((range J.eqns.length).map uf.root))) ↔
        List.Forall₂ (SameOperand J.eqns SameKey AnyPos uf.Same) e.invars f.invars := by
    rw [← forall₂_eq_eq_eq, forall₂_map_left_iff, forall₂_map_right_iff]
    exact ⟨fun h => h.imp fun _ _ => opToken_eq_iff.mp, fun h => h.imp fun _ _ => opToken_eq_iff.mpr⟩
  rw [fingerprint, fingerprint, Fingerprint.mk.injEq, hoperands]
  constructor
  · rintro ⟨hprimitive, hparams, hsame⟩
    exact ⟨hprimitive, hpy e he f hf hparams, hsame⟩
  · intro h
    exact ⟨h.primitive, paramsRepr_perm h.params, h.operands⟩

/-! ### One round -/

theorem mem_anchored (h : pair ∈ anchored members) : pair.1 ∈ members ∧ pair.2 ∈ members := by
  cases members with
  | nil => exact absurd h not_mem_nil
  | cons anchor others =>
    obtain ⟨other, hother, rfl⟩ := mem_map.mp h
    exact ⟨mem_cons_self, mem_cons_of_mem _ hother⟩

theorem same_of_anchored (h : ∀ pair ∈ anchored members, uf.Same pair.1 pair.2) (hi : i ∈ members)
    (hj : j ∈ members) : uf.Same i j := by
  cases members with
  | nil => exact absurd hi not_mem_nil
  | cons anchor others =>
    have hanchor : ∀ k ∈ anchor :: others, uf.Same anchor k := by
      intro k hk
      rcases mem_cons.mp hk with rfl | hk
      · rfl
      · exact h (anchor, k) (mem_map.mpr ⟨k, hk, rfl⟩)
    exact (hanchor i hi).symm.trans (hanchor j hj)

def roundPairs (py : PyRepr W) (J : Jaxpr W) (uf : UnionFind) : List (Nat × Nat) :=
  (fingerprintRound py J.eqns uf).1.flatMap fun fp => anchored fp.2

theorem mergeRound_eq (uf uf' : UnionFind) : mergeRound (fingerprintRound py J.eqns uf).1 uf' =
    UnionFind.joinAll (uf', false) (roundPairs py J uf) := by
  rw [mergeRound, UnionFind.joinAll, roundPairs, foldl_flatMap]

theorem mem_fingerprintRound {fp : Fingerprint}
    (h : (fp, members) ∈ (fingerprintRound py J.eqns uf).1) (i : Nat) :
    i ∈ members ↔ ∃ e, J.eqns[i]? = some e ∧
      fingerprint py (varToken J.eqns ((List.range J.eqns.length).map uf.root)) e = fp := by
  obtain ⟨-, rfl⟩ := mem_setdefaultAppend.mp h
  rw [uf.findAll_fst, List.mem_map]
  constructor
  · rintro ⟨⟨e, i⟩, hmem, rfl⟩
    obtain ⟨hzip, hkey⟩ := List.mem_filter.mp hmem
    exact ⟨e, List.mk_mem_zipIdx_iff_getElem?.mp hzip, of_decide_eq_true hkey⟩
  · rintro ⟨e, he, hkey⟩
    refine ⟨(e, i), List.mem_filter.mpr ⟨?_, decide_eq_true hkey⟩, rfl⟩
    exact List.mk_mem_zipIdx_iff_getElem?.mpr he

theorem mem_roundPairs (hpy : ReprInjective py J.eqns) (h : pair ∈ roundPairs py J uf) :
    ∃ e f, J.eqns[pair.1]? = some e ∧ J.eqns[pair.2]? = some f ∧
      SameEqn J.eqns SameKey AnyPos uf.Same e f := by
  obtain ⟨⟨fp, members⟩, hgroup, hpair⟩ := mem_flatMap.mp h
  obtain ⟨ha, hb⟩ := mem_anchored hpair
  obtain ⟨e, he, hekey⟩ := (mem_fingerprintRound hgroup _).mp ha
  obtain ⟨f, hf, hfkey⟩ := (mem_fingerprintRound hgroup _).mp hb
  refine ⟨e, f, he, hf, (fingerprint_eq_iff hpy ?_ ?_).mp (hekey.trans hfkey.symm)⟩
  · exact mem_of_getElem? he
  · exact mem_of_getElem? hf

theorem same_of_roundPairs (hpy : ReprInjective py J.eqns)
    (h : ∀ pair ∈ roundPairs py J uf, uf'.Same pair.1 pair.2) {e f : Eqn W}
    (hi : J.eqns[i]? = some e) (hj : J.eqns[j]? = some f)
    (hsame : SameEqn J.eqns SameKey AnyPos uf.Same e f) : uf'.Same i j := by
  have hfp := (fingerprint_eq_iff hpy (mem_of_getElem? hi) (mem_of_getElem? hj)).mpr hsame
  have hgroup : ∃ members, (fingerprint py (varToken J.eqns ((range J.eqns.length).map uf.root)) e,
      members) ∈ (fingerprintRound py J.eqns uf).1 := by
    refine ⟨_, mem_setdefaultAppend.mpr ⟨mem_map.mpr ⟨(e, i), ?_, ?_⟩, rfl⟩⟩
    · exact mk_mem_zipIdx_iff_getElem?.mpr hi
    · rw [uf.findAll_fst]
  obtain ⟨members, hgroup⟩ := hgroup
  refine same_of_anchored (?_ : ∀ pair ∈ anchored members, _) ?_ ?_
  · exact fun pair hpair => h pair (mem_flatMap.mpr ⟨_, hgroup, hpair⟩)
  · exact (mem_fingerprintRound hgroup i).mpr ⟨e, hi, rfl⟩
  · exact (mem_fingerprintRound hgroup j).mpr ⟨f, hj, hfp.symm⟩

/-- The members of a class are related. -/
def Sound (J : Jaxpr W) (uf : UnionFind) : Prop :=
  ∀ i < J.eqns.length, ∀ j < J.eqns.length, uf.Same i j → KeyCongruent J.eqns i j

/-- The equations that are the same for the classes are in one class. -/
def Stable (J : Jaxpr W) (uf : UnionFind) : Prop :=
  ∀ (i j : Nat) (e f : Eqn W), J.eqns[i]? = some e → J.eqns[j]? = some f →
    SameEqn J.eqns SameKey AnyPos uf.Same e f → uf.Same i j

theorem Sound.congr (h : Sound J uf) (hroot : ∀ x, uf'.root x = uf.root x) : Sound J uf' := by
  intro i hi j hj hsame
  unfold UnionFind.Same at hsame
  rw [hroot, hroot] at hsame
  exact h i hi j hj hsame

theorem lt_of_mem_roundPairs (hpy : ReprInjective py J.eqns) (h : pair ∈ roundPairs py J uf) :
    pair.1 < J.eqns.length ∧ pair.2 < J.eqns.length := by
  obtain ⟨e, f, he, hf, -⟩ := mem_roundPairs hpy h
  exact ⟨(List.getElem?_eq_some_iff.mp he).1, (List.getElem?_eq_some_iff.mp hf).1⟩

theorem Sound.joinAll (hpy : ReprInjective py J.eqns) (h : Sound J uf)
    (hroot : ∀ x, uf'.root x = uf.root x) (changed : Bool) :
    Sound J (UnionFind.joinAll (uf', changed) (roundPairs py J uf)).1 := by
  have hsymm : ∀ {x y}, KeyCongruent J.eqns x y → KeyCongruent J.eqns y x :=
    Jaxpr.cong_symm sameKey_equivalence anyPos_equivalence
  have htrans : ∀ {x y z}, KeyCongruent J.eqns x y → KeyCongruent J.eqns y z →
      KeyCongruent J.eqns x z := Jaxpr.cong_trans sameKey_equivalence anyPos_equivalence
  refine UnionFind.joinAll_least hsymm htrans ?_ (h.congr hroot)
  intro pair hpair
  obtain ⟨ha, hb⟩ := lt_of_mem_roundPairs hpy hpair
  obtain ⟨e, f, he, hf, hsame⟩ := mem_roundPairs hpy hpair
  refine ⟨ha, hb, .intro he hf hsame.primitive hsame.params (hsame.operands.imp ?_)⟩
  intro x y hxy
  exact hxy.imp (fun h => h) (fun h => h) fun _ hv hw hpq => h _ hv.lt _ hw.lt hpq

/-! ### All rounds -/

theorem Stable.congr (h : Stable J uf) (hroot : ∀ x, uf'.root x = uf.root x) : Stable J uf' := by
  have hiff : ∀ i j, uf'.Same i j ↔ uf.Same i j := by
    intro i j
    unfold UnionFind.Same
    rw [hroot, hroot]
  intro i j e f hi hj hsame
  rw [hiff]
  refine h i j e f hi hj ⟨hsame.primitive, hsame.params, hsame.operands.imp fun x y hxy => ?_⟩
  exact hxy.imp (fun h => h) (fun h => h) fun _ _ _ hpq => (hiff _ _).mp hpq

/-- Every round but the last takes a root away; in the last no pair is of two classes. -/
theorem mergeLoop_spec (hpy : ReprInjective py J.eqns) (rounds : Nat) (uf : UnionFind)
    (prev : Option (List Nat)) (hrounds : (uf.roots J.eqns.length).card < rounds)
    (hsound : Sound J uf)
    (hprev : ∀ c, prev = some c → c = (range J.eqns.length).map uf.root) :
    ∃ uf', mergeLoop py J.eqns rounds uf prev = some uf' ∧ Sound J uf' ∧ Stable J uf' := by
  induction rounds generalizing uf prev with
  | zero => omega
  | succ rounds ih =>
    have hfound : ∀ x, (fingerprintRound py J.eqns uf).2.root x = uf.root x :=
      uf.root_findAll (range J.eqns.length)
    have hlt : ∀ pair ∈ roundPairs py J uf, pair.1 < J.eqns.length ∧ pair.2 < J.eqns.length :=
      fun _ hpair => lt_of_mem_roundPairs hpy hpair
    have hkeep := hsound.joinAll hpy hfound false
    have hcases := UnionFind.joinAll_cases hlt (fingerprintRound py J.eqns uf).2
    rw [mergeLoop]
    dsimp only
    rw [mergeRound_eq]
    generalize UnionFind.joinAll ((fingerprintRound py J.eqns uf).2, false) (roundPairs py J uf) = s
      at hkeep hcases
    have hcanonical := s.1.findAll_fst (range J.eqns.length)
    have hagain := s.1.root_findAll (range J.eqns.length)
    rcases hcases with ⟨hno, hroots, hpairs⟩ | ⟨hyes, hfewer⟩
    · rw [if_pos (.inl hno)]
      refine ⟨_, rfl, hkeep.congr hagain, ?_⟩
      have hstable : Stable J uf := by
        intro i j e f hi hj hsame
        have hjoined := same_of_roundPairs hpy hpairs hi hj hsame
        unfold UnionFind.Same at hjoined
        rwa [hfound, hfound] at hjoined
      exact (hstable.congr fun x => (hroots x).trans (hfound x)).congr hagain
    · rw [UnionFind.roots_congr hfound] at hfewer
      have hnot : ¬ (s.2 = false ∨ prev = some (s.1.findAll (range J.eqns.length)).1) := by
        rintro (hno | hsame)
        · rw [hyes] at hno
          cases hno
        · -- the list of the roots has changed
          have hmap := hprev _ hsame
          rw [hcanonical] at hmap
          rw [UnionFind.roots_of_map_eq hmap] at hfewer
          exact absurd hfewer (lt_irrefl _)
      rw [if_neg hnot]
      apply ih
      · rw [UnionFind.roots_congr hagain]
        omega
      · exact hkeep.congr hagain
      · intro c hc
        obtain rfl := Option.some.inj hc
        rw [hcanonical]
        exact map_congr_left fun x _ => (hagain x).symm

/-- **The rounds end**, with the classes of what has the same keys. -/
theorem mergeToFixpoint_spec (hpy : ReprInjective py J.eqns) :
    ∃ uf, mergeToFixpoint py J.eqns UnionFind.singletons = some uf ∧
      ∀ i < J.eqns.length, ∀ j < J.eqns.length, uf.Same i j ↔ KeyCongruent J.eqns i j := by
  have hsingletons : Sound J UnionFind.singletons := by
    intro i hi j _ hsame
    unfold UnionFind.Same at hsame
    rw [UnionFind.root_singletons, UnionFind.root_singletons] at hsame
    subst hsame
    exact Jaxpr.cong_refl sameKey_equivalence anyPos_equivalence i hi
  obtain ⟨uf, huf, hsound, hstable⟩ := mergeLoop_spec hpy (J.eqns.length + 1)
    UnionFind.singletons none (Nat.lt_succ_of_le (UnionFind.card_roots_le _ _)) hsingletons
    (by intro c hc; cases hc)
  refine ⟨uf, huf, fun i hi j hj => ⟨hsound i hi j hj, ?_⟩⟩
  -- by induction on the position, as what is read is bound before
  clear hi hj
  induction i using Nat.strong_induction_on generalizing j with
  | _ i ih =>
    intro hcong
    obtain ⟨e, f, hi, hj, hsame⟩ := cong_iff.mp hcong
    refine hstable i j e f hi hj ⟨hsame.primitive, hsame.params, ?_⟩
    refine forall₂_imp_mem hsame.operands fun x hx y _ hxy => ?_
    refine hxy.imp (fun h => h) (fun h => h) fun heq hv _ hpq => ?_
    subst heq
    exact ih _ (J.bound_before hi hx hv) _ hpq

/-! ### Classes -/

/-- The two are in one class. -/
def InOneClass (cs : List (List Nat)) (i j : Nat) : Prop := ∃ members ∈ cs, i ∈ members ∧ j ∈ members

theorem inOneClass_collect (uf : UnionFind) (n i j : Nat) :
    InOneClass ((setdefaultAppend Prod.fst Prod.snd
      ((uf.findAll (List.range n)).1.zip (List.range n))).map Prod.snd) i j ↔
        i < n ∧ j < n ∧ uf.Same i j := by
  have hzip : (uf.findAll (List.range n)).1.zip (List.range n) =
      (List.range n).map fun i => (uf.root i, i) := by
    have hmap := List.zip_map' (f := uf.root) (g := id) (l := List.range n)
    rw [List.map_id] at hmap
    rw [uf.findAll_fst, hmap]
    rfl
  have hmem : ∀ k r, k ∈ ((((List.range n).map fun i => (uf.root i, i)).filter
      fun p => p.1 = r).map Prod.snd) ↔ k < n ∧ uf.root k = r := by
    intro k r
    simp only [List.mem_map, List.mem_filter, List.mem_range, decide_eq_true_eq]
    constructor
    · rintro ⟨_, ⟨⟨x, hx, rfl⟩, hr⟩, rfl⟩
      exact ⟨hx, hr⟩
    · rintro ⟨hk, hr⟩
      exact ⟨_, ⟨⟨k, hk, rfl⟩, hr⟩, rfl⟩
  rw [hzip]
  constructor
  · rintro ⟨members, hmembers, hi, hj⟩
    obtain ⟨⟨r, members⟩, hgroup, rfl⟩ := List.mem_map.mp hmembers
    obtain ⟨-, rfl⟩ := mem_setdefaultAppend.mp hgroup
    obtain ⟨hi, hri⟩ := (hmem i r).mp hi
    obtain ⟨hj, hrj⟩ := (hmem j r).mp hj
    exact ⟨hi, hj, hri.trans hrj.symm⟩
  · rintro ⟨hi, hj, hroot⟩
    refine ⟨_, List.mem_map.mpr ⟨(uf.root i, _), mem_setdefaultAppend.mpr ⟨?_, rfl⟩, rfl⟩,
      (hmem i _).mpr ⟨hi, rfl⟩, (hmem j _).mpr ⟨hj, hroot.symm⟩⟩
    rw [List.map_map]
    exact List.mem_map.mpr ⟨i, List.mem_range.mpr hi, rfl⟩

/-- **The classes are those of what has the same keys.** -/
theorem classes_iff (hpy : ReprInjective py J.eqns) : ∃ cs, classes py J.eqns = some cs ∧
    (∀ i j, InOneClass cs i j → i < J.eqns.length ∧ j < J.eqns.length) ∧
    ∀ i < J.eqns.length, ∀ j < J.eqns.length, InOneClass cs i j ↔ KeyCongruent J.eqns i j := by
  obtain ⟨uf, huf, hsame⟩ := mergeToFixpoint_spec hpy
  refine ⟨_, by rw [classes, huf, Option.map_some], ?_, ?_⟩
  · intro i j h
    obtain ⟨hi, hj, -⟩ := (inOneClass_collect uf _ i j).mp h
    exact ⟨hi, hj⟩
  · intro i hi j hj
    rw [← hsame i hi j hj]
    exact ⟨fun h => ((inOneClass_collect uf _ i j).mp h).2.2,
      fun h => (inOneClass_collect uf _ i j).mpr ⟨hi, hj, h⟩⟩

/-! ### Congruent equations -/

/-- Equations with the same primitive and parameters that read, operand by operand, the same up to
the shapes of literals and output positions read the same. -/
def NoClash (eqns : List (Eqn W)) : Prop :=
  ∀ e ∈ eqns, ∀ f ∈ eqns, e.primitive = f.primitive → e.params.Perm f.params →
    List.Forall₂ (SameOperand eqns SameKey AnyPos (Congruent eqns)) e.invars f.invars →
    List.Forall₂ (SameOperand eqns Eq Eq (Congruent eqns)) e.invars f.invars

theorem Congruent.keyCongruent (h : Congruent J.eqns i j) : KeyCongruent J.eqns i j := by
  induction i using Nat.strong_induction_on generalizing j with
  | _ i ih =>
    obtain ⟨e, f, hi, hj, hsame⟩ := cong_iff.mp h
    refine .intro hi hj hsame.primitive hsame.params ?_
    refine forall₂_imp_mem hsame.operands fun x hx y _ hxy => ?_
    refine hxy.imp (fun h => congrArg literalKey h) (fun _ => trivial) fun heq hv _ hpq => ?_
    subst heq
    exact ih _ (J.bound_before hi hx hv) hpq

/-- Without a clash, by induction on the position, nothing more is related by the keys. -/
theorem congruent_of_noClash (hclash : NoClash J.eqns) (h : KeyCongruent J.eqns i j) :
    Congruent J.eqns i j := by
  induction i using Nat.strong_induction_on generalizing j with
  | _ i ih =>
    obtain ⟨e, f, hi, hj, hsame⟩ := cong_iff.mp h
    refine .intro hi hj hsame.primitive hsame.params ?_
    refine hclash e (mem_of_getElem? hi) f (mem_of_getElem? hj) hsame.primitive hsame.params ?_
    refine forall₂_imp_mem hsame.operands fun x hx y _ hxy => ?_
    refine hxy.imp (fun h => h) (fun h => h) fun heq hv _ hpq => ?_
    subst heq
    exact ih _ (J.bound_before hi hx hv) hpq

theorem noClash_of_congruent (h : ∀ i j, KeyCongruent J.eqns i j → Congruent J.eqns i j) :
    NoClash J.eqns := by
  intro e he f hf hprimitive hparams hoperands
  obtain ⟨i, hi⟩ := mem_iff_getElem?.mp he
  obtain ⟨j, hj⟩ := mem_iff_getElem?.mp hf
  have hkey : KeyCongruent J.eqns i j := by
    refine .intro hi hj hprimitive hparams (hoperands.imp fun x y hxy => ?_)
    exact hxy.imp (fun h => h) (fun h => h) fun _ _ _ hpq => hpq.keyCongruent
  obtain ⟨e', f', hi', hj', hsame⟩ := cong_iff.mp (h i j hkey)
  obtain rfl := Option.some.inj (hi.symm.trans hi')
  obtain rfl := Option.some.inj (hj.symm.trans hj')
  exact hsame.operands

/-- **The classes are those of the congruent equations, whose outputs are the same whatever the
primitives mean, just when there is no clash.** -/
theorem classes_congruent_iff (py : PyRepr W) (J : Jaxpr W) (hpy : ReprInjective py J.eqns) :
    (∃ cs, classes py J.eqns = some cs ∧
      (∀ i < J.eqns.length, ∀ j < J.eqns.length, InOneClass cs i j ↔ Congruent J.eqns i j) ∧
      ∀ (V : Type) (I : Interp W V) (env : Nat → V) (i j : Nat), InOneClass cs i j →
        I.outputs env J.eqns i = I.outputs env J.eqns j) ↔ NoClash J.eqns := by
  obtain ⟨cs, hcs, hbound, hkey⟩ := classes_iff hpy
  constructor
  · rintro ⟨cs', hcs', hcong, -⟩
    obtain rfl := Option.some.inj (hcs.symm.trans hcs')
    refine noClash_of_congruent fun i j h => ?_
    obtain ⟨e, f, he, hf, -⟩ := cong_iff.mp h
    have hi := (List.getElem?_eq_some_iff.mp he).1
    have hj := (List.getElem?_eq_some_iff.mp hf).1
    exact (hcong i hi j hj).mp ((hkey i hi j hj).mpr h)
  · intro hclash
    have hcong : ∀ i < J.eqns.length, ∀ j < J.eqns.length,
        InOneClass cs i j ↔ Congruent J.eqns i j := by
      intro i hi j hj
      rw [hkey i hi j hj]
      exact ⟨congruent_of_noClash hclash, Congruent.keyCongruent⟩
    refine ⟨cs, hcs, hcong, fun V I env i j h => ?_⟩
    obtain ⟨hi, hj⟩ := hbound i j h
    exact outputs_congr I env ((hcong i hi j hj).mp h)

/-- The shape of a literal. -/
def Operand.shape : Operand → List Nat
  | .lit l => l.shape
  | .var _ => []

/-- Where every equation binds one variable and the literals are scalars there is no clash. -/
theorem noClash_of_single (hout : ∀ e ∈ J.eqns, e.outvars.length ≤ 1)
    (hlit : ∀ e ∈ J.eqns, ∀ x ∈ e.invars, x.shape = []) : NoClash J.eqns := by
  have hpos : ∀ {p a v}, IsOutput J.eqns p a v → a = 0 := by
    rintro p a v ⟨e, he, hv⟩
    have hle := hout e (List.mem_of_getElem? he)
    have hlt : a < e.outIds.length := (List.getElem?_eq_some_iff.mp hv).1
    rw [Eqn.outIds, List.length_map] at hlt
    omega
  intro e he f hf _ _ hoperands
  refine forall₂_imp_mem hoperands fun x hx y hy hxy => ?_
  cases hxy with
  | @lit l l' h =>
    obtain ⟨hdtype, hbytes⟩ := Prod.mk.inj h
    have hshape : l.shape = l'.shape := (hlit e he _ hx).trans (hlit f hf _ hy).symm
    refine .lit ?_
    cases l
    cases l'
    cases hdtype
    cases hbytes
    cases hshape
    rfl
  | free h => exact .free h
  | output hv hw _ hpq => exact .output hv hw ((hpos hv).trans (hpos hw).symm) hpq

/-! ### Two jaxprs -/

namespace Sample

/-- The texts that Python gives, where no string has a quote or a backslash. -/
def pyRepr : PyRepr Nat where
  repr n := toString n
  reprItems items := "[" ++ ", ".intercalate (items.map fun kv =>
    "('" ++ kv.1 ++ "', '" ++ kv.2 ++ "')") ++ "]"

def eqn (primitive : String) (invars : List Operand) (outs : List Nat) : Eqn Nat where
  primitive := primitive
  params := []
  invars := invars
  outvars := outs.map fun id => { id := id, shape := [2], itemsize := 4 }

/-- What an equation reads is not bound by it or after it. -/
def jaxpr (eqns : List (Eqn Nat)) (honce : (eqns.flatMap Eqn.outIds).Nodup)
    (hbefore : ∀ e ∈ eqns.zipIdx, ∀ f ∈ eqns.drop e.2, ∀ v ∈ f.outIds,
      Operand.var v ∉ e.1.invars) : Jaxpr Nat where
  eqns := eqns
  bound_once := honce
  bound_before := by
    rintro i e v p a hi hv ⟨f, hp, ha⟩
    by_contra hle
    refine hbefore (e, i) (List.mk_mem_zipIdx_iff_getElem?.mpr hi) f ?_ v
      (List.mem_of_getElem? ha) hv
    refine List.mem_of_getElem? (i := p - i) ?_
    rw [List.getElem?_drop, Nat.add_sub_cancel' (not_lt.mp hle)]
    exact hp

def words : Jaxpr Nat :=
  jaxpr [eqn "threefry2x32" [.var 0, .var 1, .var 2, .var 3] [4, 5], eqn "not" [.var 4] [6],
    eqn "not" [.var 5] [7]] (by decide) (by decide)

def negations : Jaxpr Nat :=
  jaxpr [eqn "not" [.var 0] [1], eqn "not" [.var 0] [2]] (by decide) (by decide)

theorem reprInjective {eqns : List (Eqn Nat)} (h : ∀ e ∈ eqns, e.params = []) :
    ReprInjective pyRepr eqns := by
  intro e he f hf _
  rw [h e he, h f hf]

theorem classes_negations : ∃ cs, classes pyRepr negations.eqns = some cs ∧
    (∀ i < negations.eqns.length, ∀ j < negations.eqns.length,
      InOneClass cs i j ↔ Congruent negations.eqns i j) ∧
    ∀ (V : Type) (I : Interp Nat V) (env : Nat → V) (i j : Nat), InOneClass cs i j →
      I.outputs env negations.eqns i = I.outputs env negations.eqns j :=
  (classes_congruent_iff pyRepr negations (reprInjective (by decide))).mpr
    (noClash_of_single (by decide) (by decide))

/-- Both negations are in one class, though they are of different words. -/
theorem not_classes_congruent : ¬ ∀ (W : Type) (py : PyRepr W) (J : Jaxpr W),
    ReprInjective py J.eqns → ∃ cs, classes py J.eqns = some cs ∧
      (∀ i < J.eqns.length, ∀ j < J.eqns.length, InOneClass cs i j ↔ Congruent J.eqns i j) ∧
      ∀ (V : Type) (I : Interp W V) (env : Nat → V) (i j : Nat), InOneClass cs i j →
        I.outputs env J.eqns i = I.outputs env J.eqns j := by
  intro h
  have hinjective : ReprInjective pyRepr words.eqns := reprInjective (by decide)
  obtain ⟨cs, hcs, hcong, -⟩ := h Nat pyRepr words hinjective
  obtain ⟨cs', hcs', -, hkey⟩ := classes_iff hinjective
  obtain rfl := Option.some.inj (hcs.symm.trans hcs')
  have hfirst : IsOutput words.eqns 0 0 4 := ⟨_, rfl, rfl⟩
  have hsecond : IsOutput words.eqns 0 1 5 := ⟨_, rfl, rfl⟩
  have hsplit : KeyCongruent words.eqns 0 0 :=
    Jaxpr.cong_refl sameKey_equivalence anyPos_equivalence 0 (by decide)
  have hrelated : KeyCongruent words.eqns 1 2 :=
    .intro rfl rfl rfl (.refl _) (.cons (.output hfirst hsecond trivial hsplit) .nil)
  have hcongruent := (hcong 1 (by decide) 2 (by decide)).mp
    ((hkey 1 (by decide) 2 (by decide)).mpr hrelated)
  obtain ⟨e, f, he, hf, hsame⟩ := cong_iff.mp hcongruent
  obtain rfl := Option.some.inj he
  obtain rfl := Option.some.inj hf
  cases hsame.operands with
  | cons hoperand _ =>
    cases hoperand with
    | output hv hw hpos _ =>
      -- the two words are different outputs
      obtain ⟨-, rfl⟩ := Jaxpr.output_unique hv hfirst
      obtain ⟨-, rfl⟩ := Jaxpr.output_unique hw hsecond
      cases hpos

end Sample

end Xtrax.Cse
