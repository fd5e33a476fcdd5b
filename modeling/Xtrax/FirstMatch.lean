import Mathlib.Data.List.Perm.Basic
import Mathlib.Tactic.Common

/-! # The first entry that is wanted

A list is gone through up to the first entry that is wanted, and this entry alone is judged; an
entry before it may stop the scan, and the judgement may fail (`scan`).  The verdict over all the
wanted entries does not depend on their order (`verdict_congr`).  The scan gives it just when it
gets to its entry and this one is good, or none is (`scan_eq_iff`).
-/
namespace FirstMatch

open List Option

inductive Outcome
  | approved | expired | noMatch
  deriving DecidableEq

variable {E : Type} {pass wanted : E → Bool} {judge : E → Option Bool} {l l' : List E} {e : E}

/-- Up to the first wanted entry; what may not be passed stops the scan. -/
def scan (pass wanted : E → Bool) (judge : E → Option Bool) : List E → Option Outcome
  | [] => some .noMatch
  | e :: rest =>
    if wanted e then (judge e).map fun good => if good then .approved else .expired
    else if pass e then scan pass wanted judge rest
    else none

/-- Some wanted entry is good, or there are only others, or there is none. -/
def verdict (wanted : E → Bool) (judge : E → Option Bool) (l : List E) : Outcome :=
  if ∃ e ∈ l, wanted e ∧ judge e = some true then .approved
  else if ∃ e ∈ l, wanted e then .expired
  else .noMatch

/-- The wanted entries are the same, in any order. -/
def SameWanted (wanted : E → Bool) (l l' : List E) : Prop :=
  (l.filter wanted).Perm (l'.filter wanted)

theorem SameWanted.exists_iff (h : SameWanted wanted l l') {p : E → Prop} :
    (∃ e ∈ l, wanted e ∧ p e) ↔ ∃ e ∈ l', wanted e ∧ p e := by
  have hmem : ∀ e, e ∈ l ∧ wanted e = true ↔ e ∈ l' ∧ wanted e = true := by
    intro e
    rw [← mem_filter, ← mem_filter]
    exact List.Perm.mem_iff h
  constructor
  · rintro ⟨e, he, hw, hp⟩
    obtain ⟨he', -⟩ := (hmem e).mp ⟨he, hw⟩
    exact ⟨e, he', hw, hp⟩
  · rintro ⟨e, he, hw, hp⟩
    obtain ⟨he', -⟩ := (hmem e).mpr ⟨he, hw⟩
    exact ⟨e, he', hw, hp⟩

/-- **The verdict depends on the wanted entries only**, and not on their order. -/
theorem verdict_congr (h : SameWanted wanted l l') :
    verdict wanted judge l = verdict wanted judge l' := by
  have hany : (∃ e ∈ l, wanted e = true) ↔ ∃ e ∈ l', wanted e = true := by
    have htrue := h.exists_iff (p := fun _ => True)
    simpa only [and_true] using htrue
  unfold verdict
  simp only [h.exists_iff, hany]

theorem verdict_approved (h : ∃ e ∈ l, wanted e ∧ judge e = some true) :
    verdict wanted judge l = .approved := if_pos h

/-- What comes before the first wanted entry. -/
def before (wanted : E → Bool) (l : List E) : List E := l.takeWhile fun e => !wanted e

theorem before_cons : before wanted (e :: l) = if wanted e then [] else e :: before wanted l := by
  rw [before, takeWhile_cons]
  cases wanted e <;> rfl

/-- When the scan gets to its entry, and that one tells about all of them. -/
structure Settled (pass wanted : E → Bool) (judge : E → Option Bool) (l : List E) : Prop where
  passes : ∀ e ∈ before wanted l, pass e = true
  first : ∀ e, l.find? wanted = some e → judge e = some true ∨
    judge e = some false ∧ ∀ e' ∈ l, wanted e' → judge e' ≠ some true

theorem scan_eq (h : ∀ e ∈ before wanted l, pass e = true) :
    scan pass wanted judge l =
      match l.find? wanted with
      | none => some .noMatch
      | some e => (judge e).map fun good => if good then .approved else .expired := by
  induction l with
  | nil => rfl
  | cons a l ih =>
    rw [scan]
    by_cases ha : wanted a = true
    · rw [if_pos ha, find?_cons_of_pos ha]
    · rw [before_cons, if_neg ha] at h
      rw [if_neg ha, if_pos (h a mem_cons_self), find?_cons_of_neg ha]
      exact ih fun e he => h e (mem_cons_of_mem _ he)

theorem pass_of_scan {outcome : Outcome} (h : scan pass wanted judge l = some outcome) :
    ∀ e ∈ before wanted l, pass e = true := by
  induction l with
  | nil =>
    intro e he
    exact absurd he not_mem_nil
  | cons a l ih =>
    rw [scan] at h
    rw [before_cons]
    by_cases ha : wanted a = true
    · rw [if_pos ha]
      intro e he
      exact absurd he not_mem_nil
    · rw [if_neg ha] at h ⊢
      by_cases hpass : pass a = true
      · rw [if_pos hpass] at h
        exact forall_mem_cons.mpr ⟨hpass, ih h⟩
      · rw [if_neg hpass] at h
        cases h

/-- **The scan gives the verdict** just when it is settled. -/
theorem scan_eq_iff :
    scan pass wanted judge l = some (verdict wanted judge l) ↔ Settled pass wanted judge l := by
  have hresult : (∀ e ∈ before wanted l, pass e = true) →
      (scan pass wanted judge l = some (verdict wanted judge l) ↔
        ∀ e, l.find? wanted = some e → judge e = some true ∨
          judge e = some false ∧ ∀ e' ∈ l, wanted e' → judge e' ≠ some true) := by
    intro hpasses
    rw [scan_eq hpasses]
    cases hfind : l.find? wanted with
    | none =>
      have hnone : ∀ e ∈ l, ¬ wanted e = true := find?_eq_none.mp hfind
      refine ⟨fun _ e he => absurd he (some_ne_none e).symm, fun _ => ?_⟩
      rw [verdict, if_neg fun ⟨e, he, hw, _⟩ => hnone e he hw, if_neg fun ⟨e, he, hw⟩ => hnone e he hw]
    | some e =>
      have hmem : e ∈ l := mem_of_find?_eq_some hfind
      have hw : wanted e = true := find?_some hfind
      dsimp only
      cases hjudge : judge e with
      | none =>
        refine ⟨fun h => absurd h.symm (some_ne_none _), fun h => ?_⟩
        rcases h e rfl with h | ⟨h, -⟩ <;> rw [hjudge] at h <;> cases h
      | some good =>
        cases good with
        | true =>
          refine ⟨fun _ e' he' => ?_, fun _ => ?_⟩
          · obtain rfl := some.inj he'
            exact .inl hjudge
          · rw [verdict_approved ⟨e, hmem, hw, hjudge⟩]
            rfl
        | false =>
          constructor
          · intro h e' he'
            obtain rfl := some.inj he'
            refine .inr ⟨hjudge, fun e' hmem' hw' hgood => ?_⟩
            rw [verdict_approved ⟨e', hmem', hw', hgood⟩] at h
            cases h
          · intro h
            rcases h e rfl with htrue | ⟨-, hnone⟩
            · rw [hjudge] at htrue
              cases htrue
            · rw [verdict, if_neg fun ⟨e', he', hw', hgood⟩ => hnone e' he' hw' hgood,
                if_pos ⟨e, hmem, hw⟩]
              rfl
  constructor
  · intro h
    have hpasses := pass_of_scan h
    exact ⟨hpasses, (hresult hpasses).mp h⟩
  · intro h
    exact (hresult h.passes).mpr h.first

/-- What a scan returns, if it returns, is the verdict unless it misses a good entry. -/
theorem scan_eq_verdict {outcome : Outcome} (h : scan pass wanted judge l = some outcome)
    (hgood : (∃ e ∈ l, wanted e ∧ judge e = some true) → outcome = .approved) :
    outcome = verdict wanted judge l := by
  by_cases hsome : ∃ e ∈ l, wanted e ∧ judge e = some true
  · rw [verdict_approved hsome]
    exact hgood hsome
  · rw [scan_eq (pass_of_scan h)] at h
    cases hfind : l.find? wanted with
    | none =>
      rw [hfind] at h
      obtain rfl := some.inj h
      have hnone : ∀ e ∈ l, ¬ wanted e = true := find?_eq_none.mp hfind
      rw [verdict, if_neg hsome, if_neg fun ⟨e, he, hw⟩ => hnone e he hw]
    | some e =>
      have hmem : e ∈ l := mem_of_find?_eq_some hfind
      have hw : wanted e = true := find?_some hfind
      rw [hfind] at h
      dsimp only at h
      rw [verdict, if_neg hsome, if_pos ⟨e, hmem, hw⟩]
      cases hjudge : judge e with
      | none =>
        rw [hjudge] at h
        cases h
      | some good =>
        rw [hjudge] at h
        cases good with
        | true => exact absurd ⟨e, hmem, hw, hjudge⟩ hsome
        | false => exact (some.inj h).symm

/-- **Two scans of the same wanted entries agree**, and approve when an entry is good, just when
both are settled. -/
theorem agree_iff (h : SameWanted wanted l l') :
    (∃ outcome, scan pass wanted judge l = some outcome ∧
      scan pass wanted judge l' = some outcome ∧
        ((∃ e ∈ l, wanted e ∧ judge e = some true) → outcome = .approved)) ↔
      Settled pass wanted judge l ∧ Settled pass wanted judge l' := by
  constructor
  · rintro ⟨outcome, hl, hl', hgood⟩
    have hgood' : (∃ e ∈ l', wanted e ∧ judge e = some true) → outcome = .approved := fun hsome =>
      hgood (h.exists_iff.mpr hsome)
    have heq := scan_eq_verdict hl hgood
    have heq' := scan_eq_verdict hl' hgood'
    exact ⟨scan_eq_iff.mp (hl.trans (congrArg some heq)),
      scan_eq_iff.mp (hl'.trans (congrArg some heq'))⟩
  · rintro ⟨hl, hl'⟩
    refine ⟨verdict wanted judge l, scan_eq_iff.mpr hl, ?_, verdict_approved⟩
    rw [verdict_congr h]
    exact scan_eq_iff.mpr hl'

end FirstMatch
