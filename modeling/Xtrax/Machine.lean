import Mathlib.Logic.Function.Basic

/-! # Machines, runs and guarded reachability

A `Machine` is a set of initial states and a partial step function: `step s a` is
the state after the event `a`, and `none` when `a` cannot happen in `s`.  The events
of an interleaving say who moves and what the environment answers, so a run is
nothing but a list of events.

`Reachable` quantifies over every run, `Reaches G` over the runs whose every event
`a` is allowed by `G` in the state it happens in: a property that fails of some run
is stated for the runs that keep a condition.  `Reaches.invariant` is the induction
both rest on.  Runs given as lists are executable (`run`).
-/
namespace Interleaving

/-- A labelled transition system with a partial step function. -/
structure Machine (σ α : Type*) where
  init : σ → Prop
  step : σ → α → Option σ

namespace Machine
variable {σ α : Type*} (M : Machine σ α)

/-- The states reached by runs whose every event is allowed by `G` in the state
it happens in. -/
inductive Reaches (G : σ → α → Prop) : σ → Prop
  | start {s : σ} : M.init s → Reaches G s
  | next {s t : σ} {a : α} : Reaches G s → G s a → M.step s a = some t → Reaches G t

/-- The states reached by any run. -/
abbrev Reachable : σ → Prop := M.Reaches fun _ _ => True

variable {M} {G G' : σ → α → Prop}

/-- **The invariant rule.**  What holds initially and is preserved by every
allowed event holds in every state such runs reach. -/
theorem Reaches.invariant {I : σ → Prop} (h0 : ∀ s, M.init s → I s)
    (hstep : ∀ s a t, I s → G s a → M.step s a = some t → I t) {s : σ}
    (h : M.Reaches G s) : I s := by
  induction h with
  | start hi => exact h0 _ hi
  | next _ hg ht ih => exact hstep _ _ _ ih hg ht

variable (M)

/-- The state after the events `as`, `none` if one of them cannot happen. -/
def run (s : σ) : List α → Option σ
  | [] => some s
  | a :: as => (M.step s a).bind fun t => run t as

/-- The events `as` can happen one after the other, each allowed by `G`. -/
def Allowed (G : σ → α → Prop) (s : σ) : List α → Prop
  | [] => True
  | a :: as => G s a ∧
      match M.step s a with
      | none => False
      | some t => Allowed G t as

instance decidableAllowed [∀ s a, Decidable (G s a)] : ∀ s as, Decidable (M.Allowed G s as)
  | _, [] => .isTrue trivial
  | s, a :: as => by
      unfold Allowed
      exact match M.step s a with
        | none => inferInstanceAs (Decidable (G s a ∧ False))
        | some t =>
          have : Decidable (M.Allowed G t as) := decidableAllowed t as
          inferInstanceAs (Decidable (G s a ∧ M.Allowed G t as))

/-- `I` holds in every state the events `as` pass through. -/
def Always (I : σ → Prop) (s : σ) : List α → Prop
  | [] => I s
  | a :: as => I s ∧
      match M.step s a with
      | none => True
      | some t => Always I t as

instance decidableAlways {I : σ → Prop} [DecidablePred I] : ∀ s as, Decidable (M.Always I s as)
  | s, [] => inferInstanceAs (Decidable (I s))
  | s, a :: as => by
      unfold Always
      exact match M.step s a with
        | none => inferInstanceAs (Decidable (I s ∧ True))
        | some t =>
          have : Decidable (M.Always I t as) := decidableAlways t as
          inferInstanceAs (Decidable (I s ∧ M.Always I t as))

variable {M}

@[simp] theorem run_nil (s : σ) : M.run s [] = some s := rfl

theorem run_cons (s : σ) (a : α) (as : List α) :
    M.run s (a :: as) = (M.step s a).bind fun t => M.run t as := rfl

theorem Reaches.run_allowed {s t : σ} {as : List α} (h : M.Reaches G s)
    (ha : M.Allowed G s as) (ht : M.run s as = some t) : M.Reaches G t := by
  induction as generalizing s with
  | nil =>
    obtain rfl : s = t := by simpa using ht
    exact h
  | cons a as ih =>
    rw [run_cons] at ht
    obtain ⟨hg, ha⟩ := ha
    cases hs : M.step s a with
    | none => simp [hs] at ht
    | some u =>
      rw [hs] at ha ht
      exact ih (.next h hg hs) ha ht

theorem run_invariant {I : σ → Prop} (hstep : ∀ s a t, I s → M.step s a = some t → I t) {s t : σ}
    {as : List α} (hs : I s) (ht : M.run s as = some t) : I t := by
  induction as generalizing s with
  | nil =>
    obtain rfl : s = t := by simpa using ht
    exact hs
  | cons a as ih =>
    rw [run_cons] at ht
    obtain ⟨u, hu, ht⟩ := Option.bind_eq_some_iff.mp ht
    exact ih (hstep s a u hs hu) ht

theorem reaches_of_allowed {s t : σ} {as : List α} (hi : M.init s) (ha : M.Allowed G s as)
    (ht : M.run s as = some t) : M.Reaches G t :=
  (Reaches.start hi).run_allowed ha ht

theorem reachable_of_run {s t : σ} {as : List α} (hi : M.init s)
    (ht : M.run s as = some t) : M.Reachable t := by
  suffices ∀ u, M.Reachable u → M.run u as = some t → M.Reachable t from this s (.start hi) ht
  clear hi ht
  induction as with
  | nil =>
    intro u hu hr
    obtain rfl : u = t := by simpa using hr
    exact hu
  | cons a as ih =>
    intro u hu hr
    rw [run_cons] at hr
    obtain ⟨v, hv, hr⟩ := Option.bind_eq_some_iff.mp hr
    exact ih v (.next hu trivial hv) hr

/-- **Runs that keep a property are the allowed runs**, for a machine whose events
can always happen and a condition that is exact one step at a time. -/
theorem always_iff_allowed {J I : σ → Prop}
    (hstep : ∀ s a, J s → ∃ t, M.step s a = some t ∧ J t ∧ (I s → (I t ↔ G s a)))
    {s : σ} (hJ : J s) (hI : I s) (as : List α) : M.Always I s as ↔ M.Allowed G s as := by
  induction as generalizing s with
  | nil => exact ⟨fun _ => trivial, fun _ => hI⟩
  | cons a as ih =>
    obtain ⟨t, ht, hJt, hiff⟩ := hstep s a hJ
    simp only [Always, Allowed, ht, hI, true_and]
    constructor
    · intro h
      have hIt : I t := by
        cases as with
        | nil => exact h
        | cons b bs => exact h.1
      exact ⟨(hiff hI).mp hIt, (ih hJt hIt).mp h⟩
    · rintro ⟨hg, h⟩
      exact (ih hJt ((hiff hI).mpr hg)).mpr h

/-- Runs that keep a property are the allowed runs, for a schedule that can happen and a
condition that is exact one step at a time. -/
theorem always_iff_allowed_of_run {J I : σ → Prop}
    (hstep : ∀ s a t, J s → M.step s a = some t → J t ∧ (I s → (I t ↔ G s a)))
    {s t : σ} {as : List α} (hJ : J s) (hI : I s) (hrun : M.run s as = some t) :
    M.Always I s as ↔ M.Allowed G s as := by
  induction as generalizing s with
  | nil => exact ⟨fun _ => trivial, fun _ => hI⟩
  | cons a as ih =>
    rw [run_cons] at hrun
    obtain ⟨u, hu, hrun⟩ := Option.bind_eq_some_iff.mp hrun
    obtain ⟨hJu, hiff⟩ := hstep s a u hJ hu
    simp only [Always, Allowed, hu, hI, true_and]
    constructor
    · intro h
      -- the first state of the rest of the run keeps the property
      have hIu : I u := by
        cases as with
        | nil => exact h
        | cons b bs => exact h.1
      exact ⟨(hiff hI).mp hIu, (ih hJu hIu hrun).mp h⟩
    · rintro ⟨hg, h⟩
      exact (ih hJu ((hiff hI).mpr hg) hrun).mpr h

theorem Always.mono {I J : σ → Prop} (himp : ∀ s, I s → J s) {s : σ} {as : List α}
    (h : M.Always I s as) : M.Always J s as := by
  induction as generalizing s with
  | nil => exact himp s h
  | cons a as ih =>
    refine ⟨himp s h.1, ?_⟩
    have hrest := h.2
    cases hs : M.step s a with
    | none => trivial
    | some u =>
      rw [hs] at hrest
      exact ih hrest

theorem Always.last {I : σ → Prop} {s t : σ} {as : List α} (h : M.Always I s as)
    (hrun : M.run s as = some t) : I t := by
  induction as generalizing s with
  | nil =>
    obtain rfl : s = t := by simpa using hrun
    exact h
  | cons a as ih =>
    rw [run_cons] at hrun
    obtain ⟨u, hu, hrun⟩ := Option.bind_eq_some_iff.mp hrun
    have hrest := h.2
    rw [hu] at hrest
    exact ih hrest hrun

theorem always_of_last {I : σ → Prop} (hstep : ∀ s a t, M.step s a = some t → I t → I s) {s t : σ}
    {as : List α} (ht : I t) (hrun : M.run s as = some t) : M.Always I s as := by
  induction as generalizing s with
  | nil =>
    obtain rfl : s = t := by simpa using hrun
    exact ht
  | cons a as ih =>
    rw [run_cons] at hrun
    obtain ⟨u, hu, hrun⟩ := Option.bind_eq_some_iff.mp hrun
    have hrest := ih hrun
    have hIu : I u := by
      cases as with
      | nil => exact hrest
      | cons b bs => exact hrest.1
    simp only [Always, hu]
    exact ⟨hstep s a u hu hIu, hrest⟩

end Machine
end Interleaving
