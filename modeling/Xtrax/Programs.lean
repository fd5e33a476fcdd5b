import Xtrax.Machine

/-!
# Programs that share a store

A `Program` is a tree of commands: after each command it goes on with the answer.  The same
program runs alone (`Program.runWith`) or beside others, a command at a time (`Store.system`),
and may stop for good before any command.

`p.Meets exec rely G Q s` says of the program `p`, when the store is `s`: whatever the others do,
as long as each of their steps is in `rely`, every command of `p` changes the store as `G` allows,
and at the end of `p` the store is as `Q` says.  If all programs are safe and what `G` allows is in
`rely`, then every step of every interleaving is in `G` (`system_step`).
-/

namespace Interleaving

open Option

variable {C : Type} {R : C → Type} {α β σ ν : Type}

/-- A tree of commands `c : C`, each with an answer in `R c`. -/
inductive Program (C : Type) (R : C → Type) (α : Type) where
  | ret (a : α)
  | call (c : C) (k : R c → Program C R α)

namespace Program

/-- A single command. -/
def command (c : C) : Program C R (R c) := .call c .ret

def bind : Program C R α → (α → Program C R β) → Program C R β
  | .ret a, f => f a
  | .call c k, f => .call c fun r => (k r).bind f

instance : Monad (Program C R) where
  pure := .ret
  bind := bind

@[simp] theorem pure_eq (a : α) : (pure a : Program C R α) = .ret a := rfl

@[simp] theorem ret_bind (a : α) (f : α → Program C R β) :
    (Program.ret a : Program C R α) >>= f = f a := rfl

@[simp] theorem call_bind (c : C) (k : R c → Program C R α) (f : α → Program C R β) :
    Program.call c k >>= f = .call c fun r => k r >>= f := rfl

@[simp] theorem command_bind (c : C) (f : R c → Program C R β) :
    (command c : Program C R (R c)) >>= f = .call c f := rfl

/-- The program on its own, each command carried out by `handle`. -/
def interpret {m : Type → Type} [Monad m] (handle : (c : C) → m (R c)) : Program C R α → m α
  | .ret a => Pure.pure a
  | .call c k => handle c >>= fun r => (k r).interpret handle

end Program

/-- What a command answers and what it makes of the store; `ν` is what else decides it. -/
abbrev Exec (σ ν : Type) (C : Type) (R : C → Type) := σ → ν → (c : C) → R c × σ

/-! ### Safe programs -/

section

variable (exec : Exec σ ν C R) (rely G : σ → σ → Prop)

/-- Every command of the program changes the store as `G` allows and at its end `Q` holds, if
before each command the others change the store as `rely` allows. -/
def Program.Meets (Q : α → σ → Prop) : Program C R α → σ → Prop
  | .ret a, s => Q a s
  | .call c k, s => ∀ t n, rely s t → G t (exec t n c).2 ∧ (k (exec t n c).1).Meets Q (exec t n c).2

/-- Every command of the program changes the store as `G` allows. -/
abbrev Program.Safe (p : Program C R α) (s : σ) : Prop :=
  p.Meets exec rely G (fun _ _ => True) s

variable {exec rely G}

theorem Program.meets_bind {p : Program C R α} {f : α → Program C R β} {Q : β → σ → Prop}
    {s : σ} : (p >>= f).Meets exec rely G Q s ↔
      p.Meets exec rely G (fun a t => (f a).Meets exec rely G Q t) s := by
  induction p generalizing s with
  | ret a => exact Iff.rfl
  | call c k ih =>
    rw [call_bind]
    refine forall_congr' fun t => forall_congr' fun n => imp_congr_right fun _ => ?_
    exact and_congr_right fun _ => ih _

theorem Program.meets_trivial {p : Program C R α} {s : σ} :
    p.Meets exec rely (fun _ _ => True) (fun _ _ => True) s := by
  induction p generalizing s with
  | ret a => exact trivial
  | call c k ih => exact fun t n _ => ⟨trivial, ih _⟩

theorem Program.Safe.stable (htrans : ∀ s t u, rely s t → rely t u → rely s u)
    {p : Program C R α} {s t : σ} (h : p.Safe exec rely G s) (hst : rely s t) :
    p.Safe exec rely G t := by
  cases p with
  | ret a => exact trivial
  | call c k => exact fun u n htu => h u n (htrans _ _ _ hst htu)

end

/-! ### Programs side by side -/

/-- Programs over one store: `running i` is the name of the program process `i` runs, and what
is left of it. -/
structure Shared (C : Type) (R : C → Type) (ι κ α σ : Type) where
  store : σ
  running : ι → Option (κ × Program C R α)

/-- The events of an interleaving: process `i` starts the program named `j`, runs its next
command, or stops for good. -/
inductive Move (ι κ ν : Type) where
  | start (i : ι) (j : κ)
  | command (i : ι) (n : ν)
  | stop (i : ι)
  deriving DecidableEq

section

variable {ι κ : Type} [DecidableEq ι]
variable (exec : Exec σ ν C R) (programs : κ → Program C R α)

/-- The interleavings of programs from `programs`, started when and as often as one likes. -/
def system (init : σ → Prop) : Machine (Shared C R ι κ α σ) (Move ι κ ν) where
  init s := init s.store ∧ ∀ i, s.running i = none
  step s
    | .start i j =>
      match s.running i with
      | some _ => none
      | none => some { s with running := Function.update s.running i (some (j, programs j)) }
    | .command i n =>
      match s.running i with
      | some (j, .call c k) =>
        some
          { store := (exec s.store n c).2
            running := Function.update s.running i (some (j, k (exec s.store n c).1)) }
      | some (_, .ret _) => some { s with running := Function.update s.running i none }
      | none => none
    | .stop i => some { s with running := Function.update s.running i none }

variable {exec programs} {init I : σ → Prop} {rely : σ → σ → Prop} {G : κ → σ → σ → Prop}

/-- All that is left of the running programs is safe. -/
def AllSafe (exec : Exec σ ν C R) (rely : σ → σ → Prop) (G : κ → σ → σ → Prop)
    (s : Shared C R ι κ α σ) : Prop :=
  ∀ i j p, s.running i = some (j, p) → p.Safe exec rely (G j) s.store

theorem AllSafe.update {s : Shared C R ι κ α σ} (h : AllSafe exec rely G s) {t : σ} {i : ι}
    {p : Option (κ × Program C R α)} (htrans : ∀ s t u, rely s t → rely t u → rely s u)
    (hst : rely s.store t) (hp : ∀ j q, p = some (j, q) → q.Safe exec rely (G j) t) :
    AllSafe exec rely G ⟨t, Function.update s.running i p⟩ := by
  intro i' j q hq
  dsimp only at hq
  by_cases hi : i' = i
  · subst hi
    rw [Function.update_self] at hq
    exact hp j q hq
  · rw [Function.update_of_ne hi] at hq
    exact (h i' j q hq).stable htrans hst

/-- What one step of an interleaving of safe programs does: a command of the program that ran
it, or nothing to the store. -/
theorem AllSafe.step (hrefl : ∀ s, rely s s) (htrans : ∀ s t u, rely s t → rely t u → rely s u)
    (hG : ∀ j s t, G j s t → rely s t)
    (hsafe : ∀ j s, I s → (programs j).Safe exec rely (G j) s) {s t : Shared C R ι κ α σ}
    {m : Move ι κ ν} (hI : I s.store) (h : AllSafe exec rely G s)
    (hst : (system exec programs init).step s m = some t) :
    (t.store = s.store ∨ ∃ i n j p, m = .command i n ∧ s.running i = some (j, p) ∧
      G j s.store t.store) ∧ AllSafe exec rely G t := by
  cases m with
  | start i j =>
    simp only [system] at hst
    cases hr : s.running i with
    | some p => simp [hr] at hst
    | none =>
      simp only [hr, some.injEq] at hst
      subst hst
      refine ⟨.inl rfl, h.update htrans (hrefl _) fun j' q hq => ?_⟩
      cases hq
      exact hsafe j _ hI
  | command i n =>
    simp only [system] at hst
    rcases hr : s.running i with - | ⟨j, p⟩
    · simp [hr] at hst
    · cases p with
      | ret a =>
        simp only [hr, some.injEq] at hst
        subst hst
        exact ⟨.inl rfl, h.update htrans (hrefl _) fun _ q hq => nomatch hq⟩
      | call c k =>
        simp only [hr, some.injEq] at hst
        subst hst
        obtain ⟨hg, hk⟩ := h i j _ hr s.store n (hrefl _)
        refine ⟨.inr ⟨i, n, j, _, rfl, hr, hg⟩, h.update htrans (hG _ _ _ hg) fun j' q hq => ?_⟩
        cases hq
        exact hk
  | stop i =>
    obtain rfl := some.inj hst
    exact ⟨.inl rfl, h.update htrans (hrefl _) fun _ q hq => nomatch hq⟩

variable (hrefl : ∀ s, rely s s) (htrans : ∀ s t u, rely s t → rely t u → rely s u)
  (hG : ∀ j s t, G j s t → rely s t) (hinit : ∀ s, init s → I s)
  (hI : ∀ s t, rely s t → I s → I t)
  (hsafe : ∀ j s, I s → (programs j).Safe exec rely (G j) s)
include hrefl htrans hG hinit hI hsafe

/-- In every reachable state of an interleaving of safe programs, what is left of them is
safe. -/
theorem allSafe_of_reachable {s : Shared C R ι κ α σ}
    (h : (system exec programs init).Reachable s) : I s.store ∧ AllSafe exec rely G s := by
  refine Machine.Reaches.invariant
    (I := fun s : Shared C R ι κ α σ => I s.store ∧ AllSafe exec rely G s) ?_ ?_ h
  · intro s hs
    refine ⟨hinit _ hs.1, fun i j p hp => ?_⟩
    rw [hs.2 i] at hp
    exact nomatch hp
  · rintro s a t ⟨hs, hsafes⟩ _ hst
    obtain ⟨hstep, ht⟩ := hsafes.step hrefl htrans hG hsafe hs hst
    refine ⟨?_, ht⟩
    rcases hstep with hsame | ⟨_, _, j, _, _, _, hallowed⟩
    · exact hsame ▸ hs
    · exact hI _ _ (hG j _ _ hallowed) hs

/-- **Every step of every interleaving of safe programs is allowed**: it leaves the store as it
is, or it is a command of some program. -/
theorem system_step {s t : Shared C R ι κ α σ} {m : Move ι κ ν}
    (h : (system exec programs init).Reachable s)
    (hst : (system exec programs init).step s m = some t) :
    t.store = s.store ∨ ∃ i n j p, m = .command i n ∧ s.running i = some (j, p) ∧
      G j s.store t.store := by
  obtain ⟨hs, hsafes⟩ := allSafe_of_reachable hrefl htrans hG hinit hI hsafe h
  exact (hsafes.step hrefl htrans hG hsafe hs hst).1

end

end Interleaving
