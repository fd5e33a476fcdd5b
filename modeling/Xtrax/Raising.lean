import Mathlib.Tactic.Common

/-!
# Computations that change a state and may raise

What a computation changed before it raised stays changed.  `wp m Q E s` says how `m` ends when
it starts in `s`: it returns so that `Q` holds, or it raises so that `E` holds.  There is one
equation for each way a computation is put together, and `Keeps I m` says that `I` is kept
however `m` ends.

A program talks to its collaborators by calls (`ask`).  What a call returns or raises is decided
by an environment that has seen every call before it.  What leaves a computation as an exception
names the call it came from (`Raised`).
-/

namespace Xtrax

/-- Computations over states `σ` that may raise an `ε`. -/
abbrev Raising (ε σ α : Type) := EStateM ε σ α

namespace Raising

variable {ε ε' σ τ α β : Type}

/-- How a computation that starts in `s` ends. -/
def wp (m : Raising ε σ α) (Q : α → σ → Prop) (E : ε → σ → Prop) (s : σ) : Prop :=
  match m s with
  | .ok a t => Q a t
  | .error e t => E e t

/-- `try`: what the computation raised is handed on as a value. -/
def attempt (m : Raising ε σ α) : Raising ε' σ (Except ε α) := fun s =>
  match m s with
  | .ok a t => .ok (.ok a) t
  | .error e t => .ok (.error e) t

/-- `try … finally`: the clean-up runs in any case, and what it raises replaces what was raised. -/
def withCleanup (m : Raising ε σ α) (clean : Raising ε σ Unit) : Raising ε σ α := fun s =>
  match m s with
  | .ok a t =>
    match clean t with
    | .ok _ u => .ok a u
    | .error e u => .error e u
  | .error e t =>
    match clean t with
    | .ok _ u => .error e u
    | .error e' u => .error e' u

/-- A computation on a part of the state. -/
def onPart (get : τ → σ) (set : σ → τ → τ) (f : ε → ε') (m : Raising ε σ α) :
    Raising ε' τ α := fun t =>
  match m (get t) with
  | .ok a s => .ok a (set s t)
  | .error e s => .error (f e) (set s t)

section

variable {m : Raising ε σ α} {k : α → Raising ε σ β} {Q Q' : α → σ → Prop} {E E' : ε → σ → Prop}
variable {R : β → σ → Prop} {s : σ}

theorem wp.mono (h : wp m Q E s) (hQ : ∀ a t, Q a t → Q' a t) (hE : ∀ e t, E e t → E' e t) :
    wp m Q' E' s := by
  unfold wp at *
  cases hm : m s with
  | ok a t =>
    rw [hm] at h
    exact hQ a t h
  | error e t =>
    rw [hm] at h
    exact hE e t h

theorem wp.and (h : wp m Q E s) (h' : wp m Q' E' s) :
    wp m (fun a t => Q a t ∧ Q' a t) (fun e t => E e t ∧ E' e t) s := by
  unfold wp at *
  cases hm : m s with
  | ok a t =>
    rw [hm] at h h'
    exact ⟨h, h'⟩
  | error e t =>
    rw [hm] at h h'
    exact ⟨h, h'⟩

@[simp] theorem wp_pure {a : α} : wp (pure a : Raising ε σ α) Q E s ↔ Q a s := Iff.rfl

@[simp] theorem wp_bind : wp (m >>= k) R E s ↔ wp m (fun a t => wp (k a) R E t) E s := by
  unfold wp
  show (match EStateM.bind m k s with | .ok b t => R b t | .error e t => E e t) ↔ _
  unfold EStateM.bind
  cases m s <;> rfl

@[simp] theorem wp_seqRight {n : Raising ε σ β} :
    wp (m *> n) R E s ↔ wp m (fun _ t => wp n R E t) E s := by
  unfold wp
  show (match EStateM.seqRight m (fun _ => n) s with | .ok b t => R b t | .error e t => E e t) ↔ _
  unfold EStateM.seqRight
  cases m s <;> rfl

@[simp] theorem wp_ite {c : Prop} [Decidable c] {n : Raising ε σ α} :
    wp (if c then m else n) Q E s ↔ if c then wp m Q E s else wp n Q E s := by
  split <;> rfl

@[simp] theorem wp_attempt {Q : Except ε α → σ → Prop} {E : ε' → σ → Prop} :
    wp (attempt m) Q E s ↔ wp m (fun a t => Q (.ok a) t) (fun e t => Q (.error e) t) s := by
  unfold wp attempt
  cases m s <;> rfl

/-- What leaves a guarded region is what the clean-up raised, else what the region raised. -/
@[simp] theorem wp_finally {clean : Raising ε σ Unit} :
    wp (withCleanup m clean) Q E s ↔
      wp m (fun a t => wp clean (fun _ => Q a) E t) (fun e t => wp clean (fun _ => E e) E t) s := by
  unfold wp withCleanup
  cases m s with
  | ok a t => cases hc : clean t <;> simp [hc]
  | error e t => cases hc : clean t <;> simp [hc]

@[simp] theorem wp_onPart {get : τ → σ} {set : σ → τ → τ} {f : ε → ε'} {t : τ}
    {Q : α → τ → Prop} {E : ε' → τ → Prop} :
    wp (onPart get set f m) Q E t ↔
      wp m (fun a s => Q a (set s t)) (fun e s => E (f e) (set s t)) (get t) := by
  unfold wp onPart
  cases m (get t) <;> rfl

/-- What a computation comes to, and the state it leaves. -/
def outcome (m : Raising ε σ α) (s : σ) : Except ε α × σ :=
  match m s with
  | .ok a t => (.ok a, t)
  | .error e t => (.error e, t)

theorem wp.outcome {P : Except ε α → σ → Prop}
    (h : wp m (fun a => P (.ok a)) (fun e => P (.error e)) s) :
    P (outcome m s).1 (outcome m s).2 := by
  unfold wp at h
  unfold Raising.outcome
  cases hm : m s with
  | ok a t =>
    rw [hm] at h
    exact h
  | error e t =>
    rw [hm] at h
    exact h

theorem wp_iff_of_ok {a : α} {t : σ} (h : m s = .ok a t) : wp m Q E s ↔ Q a t := by
  unfold wp
  rw [h]

theorem wp_iff_of_error {e : ε} {t : σ} (h : m s = .error e t) : wp m Q E s ↔ E e t := by
  unfold wp
  rw [h]

end

/-! ### Invariants -/

/-- From where `I` holds the computation returns so that `I` holds, or raises so that `E` holds. -/
def Upholds (I : σ → Prop) (E : ε → σ → Prop) (m : Raising ε σ α) : Prop :=
  ∀ s, I s → wp m (fun _ => I) E s

section

variable {I : σ → Prop} {E : ε → σ → Prop} {m : Raising ε σ α} {k : α → Raising ε σ β}

theorem Upholds.pure {a : α} : Upholds I E (Pure.pure a : Raising ε σ α) := fun _ h => h

theorem Upholds.bind (hm : Upholds I E m) (hk : ∀ a, Upholds I E (k a)) :
    Upholds I E (m >>= k) := by
  intro s hs
  rw [wp_bind]
  exact (hm s hs).mono (fun a t ht => hk a t ht) fun _ _ ht => ht

theorem Upholds.ite {c : Prop} [Decidable c] {n : Raising ε σ α} (hm : Upholds I E m)
    (hn : Upholds I E n) : Upholds I E (if c then m else n) := by
  split
  · exact hm
  · exact hn

theorem Upholds.wp_bind {R : β → σ → Prop} {E' : ε → σ → Prop} {s : σ} (hm : Upholds I E m)
    (hs : I s) (hk : ∀ a t, I t → wp (k a) R E' t) (hE : ∀ e t, E e t → E' e t) :
    wp (m >>= k) R E' s := by
  rw [Raising.wp_bind]
  exact (hm s hs).mono hk hE

end

/-- However the computation ends, it kept `I`. -/
def Keeps (I : σ → Prop) (m : Raising ε σ α) : Prop :=
  ∀ s, I s → wp m (fun _ => I) (fun _ => I) s

section

variable {I : σ → Prop} {m : Raising ε σ α} {k : α → Raising ε σ β}

theorem Keeps.pure {a : α} : Keeps I (Pure.pure a : Raising ε σ α) := fun _ h => h

theorem Keeps.throw {e : ε} : Keeps I (throw e : Raising ε σ α) := fun _ h => h

theorem Keeps.bind (hm : Keeps I m) (hk : ∀ a, Keeps I (k a)) : Keeps I (m >>= k) :=
  Upholds.bind hm hk

theorem Keeps.wp_bind {R : β → σ → Prop} {E : ε → σ → Prop} {s : σ} (hm : Keeps I m) (hs : I s)
    (hk : ∀ a t, I t → wp (k a) R E t) (hE : ∀ e t, I t → E e t) : wp (m >>= k) R E s :=
  Upholds.wp_bind hm hs hk hE

theorem Keeps.ite {c : Prop} [Decidable c] {n : Raising ε σ α} (hm : Keeps I m)
    (hn : Keeps I n) : Keeps I (if c then m else n) :=
  Upholds.ite hm hn

theorem Keeps.attempt (hm : Keeps I m) : Keeps I (attempt m : Raising ε' σ (Except ε α)) := by
  intro s hs
  rw [wp_attempt]
  exact hm s hs

theorem Keeps.withCleanup {clean : Raising ε σ Unit} (hm : Keeps I m) (hc : Keeps I clean) :
    Keeps I (withCleanup m clean) := by
  intro s hs
  rw [wp_finally]
  exact (hm s hs).mono (fun _ t ht => hc t ht) fun _ t ht => hc t ht

end

/-! ### Calls -/

/-- An exception and the call it came from; `none` when the program raised it itself. -/
structure Raised (Call ε : Type) where
  exc : ε
  source : Option Call
  deriving DecidableEq

/-- A call that was made, and how it ended. -/
structure Event (Call : Type) (Answer : Call → Type) (ε : Type) where
  call : Call
  answer : Except ε (Answer call)

/-- What the collaborators answer to a call, after the calls made before it. -/
abbrev Environment (Call : Type) (Answer : Call → Type) (ε : Type) :=
  List (Event Call Answer ε) → (c : Call) → Except ε (Answer c)

/-- The calls made so far, and the rest of the state. -/
structure World (Call : Type) (Answer : Call → Type) (ε σ : Type) where
  events : List (Event Call Answer ε)
  vars : σ

section

variable {Call : Type} {Answer : Call → Type}

/-- A call of a collaborator. -/
def ask (env : Environment Call Answer ε) (c : Call) :
    Raising (Raised Call ε) (World Call Answer ε σ) (Answer c) := fun w =>
  match env w.events c with
  | .ok a => .ok a { w with events := w.events ++ [⟨c, .ok a⟩] }
  | .error e => .error ⟨e, some c⟩ { w with events := w.events ++ [⟨c, .error e⟩] }

/-- `raise` of the program itself. -/
def raise (e : ε) : Raising (Raised Call ε) σ α := throw ⟨e, none⟩

variable {env : Environment Call Answer ε} {w : World Call Answer ε σ} {c : Call}
variable {Q : Answer c → World Call Answer ε σ → Prop}
variable {E : Raised Call ε → World Call Answer ε σ → Prop}

theorem wp_ask : wp (ask env c) Q E w ↔
    match env w.events c with
    | .ok a => Q a { w with events := w.events ++ [⟨c, .ok a⟩] }
    | .error e => E ⟨e, some c⟩ { w with events := w.events ++ [⟨c, .error e⟩] } := by
  unfold wp ask
  cases env w.events c <;> rfl

theorem wp_ask_of (hok : ∀ a, Q a { w with events := w.events ++ [⟨c, .ok a⟩] })
    (herror : ∀ e, E ⟨e, some c⟩ { w with events := w.events ++ [⟨c, .error e⟩] }) :
    wp (ask env c) Q E w := by
  rw [wp_ask]
  cases env w.events c with
  | ok a => exact hok a
  | error e => exact herror e

end

end Raising

end Xtrax
