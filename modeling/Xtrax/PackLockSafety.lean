import Mathlib.Data.Fintype.Basic
import Xtrax.PackLock

/-! # Who is inside the pack lock

A process past `lockf` holds the record lock on the inode of its own descriptor (`owns`),
and from its `os.stat` to its own `os.unlink` the directory entry names that inode
(`named`).  Two processes past their stat check would then hold the lock on one inode.

The second fact is broken by the error branch: a `lockf` that fails with an error
number other than `EACCES` and `EAGAIN` removes whatever file is at the path.
`SparesHolder` is the condition on the runs: that branch unlinks only while nobody was
shown its own file by its stat.
-/
namespace Xtrax.PackLock
open Interleaving

/-- The inode whose record lock a process at this point has been granted. -/
def Pc.locked? : Pc → Option Nat
  | checking _ fd | comparing _ fd _ | inside fd | releasing fd | matching fd _ | removing fd =>
    some fd
  | idle _ | opening _ | locking _ _ | unlinking _ _ | closing _ _ => none

/-- The inode a process was shown at the path by `os.stat` and found to be its
own, until it has removed the file again. -/
def Pc.validated? : Pc → Option Nat
  | comparing _ fd current => if current = some fd then some fd else none
  | inside fd | releasing fd | matching fd _ | removing fd => some fd
  | idle _ | opening _ | locking _ _ | unlinking _ _ | checking _ _ | closing _ _ => none

theorem Pc.locked_of_validated {c : Pc} {fd : Nat} (h : c.validated? = some fd) :
    c.locked? = some fd := by
  cases c with
  | comparing left fd' current =>
    by_cases hc : current = some fd'
    · simpa [validated?, locked?, hc] using h
    · simp [validated?, hc] at h
  | inside | releasing | matching | removing => exact h
  | idle | opening | locking | unlinking | checking | closing => cases h

variable {P : Type}

/-- A holder owns its inode's lock, and a validated holder's inode is at the path. -/
structure Valid (s : State P) : Prop where
  owns : ∀ p fd, (s.pc p).locked? = some fd → s.holder fd = some p
  named : ∀ p fd, (s.pc p).validated? = some fd → s.entry = some fd

/-- Nobody has called and there is no lock file. -/
def fresh (P : Type) : State P where
  entry := none
  next := 0
  holder := fun _ => none
  pc := fun _ => .idle none

theorem fresh_initial : Initial (fresh P) :=
  ⟨fun _ => ⟨none, rfl⟩, fun _ => rfl, fun i h => by cases h⟩

namespace Valid
variable {s : State P} {p q : P}

theorem initial (h : Initial s) : Valid s where
  owns p fd hp := by
    obtain ⟨o, ho⟩ := h.1 p
    simp [ho, Pc.locked?] at hp
  named p fd hp := by
    obtain ⟨o, ho⟩ := h.1 p
    simp [ho, Pc.validated?] at hp

theorem validated_unique (h : Valid s) {i j : Nat} (hp : (s.pc p).validated? = some i)
    (hq : (s.pc q).validated? = some j) : p = q := by
  have hij : some i = some j := (h.named p i hp).symm.trans (h.named q j hq)
  obtain rfl : i = j := Option.some.inj hij
  have hpi := h.owns p i (Pc.locked_of_validated hp)
  have hqi := h.owns q i (Pc.locked_of_validated hq)
  exact Option.some.inj (hpi.symm.trans hqi)

theorem openLock (h : Valid s) : Valid s.openLock.2 := by
  unfold State.openLock
  cases he : s.entry with
  | some i => exact h
  | none =>
    refine ⟨h.owns, fun q fd hq => ?_⟩
    have := h.named q fd hq
    rw [he] at this
    cases this

end Valid

variable [DecidableEq P]

@[simp] theorem goto_pc_self (s : State P) (p : P) (c : Pc) : (s.goto p c).pc p = c := by
  simp [State.goto]

theorem goto_pc_ne (s : State P) {p q : P} (c : Pc) (h : q ≠ p) : (s.goto p c).pc q = s.pc q := by
  simp [State.goto, h]

namespace Valid
variable {s : State P} {p : P}

theorem goto (h : Valid s) {c : Pc} (hl : ∀ fd, c.locked? = some fd → s.holder fd = some p)
    (hv : ∀ fd, c.validated? = some fd → s.entry = some fd) : Valid (s.goto p c) where
  owns q fd hq := by
    by_cases hqp : q = p
    · subst q
      exact hl fd (by simpa using hq)
    · exact h.owns q fd (by rwa [goto_pc_ne s c hqp] at hq)
  named q fd hq := by
    by_cases hqp : q = p
    · subst q
      exact hv fd (by simpa using hq)
    · exact h.named q fd (by rwa [goto_pc_ne s c hqp] at hq)

theorem goto_free (h : Valid s) {c : Pc} (hl : c.locked? = none) : Valid (s.goto p c) := by
  refine h.goto (fun fd hfd => ?_) fun fd hfd => ?_
  · rw [hl] at hfd
    cases hfd
  · rw [Pc.locked_of_validated hfd] at hl
    cases hl

theorem goto_keep (h : Valid s) {c : Pc} (hl : c.locked? = (s.pc p).locked?)
    (hv : c.validated? = (s.pc p).validated?) : Valid (s.goto p c) :=
  h.goto (fun fd hfd => h.owns p fd (hl ▸ hfd)) fun fd hfd => h.named p fd (hv ▸ hfd)

theorem grant (h : Valid s) {left fd : Nat} (hfd : s.holder fd = none ∨ s.holder fd = some p) :
    Valid ({ s with holder := Function.update s.holder fd (some p) }.goto p
      (.checking left fd)) := by
  have hgranted : Valid { s with holder := Function.update s.holder fd (some p) } := by
    refine ⟨fun q i hq => ?_, h.named⟩
    have hqi := h.owns q i hq
    by_cases hi : i = fd
    · subst i
      obtain rfl : p = q := by
        rcases hfd with hnone | hsome
        · rw [hnone] at hqi
          cases hqi
        · exact Option.some.inj (hsome.symm.trans hqi)
      simp
    · simpa [Function.update_of_ne hi] using hqi
  refine hgranted.goto (fun i hi => ?_) fun i hi => ?_
  · obtain rfl : fd = i := Option.some.inj hi
    simp
  · cases hi

theorem unlock_goto (h : Valid s) (fd : Nat) {c : Pc} (hl : c.locked? = none) :
    Valid ((s.unlock p fd).goto p c) := by
  have hother : ∀ q i, q ≠ p → (s.pc q).locked? = some i → (s.unlock p fd).holder i = some q := by
    intro q i hqp hq
    have hqi := h.owns q i hq
    simp [State.unlock, hqi, hqp]
  refine ⟨fun q i hq => ?_, fun q i hq => ?_⟩
  · by_cases hqp : q = p
    · subst q
      simp [hl] at hq
    · exact hother q i hqp (by rwa [goto_pc_ne _ c hqp] at hq)
  · by_cases hqp : q = p
    · subst q
      rw [goto_pc_self] at hq
      rw [Pc.locked_of_validated hq] at hl
      cases hl
    · exact h.named q i (by rwa [goto_pc_ne _ c hqp] at hq)

theorem unlink_goto (h : Valid s) {c : Pc} (hl : c.locked? = none)
    (hv : ∀ q, q ≠ p → (s.pc q).validated? = none) :
    Valid ({ s with entry := none }.goto p c) := by
  refine ⟨fun q i hq => ?_, fun q i hq => ?_⟩
  · by_cases hqp : q = p
    · subst q
      simp [hl] at hq
    · exact h.owns q i (by rwa [goto_pc_ne _ c hqp] at hq)
  · by_cases hqp : q = p
    · subst q
      rw [goto_pc_self] at hq
      rw [Pc.locked_of_validated hq] at hl
      cases hl
    · rw [goto_pc_ne _ c hqp] at hq
      have := hv q hqp
      rw [hq] at this
      cases this

end Valid

/-- The unlink of the error branch happens only while no process is between the stat that showed
it its own lock file and its own removal of it. -/
def SparesHolder (s : State P) : P × Act → Prop
  | (p, .syscall) =>
    match s.pc p with
    | .unlinking _ _ => ∀ q, (s.pc q).validated? = none
    | _ => True
  | _ => True

instance [Fintype P] (s : State P) : ∀ a, Decidable (SparesHolder s a)
  | (p, .syscall) =>
    match h : s.pc p with
    | .unlinking _ _ =>
      decidable_of_iff (∀ q, (s.pc q).validated? = none) (by simp [SparesHolder, h])
    | .idle _ | .opening _ | .locking _ _ | .checking _ _ | .comparing _ _ _ | .inside _
    | .releasing _ | .matching _ _ | .removing _ | .closing _ _ =>
      .isTrue (by simp [SparesHolder, h])
  | (_, .call _) | (_, .lockf _) | (_, .leave) | (_, .crash) => .isTrue trivial

theorem valid_syscall {s t : State P} {p : P} (h : Valid s) (hg : SparesHolder s (p, .syscall))
    (ht : step s (p, .syscall) = some t) : Valid t := by
  cases hpc : s.pc p with
  | idle | locking | inside => simp [step, hpc] at ht
  | opening left =>
    obtain rfl := by simpa [step, hpc] using ht
    exact h.openLock.goto_free rfl
  | unlinking fd e =>
    obtain rfl := by simpa [step, hpc] using ht
    have hv : ∀ q, (s.pc q).validated? = none := by simpa [SparesHolder, hpc] using hg
    exact h.unlink_goto rfl fun q _ => hv q
  | checking left fd =>
    obtain rfl := by simpa [step, hpc] using ht
    refine h.goto (fun i hi => ?_) fun i hi => ?_
    · exact h.owns p i (by simpa [hpc, Pc.locked?] using hi)
    · -- the stat that matches is the one that makes `named` true
      by_cases he : s.entry = some fd
      · simpa [Pc.validated?, he] using hi
      · simp [Pc.validated?, he] at hi
  | comparing left fd current =>
    by_cases hc : current = some fd
    · obtain rfl := by simpa [step, hpc, hc] using ht
      exact h.goto_keep (by simp [hpc, Pc.locked?]) (by simp [hpc, Pc.validated?, hc])
    · obtain rfl := by simpa [step, hpc, hc] using ht
      exact h.goto_free rfl
  | releasing fd =>
    cases he : s.entry with
    | none =>
      obtain rfl := by simpa [step, hpc, he] using ht
      exact h.goto_free rfl
    | some i =>
      obtain rfl := by simpa [step, hpc, he] using ht
      exact h.goto_keep (by simp [hpc, Pc.locked?]) (by simp [hpc, Pc.validated?])
  | matching fd current =>
    by_cases hc : current = fd
    · obtain rfl := by simpa [step, hpc, hc] using ht
      exact h.goto_keep (by simp [hpc, Pc.locked?]) (by simp [hpc, Pc.validated?])
    · obtain rfl := by simpa [step, hpc, hc] using ht
      exact h.goto_free rfl
  | removing fd =>
    obtain rfl := by simpa [step, hpc] using ht
    refine h.unlink_goto rfl fun q hqp => ?_
    -- the remover is itself the one validated holder
    cases hq : (s.pc q).validated? with
    | none => rfl
    | some j => exact absurd (h.validated_unique hq (by rw [hpc]; rfl)) hqp
  | closing fd after =>
    rcases after with (_ | left) | o
    all_goals
      obtain rfl := by simpa [step, hpc] using ht
      exact h.unlock_goto fd rfl

theorem valid_step {s t : State P} {a : P × Act} (h : Valid s) (hg : SparesHolder s a)
    (ht : step s a = some t) : Valid t := by
  obtain ⟨p, a⟩ := a
  cases a with
  | syscall => exact valid_syscall h hg ht
  | call localOnly =>
    cases hpc : s.pc p with
    | idle o =>
      cases localOnly with
      | true =>
        obtain rfl := by simpa [step, hpc] using ht
        exact h.goto_free rfl
      | false =>
        obtain rfl := by simpa [step, hpc] using ht
        exact h.goto_free rfl
    | _ => simp [step, hpc] at ht
  | lockf fails =>
    cases hpc : s.pc p with
    | locking left fd =>
      cases he : s.lockError p fd fails with
      | none =>
        obtain rfl := by simpa [step, hpc, he] using ht
        refine h.grant ?_
        cases fails with
        | some e => simp [State.lockError] at he
        | none =>
          by_contra hno
          simp [State.lockError, hno] at he
      | some e =>
        by_cases hh : e = EACCES ∨ e = EAGAIN
        · obtain rfl := by simpa [step, hpc, he, hh] using ht
          exact h.goto_free rfl
        · obtain rfl := by simpa [step, hpc, he, hh] using ht
          exact h.goto_free rfl
    | _ => simp [step, hpc] at ht
  | leave =>
    cases hpc : s.pc p with
    | inside fd =>
      obtain rfl := by simpa [step, hpc] using ht
      exact h.goto_keep (by simp [hpc, Pc.locked?]) (by simp [hpc, Pc.validated?])
    | _ => simp [step, hpc] at ht
  | crash =>
    cases hfd : (s.pc p).fd? with
    | none =>
      obtain rfl := by simpa [step, hfd] using ht
      exact h.goto_free rfl
    | some fd =>
      obtain rfl := by simpa [step, hfd] using ht
      exact h.unlock_goto fd rfl

theorem valid_of_reaches {s : State P} (h : (machine (P := P)).Reaches SparesHolder s) : Valid s :=
  h.invariant (fun _ => Valid.initial) fun _ _ _ => valid_step

/-- **Mutual exclusion.**  In a run whose error branches spare every holder, at
most one process is inside the locked region at any time. -/
theorem inside_unique {s : State P} (h : (machine (P := P)).Reaches SparesHolder s) (p q : P)
    (hp : Inside s p) (hq : Inside s q) : p = q := by
  obtain ⟨i, hi⟩ := hp
  obtain ⟨j, hj⟩ := hq
  refine (valid_of_reaches h).validated_unique (i := i) (j := j) ?_ ?_
  · rw [hi]
    rfl
  · rw [hj]
    rfl

/-- A call of `_pack_lock` by `p` that is granted the lock and passes the stat check. -/
def enter (p : P) : List (P × Act) :=
  [(p, .call false), (p, .syscall), (p, .lockf none), (p, .syscall), (p, .syscall)]

/-- A release by `p` that finds its own lock file at the path. -/
def exit (p : P) : List (P × Act) :=
  [(p, .leave), (p, .syscall), (p, .syscall), (p, .syscall), (p, .syscall)]

/-- The whole life of a holder, a failing `lockf` with `ENOLCK` after it, and then
a second holder. -/
theorem inside_unique_after_release :
    ∃ s : State (Fin 3), machine.Reaches SparesHolder s ∧ Inside s 2 ∧
      ∀ p q, Inside s p → Inside s q → p = q := by
  have hr : ∃ s, machine.run (fresh (Fin 3)) (enter 0 ++ exit 0 ++
      [(1, .call false), (1, .syscall), (1, .lockf (some 37)), (1, .syscall), (1, .syscall)] ++
      enter 2) = some s ∧ s.pc 2 = .inside 2 := ⟨_, rfl, by decide⟩
  obtain ⟨s, hs, h2⟩ := hr
  have hreach : machine.Reaches SparesHolder s :=
    Machine.reaches_of_allowed fresh_initial (by decide) hs
  exact ⟨s, hreach, ⟨_, h2⟩, inside_unique hreach⟩

/-- While process 0 is inside, process 1's `lockf` fails with `ENOLCK` (37) and
its error branch removes process 0's lock file; process 2 locks a new one. -/
theorem inside_not_unique :
    ¬ ∀ s : State (Fin 3), machine.Reachable s → ∀ p q, Inside s p → Inside s q → p = q := by
  have hr : ∃ s, machine.run (fresh (Fin 3)) (enter 0 ++
      [(1, .call false), (1, .syscall), (1, .lockf (some 37)), (1, .syscall)] ++
      enter 2) = some s ∧ s.pc 0 = .inside 0 ∧ s.pc 2 = .inside 1 := ⟨_, rfl, by decide, by decide⟩
  obtain ⟨s, hs, h0, h2⟩ := hr
  intro hall
  have h02 := hall s (Machine.reachable_of_run fresh_initial hs) 0 2 ⟨_, h0⟩ ⟨_, h2⟩
  exact absurd h02 (by decide)

end Xtrax.PackLock
