import Xtrax.Machine

/-!
# The preemption save

A signal handler may start between any two steps: of the main program, of `save_fn`, or of another
invocation of the handler, which then waits until the inner one has returned.  So the invocations
that run form a stack.  The check of `_saved` and its marking are two steps, and a handler that
starts between them saves a second time.
-/

namespace Xtrax.Preemption

open List Option Interleaving

/-- Where an invocation of `_handle` is. -/
inductive Pc
  | entered
  /-- Before `self._saved.is_set()`. -/
  | checking
  /-- Not saved yet; before `self._saved.set()`. -/
  | marking
  | calling
  | saving
  deriving DecidableEq

/-- A `PreemptionHandler` with its invocations that run, the innermost first. -/
structure Handler where
  rank : Nat
  registered : Bool := false
  /-- The signals have `_handle` as their handler. -/
  installed : Bool := false
  preempted : Bool := false
  saved : Bool := false
  running : List Pc := []
  calls : Nat := 0
  /-- An outermost invocation has finished. -/
  finished : Bool := false

inductive Event
  | register
  /-- A step of the main program that does not concern the handler. -/
  | main
  /-- SIGUSR1 or SIGTERM is delivered. -/
  | signal
  /-- The innermost invocation takes its next step. -/
  | advance
  /-- `save_fn` takes a step and goes on. -/
  | work
  deriving DecidableEq

namespace Handler

def register (h : Handler) : Handler :=
  if h.registered then h
  else { h with installed := h.rank == 0, registered := true }

/-- The innermost invocation returns; the invocations around it are `rest`. -/
def leave (h : Handler) (rest : List Pc) : Handler :=
  { h with running := rest, finished := h.finished || rest.isEmpty }

/-- The next step of the innermost invocation. -/
def advance (h : Handler) : Option Handler :=
  match h.running with
  | [] => none
  | .entered :: rest => some { h with preempted := true, running := .checking :: rest }
  | .checking :: rest =>
    if h.saved then some (h.leave rest) else some { h with running := .marking :: rest }
  | .marking :: rest => some { h with saved := true, running := .calling :: rest }
  | .calling :: rest => some { h with calls := h.calls + 1, running := .saving :: rest }
  | .saving :: rest => some (h.leave rest)

/-- One step.  The main program only runs when no handler does. -/
def step (h : Handler) : Event → Option Handler
  | .register => if h.running = [] then some h.register else none
  | .main => if h.running = [] then some h else none
  | .signal => if h.installed then some { h with running := .entered :: h.running } else none
  | .advance => h.advance
  | .work => if h.running.head? = some .saving then some h else none

end Handler

/-- A handler of rank 0, as it is made. -/
def machine : Machine Handler Event where
  init h := h = { rank := 0 }
  step := Handler.step

/-- At most one call, and exactly one when an outermost invocation has finished. -/
structure SavedOnce (h : Handler) : Prop where
  once : h.calls ≤ 1
  done : h.finished = true → h.calls = 1

/-- No signal is handled between a check that found nothing saved and the marking. -/
def NotBetween (h : Handler) (e : Event) : Prop := e = .signal → h.running.head? ≠ some .marking

instance : DecidableRel NotBetween := fun h e =>
  inferInstanceAs (Decidable (e = .signal → h.running.head? ≠ some .marking))

/-- What a step can do. -/
inductive Steps (h : Handler) : Event → Handler → Prop
  | outside {e : Event} {t : Handler} : e ≠ .signal → t.calls = h.calls → t.saved = h.saved →
      t.running = h.running → t.finished = h.finished → Steps h e t
  | signal : Steps h .signal { h with running := .entered :: h.running }
  | entered {rest : List Pc} : h.running = .entered :: rest →
      Steps h .advance { h with preempted := true, running := .checking :: rest }
  | found {rest : List Pc} : h.running = .checking :: rest → h.saved = true →
      Steps h .advance (h.leave rest)
  | unsaved {rest : List Pc} : h.running = .checking :: rest → h.saved = false →
      Steps h .advance { h with running := .marking :: rest }
  | marked {rest : List Pc} : h.running = .marking :: rest →
      Steps h .advance { h with saved := true, running := .calling :: rest }
  | called {rest : List Pc} : h.running = .calling :: rest →
      Steps h .advance { h with calls := h.calls + 1, running := .saving :: rest }
  | returned {rest : List Pc} : h.running = .saving :: rest → Steps h .advance (h.leave rest)

variable {h t : Handler} {e : Event}

theorem steps_of_advance (hstep : h.advance = some t) : Steps h .advance t := by
  unfold Handler.advance at hstep
  split at hstep
  · exact nomatch hstep
  · exact some.inj hstep ▸ .entered ‹_›
  · rename_i rest hrunning
    split at hstep
    · exact some.inj hstep ▸ .found hrunning ‹_›
    · exact some.inj hstep ▸ .unsaved hrunning (Bool.eq_false_iff.mpr ‹_›)
  · exact some.inj hstep ▸ .marked ‹_›
  · exact some.inj hstep ▸ .called ‹_›
  · exact some.inj hstep ▸ .returned ‹_›

theorem steps_of_step (hstep : h.step e = some t) : Steps h e t := by
  cases e with
  | register =>
    obtain ⟨-, ht⟩ := ite_none_right_eq_some.mp hstep
    obtain rfl := some.inj ht
    unfold Handler.register
    split <;> exact .outside nofun rfl rfl rfl rfl
  | main =>
    obtain ⟨-, ht⟩ := ite_none_right_eq_some.mp hstep
    exact some.inj ht ▸ .outside nofun rfl rfl rfl rfl
  | signal =>
    obtain ⟨-, ht⟩ := ite_none_right_eq_some.mp hstep
    exact some.inj ht ▸ .signal
  | work =>
    obtain ⟨-, ht⟩ := ite_none_right_eq_some.mp hstep
    exact some.inj ht ▸ .outside nofun rfl rfl rfl rfl
  | advance => exact steps_of_advance hstep

/-- The mark stands for one call, made or about to be made, and only the innermost invocation can
be about to set it. -/
structure Inv (h : Handler) : Prop where
  calls : h.calls + h.running.count .calling = if h.saved then 1 else 0
  saving : .saving ∈ h.running → h.saved = true
  inner : .marking ∉ h.running.tail
  marking : h.running.head? = some .marking → h.saved = false
  done : h.finished = true → h.saved = true ∧ .calling ∉ h.running

theorem Inv.savedOnce (hi : Inv h) : SavedOnce h where
  once := by
    have hcalls := hi.calls
    split at hcalls <;> omega
  done hfinished := by
    obtain ⟨hsaved, hcalling⟩ := hi.done hfinished
    have hcalls := hi.calls
    rw [if_pos hsaved, count_eq_zero.mpr hcalling] at hcalls
    exact hcalls

theorem Inv.leave {pc : Pc} {rest : List Pc} (hi : Inv h) (hrunning : h.running = pc :: rest)
    (hpc : pc ≠ .calling) (hsaved : h.saved = true) : Inv (h.leave rest) := by
  have hinner : .marking ∉ rest := by
    have htail := hi.inner
    rwa [hrunning] at htail
  have hcalls := hi.calls
  rw [hrunning, count_cons_of_ne hpc] at hcalls
  refine ⟨hcalls, fun _ => hsaved, fun h => hinner (mem_of_mem_tail h),
    fun h => absurd (mem_of_mem_head? h) hinner, fun hfinished => ⟨hsaved, ?_⟩⟩
  rcases Bool.or_eq_true _ _ ▸ hfinished with hold | hempty
  · have hcalling := (hi.done hold).2
    rw [hrunning] at hcalling
    exact fun h => hcalling (mem_cons_of_mem _ h)
  · rw [isEmpty_iff.mp hempty]
    exact not_mem_nil

/-- **The step lemma.**  A handler that does not start between a check and its mark keeps the
invariant. -/
theorem Inv.step (hi : Inv h) (he : NotBetween h e) (hstep : Steps h e t) : Inv t := by
  cases hstep with
  | outside _ hcalls hsaved hrunning hfinished =>
    refine ⟨?_, ?_, ?_, ?_, ?_⟩
    · rw [hcalls, hsaved, hrunning]
      exact hi.calls
    · rw [hsaved, hrunning]
      exact hi.saving
    · rw [hrunning]
      exact hi.inner
    · rw [hsaved, hrunning]
      exact hi.marking
    · rw [hsaved, hrunning, hfinished]
      exact hi.done
  | signal =>
    have hmarking : .marking ∉ h.running := by
      intro hin
      cases hrunning : h.running with
      | nil => exact absurd (hrunning ▸ hin) not_mem_nil
      | cons pc rest =>
        have hinner := hi.inner
        rw [hrunning] at hin hinner
        rcases mem_cons.mp hin with rfl | hin
        · exact he rfl (by rw [hrunning]; rfl)
        · exact hinner hin
    exact ⟨hi.calls, fun hin => hi.saving ((mem_cons.mp hin).resolve_left nofun), hmarking,
      fun h => (nomatch h), fun hfinished => ⟨(hi.done hfinished).1,
        fun hin => (hi.done hfinished).2 ((mem_cons.mp hin).resolve_left nofun)⟩⟩
  | @entered rest hrunning =>
    obtain ⟨hcalls, hsaving, hinner, -, hdone⟩ := hi
    rw [hrunning] at hcalls hsaving hinner hdone
    exact ⟨hcalls, fun hin => hsaving (.tail _ ((mem_cons.mp hin).resolve_left nofun)), hinner,
      fun h => (nomatch h), fun hfinished => ⟨(hdone hfinished).1,
        fun hin => (hdone hfinished).2 (.tail _ ((mem_cons.mp hin).resolve_left nofun))⟩⟩
  | found hrunning hsaved => exact hi.leave hrunning nofun hsaved
  | @unsaved rest hrunning hsaved =>
    obtain ⟨hcalls, hsaving, hinner, -, hdone⟩ := hi
    rw [hrunning] at hcalls hsaving hinner hdone
    exact ⟨hcalls, fun hin => hsaving (.tail _ ((mem_cons.mp hin).resolve_left nofun)), hinner,
      fun _ => hsaved, fun hfinished => ⟨(hdone hfinished).1,
        fun hin => (hdone hfinished).2 (.tail _ ((mem_cons.mp hin).resolve_left nofun))⟩⟩
  | @marked rest hrunning =>
    have hunsaved : h.saved = false := hi.marking (by rw [hrunning]; rfl)
    obtain ⟨hcalls, hsaving, hinner, -, hdone⟩ := hi
    rw [hrunning] at hcalls hinner
    rw [hunsaved, if_neg Bool.false_ne_true,
      count_cons_of_ne (by decide : Pc.marking ≠ .calling)] at hcalls
    refine ⟨?_, fun _ => rfl, hinner, fun h => (nomatch h), fun hfinished => ?_⟩
    · change h.calls + (Pc.calling :: rest).count .calling = 1
      rw [count_cons_self]
      omega
    · exact absurd (hunsaved.symm.trans (hdone hfinished).1) Bool.false_ne_true
  | @called rest hrunning =>
    obtain ⟨hcalls, hsaving, hinner, -, hdone⟩ := hi
    rw [hrunning] at hcalls hinner hdone
    rw [count_cons_self] at hcalls
    have hsaved : h.saved = true := by
      by_contra hnot
      rw [if_neg hnot] at hcalls
      omega
    refine ⟨?_, fun _ => hsaved, hinner, fun h => (nomatch h),
      fun hfinished => absurd (mem_cons_self ..) (hdone hfinished).2⟩
    change h.calls + 1 + (Pc.saving :: rest).count .calling = _
    rw [count_cons_of_ne (by decide : Pc.saving ≠ .calling)]
    change _ = if h.saved then 1 else 0
    omega
  | returned hrunning =>
    exact hi.leave hrunning nofun (hi.saving (by rw [hrunning]; exact mem_cons_self ..))

theorem inv_start : Inv { rank := 0 } where
  calls := rfl
  saving h := absurd h not_mem_nil
  inner := not_mem_nil
  marking h := nomatch h
  done h := nomatch h

/-- **The preemption save runs at most once**, as long as no handler starts between the check and
the mark of another. -/
theorem saved_once (h : Handler) (hreach : machine.Reaches NotBetween h) : SavedOnce h := by
  have hinv : Inv h := by
    refine hreach.invariant ?_ ?_
    · rintro s rfl
      exact inv_start
    · intro s e t hi he hstep
      exact hi.step he (steps_of_step hstep)
  exact hinv.savedOnce

/-- A handler that another one interrupts in `save_fn` has saved once when both have finished. -/
theorem saved_once_sample :
    ∃ h, machine.Reaches NotBetween h ∧ h.finished = true ∧ h.calls = 1 := by
  let events : List Event := [.register, .main, .signal, .advance, .advance, .advance, .advance,
    .work, .signal, .advance, .advance, .advance]
  have hallowed : machine.Allowed NotBetween { rank := 0 } events := by decide
  cases hrun : machine.run { rank := 0 } events with
  | none => exact absurd hrun (by decide)
  | some h =>
    have hreach : machine.Reaches NotBetween h := Machine.reaches_of_allowed rfl hallowed hrun
    have hfinished : (machine.run { rank := 0 } events).map Handler.finished = some true := by decide
    rw [hrun] at hfinished
    have hdone : h.finished = true := Option.some.inj hfinished
    exact ⟨h, hreach, hdone, (saved_once h hreach).done hdone⟩

/-- A signal between the check and the mark: both invocations save. -/
theorem not_saved_once : ∃ h, machine.Reachable h ∧ ¬SavedOnce h := by
  let events : List Event := [.register, .signal, .advance, .advance, .signal, .advance, .advance,
    .advance, .advance, .advance, .advance, .advance]
  cases hrun : machine.run { rank := 0 } events with
  | none => exact absurd hrun (by decide)
  | some h =>
    have hcalls : (machine.run { rank := 0 } events).map Handler.calls = some 2 := by decide
    rw [hrun] at hcalls
    have htwo : h.calls = 2 := Option.some.inj hcalls
    refine ⟨h, Machine.reachable_of_run rfl hrun, fun honce => ?_⟩
    have hle := honce.once
    omega

end Xtrax.Preemption
