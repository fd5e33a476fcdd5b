import Xtrax.Machine

/-!
# The prefetching stream

`async_indexed_stream` runs a producer task that fetches items in a thread and puts them into a
bounded queue; the generator gets them from the queue and yields them.  A step of a task goes from
one `await` to the next, and an `await` that does not wait is a step too.

When the consumer stops early the producer is cancelled, and its `except` block puts the
cancellation into the queue, from which nobody takes any more: the clean-up waits for ever exactly
if the cancellation reaches the producer while the queue is full (`stream_iff`).

An exception of the iterable stands for the `RuntimeError` Python makes of it where it is a
`StopIteration` or `StopAsyncIteration` that leaves a coroutine or generator.
-/

namespace Xtrax.IndexedStream

open List Option Interleaving

/-- What `next` does. -/
inductive Fetch (α ε : Type) where
  | item (a : α)
  | stop
  | raises (e : ε)

/-- An iterable: what `iter` raises, and what each call of `next` does. -/
structure Source (α ε : Type) where
  iterRaises : Option ε := none
  next : Nat → Fetch α ε

/-- An exception of the iterable, or `CancelledError`. -/
inductive Failure (ε : Type) where
  | cancelled
  | own (e : ε)
  deriving DecidableEq

/-- What is put into the queue: `(index, item)`, `_DONE` or `(_ERROR, e)`. -/
inductive Entry (α ε : Type) where
  | item (index : Nat) (a : α)
  | done
  | error (f : Failure ε)
  deriving DecidableEq

/-- Where the producer task is: ahead of `iter`, in the thread, at one of its two calls of `put`
in the loop, at the `put` of its `except` block, or through. -/
inductive Producer (α ε : Type) where
  | start
  | fetching (index : Nat)
  | putting (index : Nat) (a : α)
  | closing
  | handling (f : Failure ε)
  | finished
  deriving DecidableEq

/-- How the generator ended. -/
inductive Ending (ε : Type) where
  | stopped
  | exhausted
  | raised (f : Failure ε)
  deriving DecidableEq

/-- Where the generator is: in `queue.get`, at its `yield`, awaiting the producer in its `finally`
block, or through. -/
inductive Consumer (ε : Type) where
  | waiting
  | yielded
  | cleaning (e : Ending ε)
  | ended (e : Ending ε)
  deriving DecidableEq

/-- `cancelling`: the producer is to be thrown a `CancelledError` at its next step. -/
structure Stream (α ε : Type) where
  producer : Producer α ε := .start
  cancelling : Bool := false
  queue : List (Entry α ε) := []
  consumer : Consumer ε := .waiting
  received : List (Nat × α) := []

/-- A step of the producer, a step of the generator, and what its consumer does at a `yield`:
ask for the next item, or stop. -/
inductive Move
  | produce | consume | resume | stop
  deriving DecidableEq

section

variable {α ε : Type}

def Producer.isFinished : Producer α ε → Bool
  | finished => true
  | _ => false

def Producer.isHandling : Producer α ε → Bool
  | handling _ => true
  | _ => false

variable (source : Source α ε) (size : Nat) (s : Stream α ε)

/-- `queue.full()`. -/
def Stream.full : Bool := size ≠ 0 && size ≤ s.queue.length

/-- `queue.put`, which waits while the queue is full. -/
def Stream.put (entry : Entry α ε) (after : Producer α ε) : Option (Stream α ε) :=
  if s.full size then none else some { s with queue := s.queue ++ [entry], producer := after }

/-- The `CancelledError` is thrown into the producer.  In its loop it is caught; ahead of its
first step and in its `except` block it ends the task. -/
def Stream.cancelled : Stream α ε :=
  { s with
    cancelling := false
    producer := match s.producer with
      | .start | .handling _ | .finished => .finished
      | .fetching _ | .putting _ _ | .closing => .handling .cancelled }

/-- A step of `producer`. -/
def Stream.produce : Option (Stream α ε) :=
  if s.producer.isFinished then none
  else if s.cancelling then some s.cancelled
  else match s.producer with
    | .start => some { s with producer := match source.iterRaises with
        | some e => .handling (.own e)
        | none => .fetching 0 }
    | .fetching index => some { s with producer := match source.next index with
        | .item a => .putting index a
        | .stop => .closing
        | .raises e => .handling (.own e) }
    | .putting index a => s.put size (.item index a) (.fetching (index + 1))
    | .closing => s.put size .done .finished
    | .handling f => s.put size (.error f) .finished
    | .finished => none

/-- The `finally` block. -/
def Stream.leave (e : Ending ε) : Stream α ε :=
  if s.producer.isFinished then { s with consumer := .ended e }
  else { s with consumer := .cleaning e, cancelling := true }

/-- A step of the generator. -/
def Stream.consume : Option (Stream α ε) :=
  match s.consumer with
  | .waiting =>
    match s.queue with
    | [] => none
    | .item index a :: rest => some { s with
        queue := rest
        received := s.received ++ [(index, a)]
        consumer := .yielded }
    | .done :: rest => some ({ s with queue := rest }.leave .exhausted)
    | .error f :: rest => some ({ s with queue := rest }.leave (.raised f))
  | .cleaning e =>
    if s.producer.isFinished then some { s with consumer := .ended e } else none
  | .yielded | .ended _ => none

def Stream.step : Move → Option (Stream α ε)
  | .produce => s.produce source size
  | .consume => s.consume
  | .resume =>
    match s.consumer with
    | .yielded => some { s with consumer := .waiting }
    | _ => none
  | .stop =>
    match s.consumer with
    | .yielded => some (s.leave .stopped)
    | _ => none

/-- `async_indexed_stream(iterable, size)`, from the first request on. -/
def machine : Machine (Stream α ε) Move where
  init s := s = {}
  step s := s.step source size

/-! ### What the consumer should see -/

/-- What the `n`-th entry of the queue should be. -/
def Source.entry (n : Nat) : Entry α ε :=
  match source.iterRaises with
  | some e => .error (.own e)
  | none =>
    match source.next n with
    | .item a => .item n a
    | .stop => .done
    | .raises e => .error (.own e)

/-- The items received are the first ones of the iterable, in order; a generator that was not
stopped ended as the iterable did after them. -/
structure Delivers : Prop where
  received : s.received.map (fun p => .item p.1 p.2) =
    (List.range s.received.length).map source.entry
  exhausted : s.consumer = .ended .exhausted → source.entry s.received.length = .done
  raised : ∀ f, s.consumer = .ended (.raised f) → source.entry s.received.length = .error f

/-- The generator waits, and neither it nor the producer can make a step. -/
def Stream.deadlocked : Bool :=
  (match s.consumer with
    | .waiting | .cleaning _ => true
    | _ => false) &&
  s.consume.isNone && (s.produce source size).isNone

/-- The cancellation does not reach the producer while the queue is full, unless it is at the
`put` of its `except` block. -/
def CancelledWithRoom (move : Move) : Prop :=
  move = .produce → s.cancelling = true → s.producer.isHandling = true ∨ s.full size = false

end

instance {α ε : Type} (size : Nat) (s : Stream α ε) (move : Move) :
    Decidable (CancelledWithRoom size s move) :=
  inferInstanceAs (Decidable (_ → _ → _))

section

variable {α ε : Type} {source : Source α ε} {size : Nat} {s t : Stream α ε} {entry : Entry α ε}
  {rest : List (Entry α ε)} {after : Producer α ε}

/-! ### The entries -/

def Entry.isItem : Entry α ε → Bool
  | item _ _ => true
  | _ => false

/-- The first `n` entries are items. -/
def Items (source : Source α ε) (n : Nat) : Prop :=
  ∀ k < n, (source.entry k).isItem = true

theorem Items.succ {n : Nat} (h : Items source n) (hn : (source.entry n).isItem = true) :
    Items source (n + 1) := by
  intro k hk
  rcases Nat.lt_succ_iff_lt_or_eq.mp hk with hlt | rfl
  · exact h k hlt
  · exact hn

theorem entry_of_iterRaises {e : ε} (h : source.iterRaises = some e) (n : Nat) :
    source.entry n = .error (.own e) := by
  unfold Source.entry
  rw [h]

theorem entry_of_next (h : source.iterRaises = none) (n : Nat) :
    source.entry n = match source.next n with
      | .item a => .item n a
      | .stop => .done
      | .raises e => .error (.own e) := by
  unfold Source.entry
  rw [h]

theorem iterRaises_of_item {n i : Nat} {a : α} (h : source.entry n = .item i a) :
    source.iterRaises = none := by
  cases he : source.iterRaises with
  | none => rfl
  | some e =>
    rw [entry_of_iterRaises he] at h
    exact nomatch h

/-! ### Where the producer is -/

/-- `n` entries were put: the producer is at the next one, or the last one was no item. -/
def Producing (source : Source α ε) : Producer α ε → Nat → Prop
  | .start, n => n = 0
  | .fetching index, n => index = n ∧ source.iterRaises = none ∧ Items source n
  | .putting index a, n => index = n ∧ source.entry n = .item index a ∧ Items source n
  | .closing, n => source.entry n = .done ∧ Items source n
  | .handling f, n => source.entry n = .error f ∧ Items source n
  | .finished, n => ∃ m, n = m + 1 ∧ Items source m ∧ (source.entry m).isItem = false

/-- The consumer wants more: what was received and what is queued are the first entries. -/
structure Active (source : Source α ε) (s : Stream α ε) : Prop where
  wants : s.consumer = .waiting ∨ s.consumer = .yielded
  quiet : s.cancelling = false
  entries : s.received.map (fun p => Entry.item p.1 p.2) ++ s.queue =
    (List.range (s.received.length + s.queue.length)).map source.entry
  producing : Producing source s.producer (s.received.length + s.queue.length)
  yielded : s.consumer = .yielded → 0 < s.received.length

/-- The consumer stopped: the cancellation is on its way, or in the `except` block of the
producer, or through. -/
structure Closing (source : Source α ε) (s : Stream α ε) : Prop where
  cleaning : s.consumer = .cleaning .stopped
  received : s.received.map (fun p => Entry.item p.1 p.2) =
    (List.range s.received.length).map source.entry
  started : s.producer ≠ .start
  producer : if s.cancelling then s.producer.isFinished = false
    else s.producer.isFinished = true ∨ s.producer.isHandling = true

structure Over (source : Source α ε) (s : Stream α ε) : Prop extends Delivers source s where
  ended : ∃ e, s.consumer = .ended e
  finished : s.producer.isFinished = true

/-- What holds in every state of every run. -/
structure Sound (source : Source α ε) (size : Nat) (s : Stream α ε) : Prop where
  bounded : size ≠ 0 → s.queue.length ≤ size
  phase : Active source s ∨ Closing source s ∨ Over source s

theorem received_of_entries (h : Active source s) :
    s.received.map (fun p => Entry.item p.1 p.2) = (range s.received.length).map source.entry := by
  have hentries := h.entries
  rw [range_add, map_append] at hentries
  exact (append_inj hentries (by simp)).1

theorem Active.delivers (h : Active source s) : Delivers source s where
  received := received_of_entries h
  exhausted he := by
    rcases h.wants with hw | hw
    · exact nomatch hw.symm.trans he
    · exact nomatch hw.symm.trans he
  raised _ he := by
    rcases h.wants with hw | hw
    · exact nomatch hw.symm.trans he
    · exact nomatch hw.symm.trans he

theorem Closing.delivers (h : Closing source s) : Delivers source s where
  received := h.received
  exhausted he := nomatch h.cleaning.symm.trans he
  raised _ he := nomatch h.cleaning.symm.trans he

theorem Sound.delivers (h : Sound source size s) : Delivers source s := by
  rcases h.phase with ha | hc | ho
  · exact ha.delivers
  · exact hc.delivers
  · exact ho.toDelivers

/-! ### Steps of the producer -/

theorem put_eq (h : s.put size entry after = some t) :
    s.full size = false ∧ t = { s with queue := s.queue ++ [entry], producer := after } := by
  unfold Stream.put at h
  split at h
  · exact nomatch h
  · exact ⟨Bool.eq_false_iff.mpr ‹_›, (some.inj h).symm⟩

theorem bounded_of_room (h : s.full size = false) : size ≠ 0 → s.queue.length + 1 ≤ size := by
  intro hsize
  rw [Stream.full, Bool.and_eq_false_iff, decide_eq_false_iff_not, decide_eq_false_iff_not] at h
  omega

theorem produce_of_quiet (h : s.cancelling = false) : s.produce source size = match s.producer with
    | .start => some { s with producer := match source.iterRaises with
        | some e => .handling (.own e)
        | none => .fetching 0 }
    | .fetching index => some { s with producer := match source.next index with
        | .item a => .putting index a
        | .stop => .closing
        | .raises e => .handling (.own e) }
    | .putting index a => s.put size (.item index a) (.fetching (index + 1))
    | .closing => s.put size .done .finished
    | .handling f => s.put size (.error f) .finished
    | .finished => none := by
  unfold Stream.produce
  rw [h]
  cases s.producer <;> rfl

theorem Active.move (h : Active source s)
    (hafter : Producing source after (s.received.length + s.queue.length)) :
    Active source { s with producer := after } :=
  ⟨h.wants, h.quiet, h.entries, hafter, h.yielded⟩

theorem Active.put (h : Active source s)
    (hentry : source.entry (s.received.length + s.queue.length) = entry)
    (hafter : Producing source after (s.received.length + s.queue.length + 1))
    (hput : s.put size entry after = some t) : Active source t := by
  obtain ⟨-, rfl⟩ := put_eq hput
  refine ⟨h.wants, h.quiet, ?_, ?_, h.yielded⟩
  · simp only [length_append, length_singleton, ← Nat.add_assoc, range_succ,
      map_append, map_singleton, hentry, ← h.entries, append_assoc]
  · simp only [length_append, length_singleton, ← Nat.add_assoc]
    exact hafter

theorem Active.putLast (h : Active source s)
    (hitems : Items source (s.received.length + s.queue.length))
    (hentry : source.entry (s.received.length + s.queue.length) = entry)
    (hlast : entry.isItem = false) (hput : s.put size entry .finished = some t) : Active source t :=
  h.put hentry (show Producing source .finished _ from ⟨_, rfl, hitems, hentry ▸ hlast⟩) hput

theorem Active.produce (h : Active source s) (ht : s.produce source size = some t) :
    Active source t := by
  have hproducing := h.producing
  rw [produce_of_quiet h.quiet] at ht
  cases hp : s.producer with
  | start =>
    rw [hp] at hproducing ht
    obtain rfl := some.inj ht
    have hitems : Items source (s.received.length + s.queue.length) := fun k hk => by
      have hnil : s.received.length + s.queue.length = 0 := hproducing
      omega
    refine h.move ?_
    cases he : source.iterRaises with
    | some e => exact ⟨entry_of_iterRaises he _, hitems⟩
    | none => exact ⟨hproducing.symm, he, hitems⟩
  | fetching index =>
    rw [hp] at hproducing ht
    obtain ⟨rfl, hiter, hitems⟩ := hproducing
    obtain rfl := some.inj ht
    refine h.move ?_
    have hentry := entry_of_next hiter (s.received.length + s.queue.length)
    cases hnext : source.next (s.received.length + s.queue.length) with
    | item a =>
      rw [hnext] at hentry
      exact ⟨rfl, hentry, hitems⟩
    | stop =>
      rw [hnext] at hentry
      exact ⟨hentry, hitems⟩
    | raises e =>
      rw [hnext] at hentry
      exact ⟨hentry, hitems⟩
  | putting index a =>
    rw [hp] at hproducing ht
    obtain ⟨rfl, hentry, hitems⟩ := hproducing
    have hnext : Items source (s.received.length + s.queue.length + 1) :=
      hitems.succ (by rw [hentry]; rfl)
    exact h.put hentry (show Producing source (.fetching _) _ from
      ⟨rfl, iterRaises_of_item hentry, hnext⟩) ht
  | closing =>
    rw [hp] at hproducing ht
    exact h.putLast hproducing.2 hproducing.1 rfl ht
  | handling f =>
    rw [hp] at hproducing ht
    exact h.putLast hproducing.2 hproducing.1 rfl ht
  | finished =>
    rw [hp] at ht
    exact nomatch ht

/-! ### Steps of the generator -/

theorem Active.head (h : Active source s) (hq : s.queue = entry :: rest) :
    source.entry s.received.length = entry ∧
      s.received.map (fun p => Entry.item p.1 p.2) ++ entry :: rest =
        (range (s.received.length + (rest.length + 1))).map source.entry := by
  have hentries := h.entries
  rw [hq, length_cons] at hentries
  refine ⟨?_, hentries⟩
  have hget := congrArg (·[s.received.length]?) hentries
  simpa using hget.symm

theorem Active.last (h : Active source s) (hq : s.queue = entry :: rest)
    (hentry : entry.isItem = false) : s.producer.isFinished = true := by
  have hproducing := h.producing
  have hhead := (h.head hq).1
  have hlength : s.received.length < s.received.length + s.queue.length := by
    rw [hq, length_cons]
    omega
  have hnot : ¬ Items source (s.received.length + s.queue.length) := fun hitems => by
    have hitem := hitems _ hlength
    rw [hhead, hentry] at hitem
    exact nomatch hitem
  cases hp : s.producer with
  | start =>
    rw [hp] at hproducing
    have hnil : s.received.length + s.queue.length = 0 := hproducing
    omega
  | finished => rfl
  | fetching index =>
    rw [hp] at hproducing
    exact absurd hproducing.2.2 hnot
  | putting index a =>
    rw [hp] at hproducing
    exact absurd hproducing.2.2 hnot
  | closing =>
    rw [hp] at hproducing
    exact absurd hproducing.2 hnot
  | handling f =>
    rw [hp] at hproducing
    exact absurd hproducing.2 hnot

theorem leave_of_finished {e : Ending ε} (h : s.producer.isFinished = true) :
    s.leave e = { s with consumer := .ended e } := by
  rw [Stream.leave, if_pos h]

theorem Active.receive {index : Nat} {a : α} (h : Active source s)
    (hq : s.queue = .item index a :: rest) : Active source { s with
      queue := rest
      received := s.received ++ [(index, a)]
      consumer := .yielded } := by
  have hhead := (h.head hq).2
  have hproducing := h.producing
  rw [hq, length_cons] at hproducing
  refine ⟨.inr rfl, h.quiet, ?_, ?_, fun _ => ?_⟩
  · simp only [map_append, map_singleton, append_assoc, singleton_append,
      length_append, length_singleton]
    rw [hhead, Nat.add_assoc, Nat.add_comm 1]
  · simp only [length_append, length_singleton]
    rw [Nat.add_assoc, Nat.add_comm 1]
    exact hproducing
  · simp

theorem Active.over {e : Ending ε} (h : Active source s) (hq : s.queue = entry :: rest)
    (hentry : entry.isItem = false) (hdone : e = .exhausted → entry = .done)
    (hraised : ∀ f, e = .raised f → entry = .error f) :
    Over source ({ s with queue := rest }.leave e) := by
  have hfinished := h.last hq hentry
  have hreceived := received_of_entries h
  have hhead := (h.head hq).1
  rw [leave_of_finished (s := { s with queue := rest }) hfinished]
  refine ⟨⟨hreceived, fun he => ?_, fun f he => ?_⟩, ⟨e, rfl⟩, hfinished⟩
  · exact hhead.trans (hdone (Consumer.ended.inj he))
  · exact hhead.trans (hraised f (Consumer.ended.inj he))

theorem Active.consume (h : Active source s) (ht : s.consume = some t) :
    Active source t ∨ Over source t := by
  unfold Stream.consume at ht
  rcases h.wants with hw | hw
  · rw [hw] at ht
    cases hq : s.queue with
    | nil =>
      rw [hq] at ht
      exact nomatch ht
    | cons entry rest =>
      rw [hq] at ht
      cases entry with
      | item index a =>
        obtain rfl := some.inj ht
        exact .inl (h.receive hq)
      | done =>
        obtain rfl := some.inj ht
        exact .inr (h.over hq rfl (fun _ => rfl) fun f hf => nomatch hf)
      | error f =>
        obtain rfl := some.inj ht
        exact .inr (h.over hq rfl (fun hf => nomatch hf) fun f' hf => by cases hf; rfl)
  · rw [hw] at ht
    exact nomatch ht

theorem Active.leave (h : Active source s) (hy : s.consumer = .yielded) :
    Closing source (s.leave .stopped) ∨ Over source (s.leave .stopped) := by
  have hreceived := received_of_entries h
  have hstarted : s.producer ≠ .start := fun hp => by
    have hproducing := h.producing
    rw [hp] at hproducing
    have hnil : s.received.length + s.queue.length = 0 := hproducing
    have hpos := h.yielded hy
    omega
  cases hp : s.producer.isFinished with
  | true =>
    rw [leave_of_finished hp]
    exact .inr ⟨⟨hreceived, (fun he => nomatch he), (fun _ he => nomatch he)⟩,
      ⟨.stopped, rfl⟩, hp⟩
  | false =>
    rw [Stream.leave, hp]
    exact .inl ⟨rfl, hreceived, hstarted, hp⟩

/-! ### Steps of the clean-up -/

/-- Once it was cancelled, the producer's one step is the `put` of its `except` block. -/
theorem Closing.finishes (h : Closing source s) (hc : s.cancelling = false)
    (ht : s.produce source size = some t) :
    t = { s with queue := t.queue, producer := .finished } := by
  have hproducer := h.producer
  rw [hc] at hproducer
  rw [produce_of_quiet hc] at ht
  rcases (show _ ∨ _ from hproducer) with hp | hp
  · cases hs : s.producer with
    | finished =>
      rw [hs] at ht
      exact nomatch ht
    | _ =>
      rw [hs] at hp
      exact nomatch hp
  · cases hs : s.producer with
    | handling f =>
      rw [hs] at ht
      obtain ⟨-, rfl⟩ := put_eq ht
      rfl
    | _ =>
      rw [hs] at hp
      exact nomatch hp

theorem Closing.produce (h : Closing source s) (ht : s.produce source size = some t) :
    Closing source t := by
  have hproducer := h.producer
  cases hc : s.cancelling with
  | true =>
    rw [hc] at hproducer
    have hfinished : s.producer.isFinished = false := hproducer
    unfold Stream.produce at ht
    rw [hfinished, hc] at ht
    obtain rfl := some.inj ht
    have hproducer : s.cancelled.producer = .finished ∨
        s.cancelled.producer = .handling .cancelled := by
      unfold Stream.cancelled
      cases s.producer with
      | fetching index => exact .inr rfl
      | putting index a => exact .inr rfl
      | closing => exact .inr rfl
      | _ => exact .inl rfl
    refine ⟨h.cleaning, h.received, ?_, ?_⟩
    · rcases hproducer with hp | hp <;> rw [hp] <;> nofun
    · show s.cancelled.producer.isFinished = true ∨ s.cancelled.producer.isHandling = true
      rcases hproducer with hp | hp
      · exact .inl (congrArg Producer.isFinished hp)
      · exact .inr (congrArg Producer.isHandling hp)
  | false =>
    rw [h.finishes hc ht]
    refine ⟨h.cleaning, h.received, nofun, ?_⟩
    show if s.cancelling = true then _ else _
    rw [hc]
    exact .inl rfl

theorem Closing.consume (h : Closing source s) (ht : s.consume = some t) : Over source t := by
  unfold Stream.consume at ht
  rw [h.cleaning] at ht
  cases hp : s.producer.isFinished with
  | true =>
    simp only [hp, if_true, some.injEq] at ht
    subst ht
    exact ⟨⟨h.received, (fun he => nomatch he), (fun _ he => nomatch he)⟩, ⟨.stopped, rfl⟩, hp⟩
  | false =>
    simp only [hp, Bool.false_eq_true, if_false] at ht
    exact nomatch ht

/-! ### Every run -/

theorem Stream.produce_bounded (hs : size ≠ 0 → s.queue.length ≤ size)
    (ht : s.produce source size = some t) : size ≠ 0 → t.queue.length ≤ size := by
  have hput : ∀ entry after, s.put size entry after = some t → size ≠ 0 → t.queue.length ≤ size := by
    intro entry after hput hsize
    obtain ⟨hroom, rfl⟩ := put_eq hput
    rw [length_append]
    exact bounded_of_room hroom hsize
  unfold Stream.produce at ht
  split at ht
  · exact nomatch ht
  · split at ht
    · obtain rfl := some.inj ht
      exact hs
    · split at ht
      · obtain rfl := some.inj ht
        exact hs
      · obtain rfl := some.inj ht
        exact hs
      · exact hput _ _ ht
      · exact hput _ _ ht
      · exact hput _ _ ht
      · exact nomatch ht

theorem Stream.leave_queue (e : Ending ε) : (s.leave e).queue = s.queue := by
  unfold Stream.leave
  split <;> rfl

theorem Stream.consume_bounded (hs : size ≠ 0 → s.queue.length ≤ size)
    (ht : s.consume = some t) : size ≠ 0 → t.queue.length ≤ size := by
  have hrest : ∀ entry rest, s.queue = entry :: rest → size ≠ 0 → rest.length ≤ size := by
    intro entry rest hq hsize
    have hle := hs hsize
    rw [hq, length_cons] at hle
    omega
  unfold Stream.consume at ht
  split at ht
  · split at ht
    · exact nomatch ht
    · obtain rfl := some.inj ht
      exact hrest _ _ ‹_›
    · obtain rfl := some.inj ht
      rw [Stream.leave_queue]
      exact hrest _ _ ‹_›
    · obtain rfl := some.inj ht
      rw [Stream.leave_queue]
      exact hrest _ _ ‹_›
  · split at ht
    · obtain rfl := some.inj ht
      exact hs
    · exact nomatch ht
  · exact nomatch ht
  · exact nomatch ht

theorem Over.step (h : Over source s) (move : Move) : s.step source size move = none := by
  obtain ⟨e, he⟩ := h.ended
  cases move with
  | produce =>
    show s.produce source size = none
    rw [Stream.produce, if_pos h.finished]
  | consume =>
    show s.consume = none
    rw [Stream.consume, he]
  | resume =>
    rw [Stream.step, he]
  | stop => rw [Stream.step, he]

theorem resume_eq (ht : s.step source size .resume = some t) :
    s.consumer = .yielded ∧ t = { s with consumer := .waiting } := by
  unfold Stream.step at ht
  cases hc : s.consumer with
  | yielded =>
    rw [hc] at ht
    exact ⟨rfl, (some.inj ht).symm⟩
  | _ =>
    rw [hc] at ht
    exact nomatch ht

theorem stop_eq (ht : s.step source size .stop = some t) :
    s.consumer = .yielded ∧ t = s.leave .stopped := by
  unfold Stream.step at ht
  cases hc : s.consumer with
  | yielded =>
    rw [hc] at ht
    exact ⟨rfl, (some.inj ht).symm⟩
  | _ =>
    rw [hc] at ht
    exact nomatch ht

theorem sound_step {move : Move} (h : Sound source size s)
    (ht : s.step source size move = some t) : Sound source size t := by
  rcases h.phase with ha | hc | ho
  · cases move with
    | produce => exact ⟨s.produce_bounded h.bounded ht, .inl (ha.produce ht)⟩
    | consume =>
      exact ⟨s.consume_bounded h.bounded ht, (ha.consume ht).imp_right .inr⟩
    | resume =>
      obtain ⟨-, rfl⟩ := resume_eq ht
      exact ⟨h.bounded, .inl ⟨.inl rfl, ha.quiet, ha.entries, ha.producing, fun hy => nomatch hy⟩⟩
    | stop =>
      obtain ⟨hy, rfl⟩ := stop_eq ht
      refine ⟨?_, .inr (ha.leave hy)⟩
      rw [Stream.leave_queue]
      exact h.bounded
  · cases move with
    | produce => exact ⟨s.produce_bounded h.bounded ht, .inr (.inl (hc.produce ht))⟩
    | consume => exact ⟨s.consume_bounded h.bounded ht, .inr (.inr (hc.consume ht))⟩
    | resume => exact nomatch hc.cleaning.symm.trans (resume_eq ht).1
    | stop => exact nomatch hc.cleaning.symm.trans (stop_eq ht).1
  · rw [ho.step] at ht
    exact nomatch ht

theorem sound_start : Sound source size ({} : Stream α ε) :=
  ⟨fun _ => Nat.zero_le _, .inl ⟨.inl rfl, rfl, rfl, rfl, fun h => nomatch h⟩⟩

/-! ### Deadlocks -/

theorem deadlocked_eq (h : s.deadlocked source size = true) :
    ((s.consumer = .waiting ∨ ∃ e, s.consumer = .cleaning e) ∧ s.consume = none) ∧
      s.produce source size = none := by
  simp only [Stream.deadlocked, Bool.and_eq_true, isNone_iff_eq_none] at h
  refine ⟨⟨?_, h.1.2⟩, h.2⟩
  have hwaits := h.1.1
  cases hc : s.consumer with
  | waiting => exact .inl rfl
  | cleaning e => exact .inr ⟨e, rfl⟩
  | yielded =>
    rw [hc] at hwaits
    exact nomatch hwaits
  | ended e =>
    rw [hc] at hwaits
    exact nomatch hwaits

theorem put_isSome (h : s.full size = false) : s.put size entry after ≠ none := by
  rw [Stream.put, h]
  nofun

theorem Active.not_deadlocked (h : Active source s) : s.deadlocked source size = false := by
  by_contra hdead
  obtain ⟨⟨hwaits, hconsume⟩, hproduce⟩ := deadlocked_eq (Bool.not_eq_false _ ▸ hdead)
  have hw : s.consumer = .waiting := by
    rcases hwaits with hw | ⟨e, hw⟩
    · exact hw
    · rcases h.wants with hw' | hw' <;> exact nomatch hw.symm.trans hw'
  have hq : s.queue = [] := by
    rw [Stream.consume, hw] at hconsume
    cases hq : s.queue with
    | nil => rfl
    | cons entry rest =>
      rw [hq] at hconsume
      cases entry <;> exact nomatch hconsume
  have hroom : s.full size = false := by
    rw [Stream.full, hq, Bool.and_eq_false_iff, decide_eq_false_iff_not, decide_eq_false_iff_not,
      length_nil]
    omega
  have hproducing := h.producing
  rw [produce_of_quiet h.quiet] at hproduce
  cases hp : s.producer with
  | finished =>
    -- the last entry was no item, yet all entries were received as items
    rw [hp, hq] at hproducing
    obtain ⟨m, hm, -, hlast⟩ := hproducing
    have hlength : s.received.length = m + 1 := hm
    have hentry := congrArg (·[m]?) (received_of_entries h)
    simp only [getElem?_map, getElem?_range (show m < s.received.length by omega),
      getElem?_eq_getElem (show m < s.received.length by omega), map_some,
      some.injEq] at hentry
    rw [← hentry] at hlast
    exact nomatch hlast
  | putting index a =>
    rw [hp] at hproduce
    exact put_isSome hroom hproduce
  | closing =>
    rw [hp] at hproduce
    exact put_isSome hroom hproduce
  | handling f =>
    rw [hp] at hproduce
    exact put_isSome hroom hproduce
  | _ =>
    rw [hp] at hproduce
    exact nomatch hproduce

theorem Over.not_deadlocked (h : Over source s) : s.deadlocked source size = false := by
  obtain ⟨e, he⟩ := h.ended
  rw [Stream.deadlocked, he]
  rfl

/-- The clean-up waits for ever exactly if the producer is at the `put` of its `except` block and
the queue is full. -/
theorem Closing.deadlocked_iff (h : Closing source s) : s.deadlocked source size = true ↔
    s.cancelling = false ∧ s.producer.isHandling = true ∧ s.full size = true := by
  have hproducer := h.producer
  cases hc : s.cancelling with
  | true =>
    rw [hc] at hproducer
    refine iff_of_false (fun hdead => ?_) fun hd => nomatch hd.1
    have hproduce := (deadlocked_eq hdead).2
    rw [Stream.produce, show s.producer.isFinished = false from hproducer, hc] at hproduce
    exact nomatch hproduce
  | false =>
    rw [hc] at hproducer
    rw [Stream.deadlocked, h.cleaning, Stream.consume, h.cleaning, produce_of_quiet hc]
    rcases (show _ ∨ _ from hproducer) with hp | hp
    · rw [hp]
      refine iff_of_false (fun hdead => ?_) fun hd => ?_
      · exact nomatch hdead
      · cases hs : s.producer with
        | finished =>
          rw [hs] at hd
          exact nomatch hd.2.1
        | _ =>
          rw [hs] at hp
          exact nomatch hp
    · cases hs : s.producer with
      | handling f =>
        simp [Producer.isFinished, Producer.isHandling, Stream.put]
      | _ =>
        rw [hs] at hp
        exact nomatch hp

theorem cancelled_eq (hf : s.producer.isFinished = false) (hc : s.cancelling = true)
    (ht : s.produce source size = some t) : t = s.cancelled := by
  rw [Stream.produce, hf, hc] at ht
  exact (some.inj ht).symm

theorem Closing.cancelled (h : Closing source s) (hf : s.producer.isFinished = false) :
    s.cancelled.producer.isHandling = !s.producer.isHandling := by
  unfold Stream.cancelled
  cases hp : s.producer with
  | start => exact absurd hp h.started
  | finished =>
    rw [hp] at hf
    exact nomatch hf
  | _ => rfl

/-- **What one step does**: the only step into a deadlock is the cancellation that reaches the
producer's loop while the queue is full. -/
theorem deadlock_step {move : Move} (h : Sound source size s)
    (ht : s.step source size move = some t) :
    t.deadlocked source size = false ↔ CancelledWithRoom size s move := by
  rcases h.phase with ha | hc | ho
  · have hroom : CancelledWithRoom size s move := fun _ hcancel =>
      nomatch ha.quiet.symm.trans hcancel
    refine iff_of_true ?_ hroom
    cases move with
    | produce => exact (ha.produce ht).not_deadlocked
    | consume => exact (ha.consume ht).elim (·.not_deadlocked) (·.not_deadlocked)
    | resume =>
      have hsound := sound_step h ht
      obtain ⟨-, rfl⟩ := resume_eq ht
      rcases hsound.phase with ha' | hc' | ho'
      · exact ha'.not_deadlocked
      · exact nomatch hc'.cleaning
      · exact nomatch ho'.ended.choose_spec
    | stop =>
      obtain ⟨hy, rfl⟩ := stop_eq ht
      rcases ha.leave hy with hc' | ho'
      · have hcancelling : (s.leave .stopped).cancelling = true := by
          cases hf : s.producer.isFinished with
          | true =>
            have hcleaning := hc'.cleaning
            rw [leave_of_finished hf] at hcleaning
            exact nomatch hcleaning
          | false => rw [Stream.leave, hf]; rfl
        rw [← Bool.not_eq_true, hc'.deadlocked_iff, hcancelling]
        exact fun hd => nomatch hd.1
      · exact ho'.not_deadlocked
  · cases move with
    | produce =>
      have hproducer := hc.producer
      cases hcancel : s.cancelling with
      | true =>
        rw [hcancel] at hproducer
        have hfinished : s.producer.isFinished = false := hproducer
        rw [← Bool.not_eq_true, (hc.produce ht).deadlocked_iff, cancelled_eq hfinished hcancel ht,
          hc.cancelled hfinished]
        show ¬ (false = false ∧ (!s.producer.isHandling) = true ∧ s.full size = true) ↔ _
        unfold CancelledWithRoom
        simp only [hcancel, true_and, forall_true_left]
        cases s.producer.isHandling <;> simp
      | false =>
        refine iff_of_true ?_ fun _ hcancel' => nomatch hcancel.symm.trans hcancel'
        rw [← Bool.not_eq_true, (hc.produce ht).deadlocked_iff, hc.finishes hcancel ht]
        exact fun hd => nomatch hd.2.1
    | consume =>
      exact iff_of_true (hc.consume ht).not_deadlocked fun hmove => nomatch hmove
    | resume => exact nomatch hc.cleaning.symm.trans (resume_eq ht).1
    | stop => exact nomatch hc.cleaning.symm.trans (stop_eq ht).1
  · rw [ho.step] at ht
    exact nomatch ht

/-! ### Progress -/

/-- The entries that were put. -/
def Stream.count (s : Stream α ε) : Nat :=
  s.received.length + s.queue.length + match s.consumer with
    | .ended _ => 1
    | _ => 0

/-- The steps the producer made for the entry it is at. -/
def Producer.work : Producer α ε → Nat
  | start => 0
  | fetching _ | finished => 1
  | putting _ _ | closing | handling _ => 2

/-- The steps the generator and its consumer made for `n` items. -/
def Consumer.work (n : Nat) : Consumer ε → Nat
  | waiting => 2 * n
  | yielded => 2 * n - 1
  | cleaning _ | ended _ => 2 * n + 1

/-- No fewer steps were made than went into the run, unless the consumer stopped. -/
def Stream.work (s : Stream α ε) : Nat :=
  2 * s.count + s.producer.work + s.consumer.work s.received.length

theorem work_put (h : s.producer.work = after.work + 1) (hput : s.put size entry after = some t) :
    s.work < t.work := by
  obtain ⟨-, rfl⟩ := put_eq hput
  simp only [Stream.work, Stream.count, length_append, length_singleton]
  omega

theorem work_produce (h : Active source s) (ht : s.produce source size = some t) :
    s.work < t.work := by
  rw [produce_of_quiet h.quiet] at ht
  cases hp : s.producer with
  | start =>
    rw [hp] at ht
    obtain rfl := some.inj ht
    cases source.iterRaises <;> simp [Stream.work, Stream.count, hp, Producer.work]
  | fetching index =>
    rw [hp] at ht
    obtain rfl := some.inj ht
    cases source.next index <;> simp [Stream.work, Stream.count, hp, Producer.work]
  | putting index a =>
    rw [hp] at ht
    exact work_put (by rw [hp]; rfl) ht
  | closing =>
    rw [hp] at ht
    exact work_put (by rw [hp]; rfl) ht
  | handling f =>
    rw [hp] at ht
    exact work_put (by rw [hp]; rfl) ht
  | finished =>
    rw [hp] at ht
    exact nomatch ht

theorem work_over (e : Ending ε) (h : Active source s) (hw : s.consumer = .waiting)
    (hq : s.queue = entry :: rest) (hentry : entry.isItem = false) :
    s.work < ({ s with queue := rest }.leave e).work := by
  rw [leave_of_finished (s := { s with queue := rest }) (h.last hq hentry)]
  simp only [Stream.work, Stream.count, hw, hq, length_cons, Consumer.work]
  omega

theorem work_consume (h : Active source s) (ht : s.consume = some t) : s.work < t.work := by
  unfold Stream.consume at ht
  rcases h.wants with hw | hw
  · rw [hw] at ht
    cases hq : s.queue with
    | nil =>
      rw [hq] at ht
      exact nomatch ht
    | cons entry rest =>
      rw [hq] at ht
      cases entry with
      | item index a =>
        obtain rfl := some.inj ht
        simp only [Stream.work, Stream.count, hw, hq, length_cons, length_append,
          length_nil, Consumer.work]
        omega
      | done =>
        obtain rfl := some.inj ht
        exact work_over .exhausted h hw hq rfl
      | error f =>
        obtain rfl := some.inj ht
        exact work_over (.raised f) h hw hq rfl
  · rw [hw] at ht
    exact nomatch ht

/-- The consumer wants more, or the generator ended of itself. -/
def Going (source : Source α ε) (s : Stream α ε) : Prop := Active source s ∨ Over source s

theorem going_step {move : Move} (h : Going source s) (hmove : move ≠ .stop)
    (ht : s.step source size move = some t) : Going source t ∧ s.work < t.work := by
  rcases h with ha | ho
  · cases move with
    | produce => exact ⟨.inl (ha.produce ht), work_produce ha ht⟩
    | consume => exact ⟨ha.consume ht, work_consume ha ht⟩
    | resume =>
      obtain ⟨hy, rfl⟩ := resume_eq ht
      have hpos := ha.yielded hy
      refine ⟨.inl ⟨.inl rfl, ha.quiet, ha.entries, ha.producing, fun hy => nomatch hy⟩, ?_⟩
      simp only [Stream.work, Stream.count, hy, Consumer.work]
      omega
    | stop => exact absurd rfl hmove
  · rw [ho.step] at ht
    exact nomatch ht

theorem work_run {moves : List Move} (h : Going source s) (hstop : .stop ∉ moves)
    (hrun : (machine source size).run s moves = some t) : s.work + moves.length ≤ t.work := by
  induction moves generalizing s with
  | nil =>
    obtain rfl := some.inj hrun
    exact Nat.le_refl _
  | cons move moves ih =>
    rw [Machine.run_cons] at hrun
    obtain ⟨u, hu, hrun⟩ := bind_eq_some_iff.mp hrun
    rw [mem_cons, not_or] at hstop
    have hstep := going_step h (Ne.symm hstop.1) hu
    have hrest := ih hstep.1 hstop.2 hrun
    rw [length_cons]
    omega

theorem work_le (hsize : 1 ≤ size) (h : Sound source size s) :
    s.work ≤ 4 * s.received.length + 2 * size + 5 := by
  have hbounded := h.bounded (by omega)
  have hproducer : s.producer.work ≤ 2 := by cases s.producer <;> simp [Producer.work]
  have hconsumer : s.consumer.work s.received.length ≤ 2 * s.received.length + 1 := by
    cases s.consumer <;> simp only [Consumer.work] <;> omega
  have hcount : s.count ≤ s.received.length + s.queue.length + 1 := by
    unfold Stream.count
    cases s.consumer <;> simp
  unfold Stream.work
  omega

/-- **The prefetching stream.**  A run delivers and never waits for ever exactly if no cancellation
reaches the producer's loop while the queue is full.  A run without a stop, in which there is no
cancellation, receives more items the longer it is. -/
theorem stream_iff (source : Source α ε) (hsize : 1 ≤ size) (moves : List Move)
    (hrun : (machine source size).run {} moves = some t) :
    ((machine source size).Always
        (fun s => Delivers source s ∧ s.deadlocked source size = false) {} moves ↔
      (machine source size).Allowed (CancelledWithRoom size) {} moves) ∧
    (.stop ∉ moves → moves.length ≤ 4 * t.received.length + 2 * size + 5) := by
  have hsound : Sound source size t :=
    Machine.run_invariant (M := machine source size) (fun _ _ _ h ht => sound_step h ht)
      sound_start hrun
  have hstart : Sound source size ({} : Stream α ε) := sound_start
  refine ⟨Machine.always_iff_allowed_of_run (J := Sound source size) (fun s move u h hu => ?_)
    sound_start ⟨hstart.delivers, rfl⟩ hrun, fun hstop => ?_⟩
  · refine ⟨sound_step h hu, fun _ => ?_⟩
    rw [← deadlock_step h hu]
    exact and_iff_right (sound_step h hu).delivers
  · have hgoing : Going source ({} : Stream α ε) :=
      .inl ⟨.inl rfl, rfl, rfl, rfl, fun h => nomatch h⟩
    have hwork := work_run hgoing hstop hrun
    have hle := work_le hsize hsound
    omega

end

/-! ### A break while the queue is full -/

/-- The natural numbers. -/
def naturals : Source Nat Empty where
  next n := .item n

/-- The producer fetches and puts the first item, which is received, and then the second one,
which fills the queue. -/
def oneAhead : List Move :=
  [.produce, .produce, .produce, .consume, .produce, .produce]

/-- With room for two entries, the consumer stops after the first item, the producer is cancelled,
and both come to their ends. -/
def stopped : List Move := oneAhead ++ [.stop, .produce, .produce, .consume]

theorem stream_iff_naturals :
    (machine naturals 2).Always
        (fun s => Delivers naturals s ∧ s.deadlocked naturals 2 = false) {} stopped ∧
      oneAhead.length ≤ 4 * 1 + 2 * 1 + 5 := by
  constructor
  · have hrun : (machine naturals 2).run {} stopped = some {
        producer := .finished, queue := [.item 1 1, .error .cancelled],
        consumer := .ended .stopped, received := [(0, 0)] } := rfl
    exact (stream_iff naturals (by decide) stopped hrun).1.mpr (by decide)
  · have hrun : (machine naturals 1).run {} oneAhead = some {
        producer := .fetching 2, queue := [.item 1 1], consumer := .yielded,
        received := [(0, 0)] } := rfl
    exact (stream_iff naturals Nat.le.refl oneAhead hrun).2 (by decide)

/-- The consumer stops there: the clean-up waits for ever. -/
theorem break_deadlocks :
    ((machine naturals 1).run {} (oneAhead ++ [.stop, .produce])).map
      (Stream.deadlocked naturals 1) = some true := rfl

end Xtrax.IndexedStream
