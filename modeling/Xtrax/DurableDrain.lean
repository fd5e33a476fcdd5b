import Xtrax.Dict
import Xtrax.Machine

/-!
# What drains of a durable sink report

A durable sink buffers a key's arrays, its attrs and its commit inputs in three dictionaries.  A
drain commits the keys one after the other, and a key leaves the buffers when its own commit has
returned.  The outcome is kept until an explicit `drain` returns it.

`history` is the log of the commits that returned and of the outcomes that were reported.  At every
report, and for what is still to be reported, a key has the outcome of its last commit since the
report before (`durable_outcomes`).

What `commit_key` and the writes before it answer is part of the call, and so is whether the checks
of `stage` and `_validate_required_before_drain` pass.
-/

namespace Xtrax.DurableDrain

open Dict List Interleaving

/-- What is committed for a key. -/
structure Payload (A V I : Type) where
  arrays : Dict String A
  attrs : Dict String V
  info : I

/-- A line of the log. -/
inductive Item (K O : Type)
  | committed (key : K) (outcome : O)
  | reported (outcomes : Dict K O)

/-- `ZarrStagingSink` in durable mode, open. -/
structure Sink (K A V I O : Type) where
  pending : Dict K (Dict String A)
  pendingAttrs : Dict K (Dict String V)
  pendingCommit : Dict K I
  unreported : Dict K O
  stagedSinceDrain : Nat
  history : List (Item K O)

inductive Failure (K E : Type)
  | refused
  | incomplete
  /-- The `RuntimeError` for a key without commit inputs. -/
  | inconsistent (key : K)
  /-- Staging or committing a key raises. -/
  | raised (key : K) (e : E)
  | noPending

inductive Returned (K A O : Type)
  | nothing
  | arrays (arrays : Dict String A)
  | outcomes (outcomes : Dict K O)

/-- A call, with what the checks and the commits it comes to answer. -/
inductive Call (K A V I O E : Type)
  | stage (key : K) (arrays : List (String × A)) (attrs : List (String × V)) (info : I)
      (accepted incomplete : Bool) (answer : K → Payload A V I → Except E O)
  | take (key : K)
  | drain (incomplete : Bool) (answer : K → Payload A V I → Except E O)

section Model

variable {K A V I O E : Type} [DecidableEq K] (flushEvery : Nat) (pointer : List (String × V))

namespace Sink

def new : Sink K A V I O := ⟨∅, ∅, ∅, ∅, 0, []⟩

/-- The part of `stage` that buffers. -/
def buffer (s : Sink K A V I O) (key : K) (arrays : List (String × A)) (attrs : List (String × V))
    (info : I) : Sink K A V I O :=
  { s with
    pending := s.pending.set key (((s.pending.get? key).getD ∅).update arrays)
    pendingAttrs :=
      if attrs = [] then s.pendingAttrs
      else s.pendingAttrs.set key (((s.pendingAttrs.get? key).getD ∅).update attrs)
    pendingCommit := s.pendingCommit.set key info
    stagedSinceDrain := s.stagedSinceDrain + 1 }

/-- What is handed to the commit of a key: its attrs end with the `run_id` and the `git_sha`. -/
def payload (s : Sink K A V I O) (key : K) (info : I) : Payload A V I where
  arrays := (s.pending.get? key).getD ∅
  attrs := ((s.pendingAttrs.get? key).getD ∅).update pointer
  info := info

/-- A commit has returned. -/
def settle (s : Sink K A V I O) (key : K) (outcome : O) : Sink K A V I O :=
  { s with
    pending := s.pending.erase key
    pendingAttrs := s.pendingAttrs.erase key
    pendingCommit := s.pendingCommit.erase key
    unreported := s.unreported.set key outcome
    history := s.history ++ [.committed key outcome] }

def drainLoop (answer : K → Payload A V I → Except E O) :
    List K → Sink K A V I O → Sink K A V I O × Option (Failure K E)
  | [], s => ({ s with stagedSinceDrain := 0 }, none)
  | key :: keys, s =>
    match s.pendingCommit.get? key with
    | none => (s, some (.inconsistent key))
    | some info =>
      match answer key (s.payload pointer key info) with
      | .error e => (s, some (.raised key e))
      | .ok outcome => drainLoop answer keys (s.settle key outcome)

def drainDurable (answer : K → Payload A V I → Except E O) (s : Sink K A V I O) :
    Sink K A V I O × Option (Failure K E) :=
  drainLoop pointer answer (s.pending.entries.map (·.1)) s

def stage (s : Sink K A V I O) (key : K) (arrays : List (String × A)) (attrs : List (String × V))
    (info : I) (accepted incomplete : Bool) (answer : K → Payload A V I → Except E O) :
    Sink K A V I O × Except (Failure K E) (Returned K A O) :=
  if !accepted then (s, .error .refused)
  else
    let s := s.buffer key arrays attrs info
    if s.stagedSinceDrain < flushEvery then (s, .ok .nothing)
    else if incomplete then (s, .error .incomplete)
    else
      match s.drainDurable pointer answer with
      | (s, some e) => (s, .error e)
      | (s, none) => (s, .ok .nothing)

def take (s : Sink K A V I O) (key : K) : Sink K A V I O × Except (Failure K E) (Returned K A O) :=
  let dropped : Sink K A V I O :=
    { s with
      pendingAttrs := s.pendingAttrs.erase key
      pendingCommit := s.pendingCommit.erase key }
  match s.pending.get? key with
  | none => (dropped, .error .noPending)
  | some arrays => ({ dropped with pending := s.pending.erase key }, .ok (.arrays arrays))

/-- The outcomes are handed out. -/
def report (s : Sink K A V I O) : Sink K A V I O :=
  { s with unreported := ∅, history := s.history ++ [.reported s.unreported] }

def drain (s : Sink K A V I O) (incomplete : Bool) (answer : K → Payload A V I → Except E O) :
    Sink K A V I O × Except (Failure K E) (Returned K A O) :=
  if incomplete then (s, .error .incomplete)
  else
    match s.drainDurable pointer answer with
    | (s, some e) => (s, .error e)
    | (s, none) => (s.report, .ok (.outcomes s.unreported))

def call (s : Sink K A V I O) : Call K A V I O E →
    Sink K A V I O × Except (Failure K E) (Returned K A O)
  | .stage key arrays attrs info accepted incomplete answer =>
    s.stage flushEvery pointer key arrays attrs info accepted incomplete answer
  | .take key => s.take key
  | .drain incomplete answer => s.drain pointer incomplete answer

end Sink

/-- The calls of a sink, one after the other, whether they return or raise. -/
def machine : Machine (Sink K A V I O) (Call K A V I O E) where
  init s := s = Sink.new
  step s call := some (s.call flushEvery pointer call).1

end Model

/-! ## Outcomes since the last report -/

section Log

variable {K O : Type} [DecidableEq K]

/-- The log's next line: a commit joins those since the last report, and a report ends them. -/
def nextWindow (window : List (K × O)) : Item K O → List (K × O)
  | .committed key outcome => window ++ [(key, outcome)]
  | .reported _ => []

/-- The commits since the last report. -/
def openWindow (history : List (Item K O)) : List (K × O) := history.foldl nextWindow []

/-- The outcome of the last commit of a key. -/
def lastOutcome (key : K) (window : List (K × O)) : Option O :=
  (window.reverse.find? fun e => e.1 = key).map (·.2)

/-- Every report gave each key the outcome of its last commit since the report before, and the keys
without such a commit none. -/
def Reported (history : List (Item K O)) : Prop :=
  ∀ before outcomes after, history = before ++ .reported outcomes :: after →
    ∀ key, outcomes.get? key = lastOutcome key (openWindow before)

omit [DecidableEq K] in
theorem openWindow_append (history items : List (Item K O)) :
    openWindow (history ++ items) = items.foldl nextWindow (openWindow history) :=
  foldl_append

theorem lastOutcome_append (key : K) (window : List (K × O)) (e : K × O) :
    lastOutcome key (window ++ [e]) = if key = e.1 then some e.2 else lastOutcome key window := by
  unfold lastOutcome
  rw [reverse_append, reverse_singleton, singleton_append]
  by_cases hkey : e.1 = key
  · rw [find?_cons_of_pos (by simpa using hkey), if_pos hkey.symm]
    rfl
  · rw [find?_cons_of_neg (by simpa using hkey), if_neg (Ne.symm hkey)]

theorem Reported.commit {history : List (Item K O)} (h : Reported history) (key : K) (outcome : O) :
    Reported (history ++ [.committed key outcome]) := by
  intro before outcomes after heq
  rcases eq_nil_or_concat after with rfl | ⟨after, last, rfl⟩
  · have hlast := append_inj_right' heq rfl
    cases hlast
  · rw [concat_eq_append, ← cons_append, ← append_assoc] at heq
    exact h before outcomes after (append_inj_left' heq rfl)

theorem Reported.report {history : List (Item K O)} (h : Reported history) {outcomes : Dict K O}
    (hall : ∀ key, outcomes.get? key = lastOutcome key (openWindow history)) :
    Reported (history ++ [.reported outcomes]) := by
  intro before outcomes' after heq
  rcases eq_nil_or_concat after with rfl | ⟨after, last, rfl⟩
  · obtain rfl := append_inj_left' heq rfl
    have hlast := append_inj_right' heq rfl
    cases hlast
    exact hall
  · rw [concat_eq_append, ← cons_append, ← append_assoc] at heq
    exact h before outcomes' after (append_inj_left' heq rfl)

end Log

/-! ## The invariant -/

section Invariant

variable {K A V I O E : Type} [DecidableEq K] {flushEvery : Nat} {pointer : List (String × V)}
  {s t : Sink K A V I O} {key : K} {answer : K → Payload A V I → Except E O}

/-- The buffers agree on their keys, and what was reported and is to be reported is what the log
says. -/
structure Inv (s : Sink K A V I O) : Prop where
  attrs : ∀ key, s.pending.get? key = none → s.pendingAttrs.get? key = none
  commit : ∀ key, s.pending.get? key = none ↔ s.pendingCommit.get? key = none
  reported : Reported s.history
  unreported : ∀ key, s.unreported.get? key = lastOutcome key (openWindow s.history)

theorem inv_new : Inv (Sink.new : Sink K A V I O) where
  attrs _ _ := rfl
  commit _ := ⟨fun _ => rfl, fun _ => rfl⟩
  reported before outcomes after h := by cases before <;> cases h
  unreported _ := rfl

theorem Inv.buffer (h : Inv s) (key : K) (arrays : List (String × A)) (attrs : List (String × V))
    (info : I) : Inv (s.buffer key arrays attrs info) where
  attrs k hk := by
    have hpending : (s.pending.set key (((s.pending.get? key).getD ∅).update arrays)).get? k =
        none := hk
    rw [get?_set] at hpending
    split at hpending
    · cases hpending
    · rename_i hne
      have hold := h.attrs k hpending
      show (if attrs = [] then s.pendingAttrs else s.pendingAttrs.set key _).get? k = none
      split
      · exact hold
      · rw [get?_set, if_neg hne]
        exact hold
  commit k := by
    show (s.pending.set key _).get? k = none ↔ (s.pendingCommit.set key info).get? k = none
    rw [get?_set, get?_set]
    split
    · exact iff_of_false (Option.some_ne_none _) (Option.some_ne_none _)
    · exact h.commit k
  reported := h.reported
  unreported := h.unreported

theorem Inv.settle (h : Inv s) (key : K) (outcome : O) : Inv (s.settle key outcome) where
  attrs k hk := by
    have hpending : (s.pending.erase key).get? k = none := hk
    show (s.pendingAttrs.erase key).get? k = none
    rw [get?_erase] at hpending ⊢
    split
    · rfl
    · rename_i hne
      rw [if_neg hne] at hpending
      exact h.attrs k hpending
  commit k := by
    show (s.pending.erase key).get? k = none ↔ (s.pendingCommit.erase key).get? k = none
    rw [get?_erase, get?_erase]
    split
    · exact ⟨fun _ => rfl, fun _ => rfl⟩
    · exact h.commit k
  reported := h.reported.commit key outcome
  unreported k := by
    show (s.unreported.set key outcome).get? k =
      lastOutcome k (openWindow (s.history ++ [.committed key outcome]))
    rw [openWindow_append, get?_set]
    show _ = lastOutcome k (openWindow s.history ++ [(key, outcome)])
    rw [lastOutcome_append, h.unreported k]

theorem Inv.report (h : Inv s) : Inv s.report where
  attrs := h.attrs
  commit := h.commit
  reported := h.reported.report h.unreported
  unreported k := by
    show none = lastOutcome k (openWindow (s.history ++ [.reported s.unreported]))
    rw [openWindow_append]
    rfl

/-! ## What a drain leaves -/

/-- A drain took `outcomes` from the front of the buffer, in the order of the keys, and left the
rest as it was. -/
structure Drained (s t : Sink K A V I O) (outcomes : List (K × O)) : Prop where
  pending : ∃ done, done.map (·.1) = outcomes.map (·.1) ∧
    s.pending.entries = done ++ t.pending.entries
  history : t.history = s.history ++ outcomes.map fun e => .committed e.1 e.2
  attrs : ∀ key, t.pending.get? key ≠ none → t.pendingAttrs.get? key = s.pendingAttrs.get? key
  commit : ∀ key, t.pending.get? key ≠ none → t.pendingCommit.get? key = s.pendingCommit.get? key

theorem Drained.refl (s : Sink K A V I O) : Drained s s [] where
  pending := ⟨[], rfl, rfl⟩
  history := (append_nil _).symm
  attrs _ _ := rfl
  commit _ _ := rfl

theorem Drained.cons {arrays : Dict String A} {rest : List (K × Dict String A)} {outcome : O}
    {outcomes : List (K × O)} (hentries : s.pending.entries = (key, arrays) :: rest)
    (h : Drained (s.settle key outcome) t outcomes) : Drained s t ((key, outcome) :: outcomes) := by
  obtain ⟨done, hkeys, hdone⟩ := h.pending
  have hrest : (s.pending.erase key).entries = rest := entries_erase_head hentries
  have hrest' : rest = done ++ t.pending.entries := hrest ▸ hdone
  have hsplit : s.pending.entries = (key, arrays) :: done ++ t.pending.entries := by
    rw [hentries, hrest', cons_append]
  have hne : ∀ k, t.pending.get? k ≠ none → k ≠ key := by
    rintro k hk rfl
    exact not_mem_of_append hsplit (by simp) (mem_keys_iff.mpr hk)
  refine ⟨⟨(key, arrays) :: done, ?_, hsplit⟩, ?_, fun k hk => ?_, fun k hk => ?_⟩
  · rw [map_cons, map_cons, hkeys]
  · rw [h.history]
    show (s.history ++ [Item.committed key outcome]) ++ _ = _
    rw [append_assoc]
    rfl
  · rw [h.attrs k hk]
    show (s.pendingAttrs.erase key).get? k = _
    rw [get?_erase, if_neg (hne k hk)]
  · rw [h.commit k hk]
    show (s.pendingCommit.erase key).get? k = _
    rw [get?_erase, if_neg (hne k hk)]

/-- **What a drain does**: it commits keys from the front, up to the first that raises. -/
theorem drainLoop_spec {keys : List K} {e : Option (Failure K E)}
    (h : Inv s) (hkeys : s.pending.entries.map (·.1) = keys)
    (hdrain : s.drainLoop pointer answer keys = (t, e)) :
    Inv t ∧ ∃ outcomes, Drained s t outcomes ∧
      ((e = none ∧ t.pending.entries = []) ∨
        ∃ key arrays later err, e = some (.raised key err) ∧
          t.pending.entries = (key, arrays) :: later) := by
  induction keys generalizing s with
  | nil =>
    obtain ⟨rfl, rfl⟩ := Prod.mk.inj hdrain
    refine ⟨⟨h.attrs, h.commit, h.reported, h.unreported⟩, [], ?_, .inl ⟨rfl, ?_⟩⟩
    · exact ⟨⟨[], rfl, rfl⟩, (append_nil _).symm, fun _ _ => rfl, fun _ _ => rfl⟩
    · exact map_eq_nil_iff.mp hkeys
  | cons key keys ih =>
    obtain ⟨⟨key', arrays⟩, rest, hentries, rfl, hrest⟩ := map_eq_cons_iff.mp hkeys
    rw [Sink.drainLoop] at hdrain
    have hpending : s.pending.get? key' ≠ none :=
      mem_keys_iff.mp (hkeys ▸ mem_cons_self)
    dsimp only at hdrain
    split at hdrain
    · rename_i hnone
      exact absurd ((h.commit key').mpr hnone) hpending
    · rename_i info hinfo
      split at hdrain
      · rename_i err herr
        obtain ⟨rfl, rfl⟩ := Prod.mk.inj hdrain
        exact ⟨h, [], .refl s, .inr ⟨key', arrays, rest, err, rfl, hentries⟩⟩
      · rename_i outcome houtcome
        have hnext : (s.settle key' outcome).pending.entries.map (·.1) = keys := by
          show (s.pending.erase key').entries.map (·.1) = keys
          rw [entries_erase_head hentries, hrest]
        obtain ⟨hinv, outcomes, hdrained, hend⟩ := ih (h.settle key' outcome) hnext hdrain
        exact ⟨hinv, (key', outcome) :: outcomes, hdrained.cons hentries, hend⟩

theorem Drained.get?_ne_none {outcomes : List (K × O)} (h : Drained s t outcomes) (key : K) :
    t.pending.get? key ≠ none ↔
      s.pending.get? key ≠ none ∧ ∀ outcome, (key, outcome) ∉ outcomes := by
  obtain ⟨done, hkeys, hdone⟩ := h.pending
  have hout : (∀ outcome, (key, outcome) ∉ outcomes) ↔ key ∉ done.map (·.1) := by
    rw [hkeys]
    simp
  rw [hout, ← mem_keys_iff, ← mem_keys_iff, hdone, map_append, mem_append]
  constructor
  · intro hmem
    exact ⟨.inr hmem, fun hin => not_mem_of_append hdone hin hmem⟩
  · rintro ⟨hmem, hout⟩
    exact hmem.resolve_left hout

/-! ## What a call does -/

namespace Sink

/-- The buffer a call works on: that of `stage` has the call's own payload in it. -/
def buffered (s : Sink K A V I O) : Call K A V I O E → Sink K A V I O
  | .stage key arrays attrs info accepted _ _ =>
    if accepted then s.buffer key arrays attrs info else s
  | _ => s

end Sink

/-- The buffers of `t` are those of `s` from this key on. -/
structure LeftFrom (s t : Sink K A V I O) (key : K) : Prop where
  pending : ∃ done arrays later, s.pending.entries = done ++ (key, arrays) :: later ∧
    t.pending.entries = (key, arrays) :: later
  attrs : ∀ k, t.pendingAttrs.get? k =
    if t.pending.get? k = none then none else s.pendingAttrs.get? k
  commit : ∀ k, t.pendingCommit.get? k =
    if t.pending.get? k = none then none else s.pendingCommit.get? k

/-- What a call does to the buffers, where it adds these lines to the log. -/
structure Accounted (s : Sink K A V I O) (call : Call K A V I O E) (t : Sink K A V I O)
    (result : Except (Failure K E) (Returned K A O)) (items : List (Item K O)) : Prop where
  history : t.history = s.history ++ items
  reports : ∀ outcomes, .reported outcomes ∈ items ↔ result = .ok (.outcomes outcomes)
  /-- A key leaves when its commit returns or it is taken. -/
  leaves : ∀ key, t.pending.get? key ≠ none ↔ (s.buffered call).pending.get? key ≠ none ∧
    (∀ outcome, .committed key outcome ∉ items) ∧ call ≠ .take key
  raised : ∀ key e, result = .error (.raised key e) → LeftFrom (s.buffered call) t key
  /-- The other exceptions leave the buffers as they are. -/
  intact : result = .error .refused ∨ result = .error .incomplete ∨ result = .error .noPending →
    ∀ k, t.pending.get? k = (s.buffered call).pending.get? k ∧
      t.pendingAttrs.get? k = (s.buffered call).pendingAttrs.get? k ∧
      t.pendingCommit.get? k = (s.buffered call).pendingCommit.get? k
  consistent : ∀ key, result ≠ .error (.inconsistent key)

theorem accounted_buffered (call : Call K A V I O E) (hcall : ∀ key, call ≠ .take key)
    (hhistory : (s.buffered call).history = s.history)
    {result : Except (Failure K E) (Returned K A O)} (hreport : ∀ d, result ≠ .ok (.outcomes d))
    (hraised : ∀ key e, result ≠ .error (.raised key e))
    (hconsistent : ∀ key, result ≠ .error (.inconsistent key)) :
    Accounted s call (s.buffered call) result [] where
  history := by rw [hhistory, append_nil]
  reports d := iff_of_false not_mem_nil (hreport d)
  leaves key := ⟨fun h => ⟨h, fun _ => not_mem_nil, hcall key⟩, fun h => h.1⟩
  raised key e h := absurd h (hraised key e)
  intact _ _ := ⟨rfl, rfl, rfl⟩
  consistent := hconsistent

theorem Drained.leftFrom {outcomes : List (K × O)} (h : Drained s t outcomes) (ht : Inv t)
    {arrays : Dict String A} {later : List (K × Dict String A)}
    (hlater : t.pending.entries = (key, arrays) :: later) : LeftFrom s t key where
  pending := by
    obtain ⟨done, -, hdone⟩ := h.pending
    exact ⟨done, arrays, later, by rw [hdone, hlater], hlater⟩
  attrs k := by
    by_cases hk : t.pending.get? k = none
    · rw [if_pos hk, ht.attrs k hk]
    · rw [if_neg hk, h.attrs k hk]
  commit k := by
    by_cases hk : t.pending.get? k = none
    · rw [if_pos hk, (ht.commit k).mp hk]
    · rw [if_neg hk, h.commit k hk]

/-- The lines a drain adds. -/
def commits (outcomes : List (K × O)) : List (Item K O) :=
  outcomes.map fun e => .committed e.1 e.2

omit [DecidableEq K] in
theorem mem_commits {outcomes : List (K × O)} {key : K} {outcome : O} :
    .committed key outcome ∈ commits outcomes ↔ (key, outcome) ∈ outcomes := by
  unfold commits
  constructor
  · intro h
    obtain ⟨⟨key', outcome'⟩, hmem, heq⟩ := mem_map.mp h
    obtain ⟨rfl, rfl⟩ := Item.committed.inj heq
    exact hmem
  · exact fun h => mem_map.mpr ⟨_, h, rfl⟩

omit [DecidableEq K] in
theorem not_reported_mem_commits {outcomes : List (K × O)} {d : Dict K O} :
    .reported d ∉ commits outcomes := by
  intro h
  obtain ⟨e, -, heq⟩ := mem_map.mp h
  cases heq

theorem accounted_drained (call : Call K A V I O E) (hcall : ∀ key, call ≠ .take key)
    (hhistory : (s.buffered call).history = s.history) {outcomes : List (K × O)}
    (h : Drained (s.buffered call) t outcomes)
    {result : Except (Failure K E) (Returned K A O)} (hreport : ∀ d, result ≠ .ok (.outcomes d))
    (hraised : ∀ key e, result = .error (.raised key e) → LeftFrom (s.buffered call) t key)
    (hother : result ≠ .error .refused ∧ result ≠ .error .incomplete ∧ result ≠ .error .noPending)
    (hconsistent : ∀ key, result ≠ .error (.inconsistent key)) :
    Accounted s call t result (commits outcomes) where
  history := by rw [h.history, hhistory]; rfl
  reports d := iff_of_false not_reported_mem_commits (hreport d)
  leaves key := by
    rw [h.get?_ne_none key]
    constructor
    · rintro ⟨hpending, hnot⟩
      exact ⟨hpending, fun outcome hmem => hnot outcome (mem_commits.mp hmem), hcall key⟩
    · rintro ⟨hpending, hnot, -⟩
      exact ⟨hpending, fun outcome hmem => hnot outcome (mem_commits.mpr hmem)⟩
  raised := hraised
  intact hresult := by
    rcases hresult with hr | hr | hr
    · exact absurd hr hother.1
    · exact absurd hr hother.2.1
    · exact absurd hr hother.2.2
  consistent := hconsistent

/-- A call keeps the invariant and is accounted for. -/
def Meets (s : Sink K A V I O) (call : Call K A V I O E)
    (r : Sink K A V I O × Except (Failure K E) (Returned K A O)) : Prop :=
  Inv r.1 ∧ ∃ items, Accounted s call r.1 r.2 items

theorem meets_buffered {call : Call K A V I O E} {u : Sink K A V I O}
    {result : Except (Failure K E) (Returned K A O)} (hu : s.buffered call = u) (h : Inv u)
    (hcall : ∀ key, call ≠ .take key) (hhistory : u.history = s.history)
    (hreport : ∀ d, result ≠ .ok (.outcomes d)) (hraised : ∀ key e, result ≠ .error (.raised key e))
    (hconsistent : ∀ key, result ≠ .error (.inconsistent key)) : Meets s call (u, result) := by
  subst hu
  exact ⟨h, [], accounted_buffered call hcall hhistory hreport hraised hconsistent⟩

theorem meets_raised {call : Call K A V I O E} {u : Sink K A V I O} {outcomes : List (K × O)}
    {arrays : Dict String A} {later : List (K × Dict String A)} {e : E} (hu : s.buffered call = u)
    (ht : Inv t) (hcall : ∀ key, call ≠ .take key) (hhistory : u.history = s.history)
    (h : Drained u t outcomes) (hlater : t.pending.entries = (key, arrays) :: later) :
    Meets s call (t, .error (.raised key e)) := by
  subst hu
  refine ⟨ht, _, accounted_drained call hcall hhistory h nofun ?_ ⟨nofun, nofun, nofun⟩ nofun⟩
  intro k e' heq
  obtain ⟨rfl, -⟩ := Failure.raised.inj (Except.error.inj heq)
  exact h.leftFrom ht hlater

theorem stage_spec (h : Inv s) (key : K) (arrays : List (String × A)) (attrs : List (String × V))
    (info : I) (accepted incomplete : Bool) (answer : K → Payload A V I → Except E O) :
    Meets s (.stage key arrays attrs info accepted incomplete answer)
      (s.call flushEvery pointer (.stage key arrays attrs info accepted incomplete answer)) := by
  cases accepted with
  | false => exact meets_buffered (u := s) rfl h nofun rfl nofun nofun nofun
  | true =>
    have hbuffer := h.buffer key arrays attrs info
    have hresult : s.call flushEvery pointer (.stage key arrays attrs info true incomplete answer) =
      if (s.buffer key arrays attrs info).stagedSinceDrain < flushEvery then
        (s.buffer key arrays attrs info, .ok .nothing)
      else if incomplete then (s.buffer key arrays attrs info, .error .incomplete)
      else
        match (s.buffer key arrays attrs info).drainDurable pointer answer with
        | (s, some e) => (s, .error e)
        | (s, none) => (s, .ok .nothing) := rfl
    rw [hresult]
    split
    · exact meets_buffered rfl hbuffer nofun rfl nofun nofun nofun
    split
    · exact meets_buffered rfl hbuffer nofun rfl nofun nofun nofun
    cases hdrain : (s.buffer key arrays attrs info).drainDurable pointer answer with
    | mk t e =>
      obtain ⟨hinv, outcomes, hdrained, ⟨rfl, hnone⟩ | ⟨k, arrays', later, err, rfl, hlater⟩⟩ :=
        drainLoop_spec hbuffer rfl hdrain
      · exact ⟨hinv, _, accounted_drained
          (.stage key arrays attrs info true incomplete answer) nofun rfl hdrained nofun nofun
          ⟨nofun, nofun, nofun⟩ nofun⟩
      · exact meets_raised rfl hinv nofun rfl hdrained hlater

theorem take_spec (h : Inv s) (key : K) :
    Meets s (.take key : Call K A V I O E) (s.call flushEvery pointer (.take key)) := by
  show Meets s _ (s.take key)
  rw [Sink.take]
  cases hpending : s.pending.get? key with
  | none =>
    have hattrs := h.attrs key hpending
    have hcommit := (h.commit key).mp hpending
    have hsame (k : K) : (s.pendingAttrs.erase key).get? k = s.pendingAttrs.get? k ∧
        (s.pendingCommit.erase key).get? k = s.pendingCommit.get? k := by
      rw [get?_erase, get?_erase]
      split
      · rename_i heq
        rw [heq, hattrs, hcommit]
        exact ⟨rfl, rfl⟩
      · exact ⟨rfl, rfl⟩
    refine ⟨⟨fun k hk => (hsame k).1.trans (h.attrs k hk), fun k => ?_, h.reported, h.unreported⟩,
      [], ⟨(append_nil _).symm, fun d => iff_of_false not_mem_nil (by simp), fun k => ?_,
        by simp, fun _ k => ⟨rfl, hsame k⟩, by simp⟩⟩
    · show _ ↔ (s.pendingCommit.erase key).get? k = none
      rw [(hsame k).2]
      exact h.commit k
    · refine ⟨fun hk => ⟨hk, fun _ => not_mem_nil, ?_⟩, fun hk => hk.1⟩
      rintro heq
      obtain rfl := Call.take.inj heq
      exact hk hpending
  | some arrays =>
    have hget {ν : Type} (d : Dict K ν) (k : K) : (d.erase key).get? k = none ↔
        k = key ∨ d.get? k = none := by
      rw [get?_erase]
      split
      · exact iff_of_true rfl (.inl ‹_›)
      · exact (or_iff_right ‹_›).symm
    refine ⟨⟨fun k hk => ?_, fun k => ?_, h.reported, h.unreported⟩,
      [], ⟨(append_nil _).symm, fun d => iff_of_false not_mem_nil (by simp), fun k => ?_,
        by simp, fun hr => ?_, by simp⟩⟩
    · rcases (hget _ k).mp hk with rfl | hk
      · exact (hget _ k).mpr (.inl rfl)
      · exact (hget _ k).mpr (.inr (h.attrs k hk))
    · show (s.pending.erase key).get? k = none ↔ (s.pendingCommit.erase key).get? k = none
      rw [hget, hget, h.commit k]
    · show (s.pending.erase key).get? k ≠ none ↔ _
      rw [ne_eq, hget, not_or]
      constructor
      · rintro ⟨hne, hk⟩
        exact ⟨hk, fun _ => not_mem_nil, fun heq => hne (Call.take.inj heq).symm⟩
      · rintro ⟨hk, -, hne⟩
        exact ⟨fun heq => hne (heq ▸ rfl), hk⟩
    · rcases hr with hr | hr | hr <;> cases hr

theorem drain_spec (h : Inv s) (incomplete : Bool) (answer : K → Payload A V I → Except E O) :
    Meets s (.drain incomplete answer) (s.call flushEvery pointer (.drain incomplete answer)) := by
  cases incomplete with
  | true => exact meets_buffered (u := s) rfl h nofun rfl nofun nofun nofun
  | false =>
    have hresult : s.call flushEvery pointer (.drain false answer) =
      match s.drainDurable pointer answer with
      | (s, some e) => (s, .error e)
      | (s, none) => (s.report, .ok (.outcomes s.unreported)) := rfl
    rw [hresult]
    cases hdrain : s.drainDurable pointer answer with
    | mk t e =>
      obtain ⟨hinv, outcomes, hdrained, ⟨rfl, hnone⟩ | ⟨k, arrays', later, err, rfl, hlater⟩⟩ :=
        drainLoop_spec h rfl hdrain
      · refine ⟨hinv.report, commits outcomes ++ [.reported t.unreported], ?_, ?_, fun key => ?_,
          nofun, nofun, nofun⟩
        · show t.history ++ [.reported t.unreported] = _
          rw [hdrained.history, append_assoc]
          rfl
        · intro d
          rw [mem_append, mem_singleton]
          constructor
          · rintro (hmem | heq)
            · exact absurd hmem not_reported_mem_commits
            · rw [Item.reported.inj heq]
          · intro heq
            rw [Returned.outcomes.inj (Except.ok.inj heq)]
            exact .inr rfl
        · show t.pending.get? key ≠ none ↔ _
          rw [hdrained.get?_ne_none key]
          constructor
          · rintro ⟨hpending, hnot⟩
            refine ⟨hpending, fun outcome hmem => ?_, nofun⟩
            rcases mem_append.mp hmem with hmem | hmem
            · exact hnot outcome (mem_commits.mp hmem)
            · cases mem_singleton.mp hmem
          · rintro ⟨hpending, hnot, -⟩
            exact ⟨hpending, fun outcome hmem =>
              hnot outcome (mem_append_left _ (mem_commits.mpr hmem))⟩
      · exact meets_raised rfl hinv nofun rfl hdrained hlater

/-- **The step lemma.** -/
theorem call_spec (h : Inv s) (call : Call K A V I O E) :
    Meets s call (s.call flushEvery pointer call) := by
  cases call with
  | stage key arrays attrs info accepted incomplete answer =>
    exact stage_spec h key arrays attrs info accepted incomplete answer
  | take key => exact take_spec h key
  | drain incomplete answer => exact drain_spec h incomplete answer

theorem inv_of_reachable
    (h : (machine flushEvery pointer : Machine _ (Call K A V I O E)).Reachable s) : Inv s := by
  refine h.invariant ?_ ?_
  · rintro s rfl
    exact inv_new
  · intro s call t hs _ hstep
    obtain rfl := Option.some.inj hstep
    exact (call_spec hs call).1

/-- **Every outcome is reported once.**  After any calls, returned or raised: each explicit drain
that returned gave the keys committed since the one before, each with its last outcome, and what is
to be reported next is what was committed since the last.  In a call a key leaves the buffers when
its own commit returns or it is taken, and where a commit raises, the buffers are left from its key
on. -/
theorem durable_outcomes
    (h : (machine flushEvery pointer : Machine _ (Call K A V I O E)).Reachable s) :
    Reported s.history ∧ (∀ key, s.unreported.get? key = lastOutcome key (openWindow s.history)) ∧
      ∀ call : Call K A V I O E, ∃ items, Accounted s call (s.call flushEvery pointer call).1
        (s.call flushEvery pointer call).2 items := by
  have hinv := inv_of_reachable h
  exact ⟨hinv.reported, hinv.unreported, fun call => (call_spec hinv call).2⟩

end Invariant

/-! ### A commit that raises, and is tried again -/

namespace TwoKeys

def commitAll : Nat → Payload Unit Unit Unit → Except Unit Nat :=
  fun _ payload => .ok payload.arrays.entries.length

def refuseTwo : Nat → Payload Unit Unit Unit → Except Unit Nat :=
  fun key payload => if key = 2 then .error () else commitAll key payload

/-- The second `stage` starts a drain that commits the first key and fails at the second, which
the explicit drain commits; it reports both. -/
def calls : List (Call Nat Unit Unit Unit Nat Unit) :=
  [.stage 1 [("a", ())] [] () true false commitAll,
    .stage 2 [("a", ()), ("b", ())] [] () true false refuseTwo, .drain false commitAll]

theorem durable_outcomes_calls :
    ∃ s, (machine 2 []).run Sink.new calls = some s ∧ s.pending.entries = [] ∧
      ∃ before outcomes, s.history = before ++ [.reported outcomes] ∧
        outcomes.entries = [(1, 1), (2, 2)] ∧ openWindow before = [(1, 1), (2, 2)] ∧
        Reported s.history := by
  cases hrun : (machine 2 []).run Sink.new calls with
  | none => cases hrun
  | some s =>
    have hreported := (durable_outcomes (Machine.reachable_of_run rfl hrun)).1
    obtain rfl := Option.some.inj hrun
    exact ⟨_, rfl, rfl, [.committed 1 1, .committed 2 2], _, rfl, rfl, rfl, hreported⟩

end TwoKeys

end Xtrax.DurableDrain
