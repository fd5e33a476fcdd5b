import Xtrax.Dict
import Xtrax.Machine

/-!
# The value cache of a memoised function

`_MemoCore` keeps its cache and its counters behind one lock, but a call takes and gives the lock
several times: the function itself runs unlocked, and so does the recomputation of a spot check.
The machine below has one counter for each running call, and its events let the calls' locked
sections, and the unlocked work between them, happen in any order.

`stats.bytes_cached` is meant to be the bytes of the ready entries.  Two steps do not keep it: a
store that replaces a ready entry of its key, and a hit that makes an entry ready.

The screening tables are left out: they have entries of their own, and the cache is not in them.
-/

namespace Xtrax.Memo

open Dict

open Option

open Interleaving

/-- The fields of `MemoPolicy` the cache looks at, for a policy `_MemoCore` accepts. -/
structure Policy where
  maxEntries : Nat := 128
  spotCheckEvery : Int := 0
  copyOnReturn : Bool := false
  blockOnMiss : Bool := true
  maxEntries_pos : 1 ≤ maxEntries := by decide

/-- What the cache knows of the values: `_entry_bytes`, and whether a spot check takes a fresh value
for the cached one. -/
structure Values (V : Type) where
  entryBytes : V → Nat
  agree : V → V → Bool

structure Entry (V : Type) where
  value : V
  ready : Bool
  deriving DecidableEq

/-- `MemoStats`, the seconds aside. -/
structure Stats where
  hits : Nat := 0
  misses : Nat := 0
  evictions : Nat := 0
  bytesCached : Int := 0
  lastHitAge : Nat := 0
  calls : Nat := 0
  spotCheckMismatches : Nat := 0
  deriving DecidableEq

/-- Where a call is. -/
inductive Pc (K V : Type)
  /-- Not called yet, or finished. -/
  | idle
  /-- Before the lock under which a poisoned cache is refused. -/
  | called
  /-- Before `_resolve_flat` and `build_key`, which run unlocked. -/
  | resolving
  /-- Before the lock under which an impurity error is latched. -/
  | latching
  /-- Before the lock under which the key is looked up. -/
  | lookingUp (key : K)
  /-- A miss, before the unlocked `self.stats.misses += 1`. -/
  | missed (key : K)
  /-- `self.stats.misses` is read and not yet written. -/
  | counting (key : K) (misses : Nat)
  /-- Before the unlocked run of the function. -/
  | computing (key : K)
  /-- Before the lock under which the entry is stored. -/
  | storing (key : K) (entry : Entry V)
  /-- Before the first lock of a spot check. -/
  | spotChecking (key : K)
  /-- Before the unlocked recomputation of a spot check. -/
  | recomputing (key : K) (cached : V)
  /-- Before the second lock of a spot check. -/
  | judging (key : K) (ok : Bool)
  deriving DecidableEq

/-- `_MemoCore`, with its running calls. -/
structure Core (C K V : Type) where
  cache : Dict K (Entry V)
  stats : Stats
  latched : Bool
  callsSinceWrap : Nat
  pc : C → Pc K V

/-- What resolving the signature and building the key end in. -/
inductive Resolution (K : Type)
  | key (key : K)
  /-- `_resolve_flat` raises `MemoImpurityError`. -/
  | impure
  | raised

/-- What `_finalize_hit` ends in. -/
inductive Finalization
  | done
  | notReady
  | notCopied
  deriving DecidableEq

inductive Event (C K V : Type)
  /-- The latch is checked and a call counted. -/
  | call (c : C)
  | resolve (c : C) (outcome : Resolution K)
  | lookUp (c : C) (outcome : Finalization)
  /-- The function returns a value, or raises. -/
  | compute (c : C) (value : Option V)
  | recompute (c : C) (fresh : Option V)
  /-- A step of the call that asks nothing of the environment. -/
  | advance (c : C)
  | reset
  | rewrap

namespace Policy

/-- `do_spot`, for the call of this number. -/
def doSpot (P : Policy) (callNumber : Nat) : Bool :=
  0 < P.spotCheckEvery && callNumber % P.spotCheckEvery == 0

/-- `_finalize_hit`: the entry afterwards, and whether a value is returned. -/
def finalizeHit {V : Type} (P : Policy) (entry : Entry V) : Finalization → Option (Entry V × Bool)
  | .done => some ({ entry with ready := true }, true)
  | .notReady => if entry.ready then none else some (entry, false)
  | .notCopied => if P.copyOnReturn then some ({ entry with ready := true }, false) else none

end Policy

variable {C K V : Type}

/-- The bytes an entry is counted with. -/
def Values.readyBytes (v : Values V) (entry : Entry V) : Nat :=
  if entry.ready then v.entryBytes entry.value else 0

namespace Core

def goto [DecidableEq C] (m : Core C K V) (c : C) (pc : Pc K V) : Core C K V :=
  { m with pc := Function.update m.pc c pc }

/-- The body of the eviction loop: the oldest entry goes. -/
def evictOldest (v : Values V) (m : Core C K V) : Core C K V :=
  match m.cache.popFirst with
  | none => m
  | some ((_, evicted), rest) =>
    { m with
      cache := rest
      stats := { m.stats with
        evictions := m.stats.evictions + 1
        bytesCached := m.stats.bytesCached - v.readyBytes evicted } }

/-- `while len(self.cache) >= self.policy.max_entries`, at most so many times. -/
def evictLoop (P : Policy) (v : Values V) : Nat → Core C K V → Core C K V
  | 0, m => m
  | fuel + 1, m =>
    if P.maxEntries ≤ m.cache.entries.length then evictLoop P v fuel (m.evictOldest v) else m

def evict (P : Policy) (v : Values V) (m : Core C K V) : Core C K V :=
  evictLoop P v m.cache.entries.length m

def countCall (m : Core C K V) : Core C K V :=
  { m with stats := { m.stats with calls := m.stats.calls + 1 } }

variable [DecidableEq K]

/-- The end of `_store`. -/
def put (v : Values V) (key : K) (entry : Entry V) (m : Core C K V) : Core C K V :=
  { m with
    cache := m.cache.set key entry
    stats := { m.stats with bytesCached := m.stats.bytesCached + v.readyBytes entry } }

def store (P : Policy) (v : Values V) (key : K) (entry : Entry V) (m : Core C K V) : Core C K V :=
  (m.evict P v).put v key entry

variable [DecidableEq C]

/-- A hit on `key`, whose entry `_finalize_hit` leaves as `entry`. -/
def hit (key : K) (entry : Entry V) (m : Core C K V) : Core C K V :=
  { m with
    cache := (m.cache.moveToEnd key).set key entry
    stats := { m.stats with hits := m.stats.hits + 1, lastHitAge := 0 } }

/-- The locked lookup of `call`. -/
def lookUp (P : Policy) (m : Core C K V) (c : C) (key : K) (outcome : Finalization) :
    Option (Core C K V) :=
  match m.cache.get? key with
  | none => some (m.goto c (.missed key))
  | some entry =>
    (P.finalizeHit entry outcome).map fun (entry, returned) =>
      if !returned then (m.hit key entry).goto c .idle
      else if P.doSpot (m.stats.calls + 1) then (m.hit key entry).goto c (.spotChecking key)
      else (m.hit key entry).countCall.goto c .idle

/-- A mismatch: the entry goes, and calls are refused until `reset`. -/
def mismatch (v : Values V) (key : K) (m : Core C K V) : Core C K V :=
  { m with
    cache := m.cache.erase key
    stats := { m.stats with
      spotCheckMismatches := m.stats.spotCheckMismatches + 1
      bytesCached := m.stats.bytesCached - ((m.cache.get? key).map v.readyBytes).getD 0 } }

/-- The next step of a call where it asks nothing of the environment. -/
def advance (P : Policy) (v : Values V) (m : Core C K V) (c : C) : Option (Core C K V) :=
  match m.pc c with
  | .called =>
    if 0 < m.stats.spotCheckMismatches then some (m.goto c .idle) else some (m.goto c .resolving)
  | .latching => some ({ m with latched := true }.goto c .idle)
  | .missed key => some (m.goto c (.counting key m.stats.misses))
  | .counting key misses =>
    some ({ m with stats := { m.stats with misses := misses + 1 } }.goto c (.computing key))
  | .storing key entry => some ((m.store P v key entry).countCall.goto c .idle)
  | .spotChecking key =>
    if 0 < m.stats.spotCheckMismatches then some (m.goto c .idle)
    else
      match m.cache.get? key with
      | none => some (m.countCall.goto c .idle)
      | some entry => some (m.goto c (.recomputing key entry.value))
  | .judging key ok =>
    if ok then some (m.countCall.goto c .idle)
    else some ((m.countCall.mismatch v key).goto c .idle)
  | _ => none

def step (P : Policy) (v : Values V) (m : Core C K V) : Event C K V → Option (Core C K V)
  | .call c =>
    match m.pc c with
    | .idle =>
      if m.latched then some m
      else some ({ m with callsSinceWrap := m.callsSinceWrap + 1 }.goto c .called)
    | _ => none
  | .resolve c outcome =>
    match m.pc c with
    | .resolving =>
      match outcome with
      | .key key => some (m.goto c (.lookingUp key))
      | .impure => some (m.goto c .latching)
      | .raised => some (m.goto c .idle)
    | _ => none
  | .lookUp c outcome =>
    match m.pc c with
    | .lookingUp key => m.lookUp P c key outcome
    | _ => none
  | .compute c value =>
    match m.pc c with
    | .computing key =>
      match value with
      | none => some (m.goto c .idle)
      | some value => some (m.goto c (.storing key ⟨value, P.blockOnMiss⟩))
    | _ => none
  | .recompute c fresh =>
    match m.pc c with
    | .recomputing key cached =>
      match fresh with
      | none => some (m.goto c .idle)
      | some fresh => some (m.goto c (.judging key (v.agree cached fresh)))
    | _ => none
  | .advance c => m.advance P v c
  | .reset => some { m with stats := { m.stats with spotCheckMismatches := 0 } }
  | .rewrap => some { m with latched := false }

/-- `_MemoCore.__init__`. -/
def start : Core C K V where
  cache := ∅
  stats := {}
  latched := false
  callsSinceWrap := 0
  pc _ := .idle

end Core

/-- The cache of one wrapped function. -/
def machine [DecidableEq C] [DecidableEq K] (P : Policy) (v : Values V) : Machine (Core C K V) (Event C K V) where
  init m := m = Core.start
  step := Core.step P v

/-! ## The count -/

/-- What is to hold whenever no call holds the lock. -/
structure Accounted (P : Policy) (v : Values V) (m : Core C K V) : Prop where
  entries : m.cache.entries.length ≤ P.maxEntries
  bytes : m.stats.bytesCached = m.cache.total v.readyBytes

instance (P : Policy) (v : Values V) : DecidablePred (Accounted P v : Core C K V → Prop) := fun m =>
  decidable_of_iff
    (m.cache.entries.length ≤ P.maxEntries ∧ m.stats.bytesCached = m.cache.total v.readyBytes)
    ⟨fun h => ⟨h.1, h.2⟩, fun h => ⟨h.1, h.2⟩⟩

namespace Core

/-- How far the count is above the bytes of the ready entries. -/
def drift (v : Values V) (m : Core C K V) : Int :=
  m.stats.bytesCached - m.cache.total v.readyBytes

variable {P : Policy} {v : Values V} {m t : Core C K V} {key : K} {c : C}

@[simp] theorem goto_cache [DecidableEq C] (pc : Pc K V) : (m.goto c pc).cache = m.cache := rfl
@[simp] theorem goto_stats [DecidableEq C] (pc : Pc K V) : (m.goto c pc).stats = m.stats := rfl
@[simp] theorem countCall_cache : m.countCall.cache = m.cache := rfl
@[simp] theorem drift_goto [DecidableEq C] (pc : Pc K V) : (m.goto c pc).drift v = m.drift v := rfl
@[simp] theorem drift_countCall : m.countCall.drift v = m.drift v := rfl

/-! ### The store -/

theorem drift_evictOldest : (m.evictOldest v).drift v = m.drift v := by
  unfold evictOldest
  split
  · rfl
  · rename_i key evicted rest hpop
    simp only [drift, total, entries_popFirst hpop, List.map_cons, List.sum_cons]
    omega

theorem length_evictOldest :
    (m.evictOldest v).cache.entries.length = m.cache.entries.length - 1 := by
  unfold evictOldest
  split
  · rename_i hpop
    rw [popFirst_eq_none hpop]
    rfl
  · rename_i hpop
    rw [entries_popFirst hpop]
    rfl

theorem drift_evictLoop (fuel : Nat) : (m.evictLoop P v fuel).drift v = m.drift v := by
  induction fuel generalizing m with
  | zero => rfl
  | succ fuel ih =>
    rw [evictLoop]
    split
    · rw [ih, drift_evictOldest]
    · rfl

theorem length_evictLoop {fuel : Nat} (h : m.cache.entries.length ≤ fuel) :
    (m.evictLoop P v fuel).cache.entries.length < P.maxEntries := by
  induction fuel generalizing m with
  | zero =>
    have hpos := P.maxEntries_pos
    rw [evictLoop]
    omega
  | succ fuel ih =>
    rw [evictLoop]
    split
    · refine ih ?_
      rw [length_evictOldest]
      omega
    · omega

theorem evictLoop_below {fuel : Nat} (h : m.cache.entries.length < P.maxEntries) :
    m.evictLoop P v fuel = m := by
  cases fuel with
  | zero => rfl
  | succ fuel => rw [evictLoop, if_neg (by omega)]

variable [DecidableEq K]

/-- The entry a store replaces: the one under its key, unless that is the oldest of a full cache. -/
def replaced (P : Policy) (m : Core C K V) (key : K) : Option (Entry V) :=
  if P.maxEntries ≤ m.cache.entries.length ∧ (m.cache.entries.head?.map (·.1)) = some key then none
  else m.cache.get? key

theorem get?_evict (h : m.cache.entries.length ≤ P.maxEntries) :
    (m.evict P v).cache.get? key = m.replaced P key := by
  have hpos := P.maxEntries_pos
  unfold evict replaced
  by_cases hfull : P.maxEntries ≤ m.cache.entries.length
  · -- full: one eviction
    obtain ⟨fuel, hfuel⟩ : ∃ fuel, m.cache.entries.length = fuel + 1 :=
      ⟨m.cache.entries.length - 1, by omega⟩
    have hone : m.evictLoop P v m.cache.entries.length = m.evictOldest v := by
      rw [hfuel, evictLoop, if_pos hfull, evictLoop_below]
      rw [length_evictOldest]
      omega
    rw [hone]
    unfold evictOldest
    split
    · rename_i hpop
      rw [popFirst_eq_none hpop] at hfuel
      cases hfuel
    · rename_i oldest evicted rest hpop
      rw [get?_popFirst hpop, entries_popFirst hpop]
      by_cases hkey : oldest = key
      · rw [if_pos hkey, if_pos ⟨entries_popFirst hpop ▸ hfull, by rw [← hkey]; rfl⟩]
      · rw [if_neg hkey, if_neg (fun h => hkey (some.inj h.2))]
  · rw [evictLoop_below (by omega), if_neg (fun h => hfull h.1)]

theorem drift_put (entry : Entry V) :
    (m.put v key entry).drift v = m.drift v + ((m.cache.get? key).map v.readyBytes).getD 0 := by
  have htotal := total_set (d := m.cache) (k := key) (v := entry) v.readyBytes
  simp only [drift, put]
  omega

theorem drift_store (h : m.cache.entries.length ≤ P.maxEntries) (entry : Entry V) :
    (m.store P v key entry).drift v = m.drift v + ((m.replaced P key).map v.readyBytes).getD 0 := by
  rw [store, drift_put, get?_evict h, evict, drift_evictLoop]

theorem length_store (entry : Entry V) :
    (m.store P v key entry).cache.entries.length ≤ P.maxEntries := by
  have hbelow : (m.evict P v).cache.entries.length < P.maxEntries := length_evictLoop (Nat.le_refl _)
  have hset : (m.store P v key entry).cache.entries.length ≤ _ := length_set_le
  exact Nat.le_trans hset hbelow

/-! ### The other steps -/

/-- The bytes an event counts though they leave the cache, or, where negative, does not count though
they become ready. -/
def miscount (P : Policy) (v : Values V) (m : Core C K V) : Event C K V → Int
  | .advance c =>
    match m.pc c with
    | .storing key _ => ((m.replaced P key).map v.readyBytes).getD 0
    | _ => 0
  | .lookUp c outcome =>
    match m.pc c with
    | .lookingUp key =>
      match m.cache.get? key with
      | some entry =>
        if entry.ready || outcome == .notReady then 0 else -(v.entryBytes entry.value : Int)
      | none => 0
    | _ => 0
  | _ => 0

theorem drift_mismatch : (m.mismatch v key).drift v = m.drift v := by
  have htotal := total_erase (d := m.cache) (k := key) v.readyBytes
  simp only [drift, mismatch]
  omega

theorem length_mismatch : (m.mismatch v key).cache.entries.length ≤ m.cache.entries.length :=
  length_erase_le

theorem readyBytes_finalizeHit {entry entry' : Entry V} {outcome : Finalization} {returned : Bool}
    (h : P.finalizeHit entry outcome = some (entry', returned)) :
    (v.readyBytes entry' : Int) = v.readyBytes entry -
      if entry.ready || outcome == .notReady then 0 else -(v.entryBytes entry.value : Int) := by
  have hready : (v.readyBytes { entry with ready := true } : Int) = v.readyBytes entry -
      if entry.ready then 0 else -(v.entryBytes entry.value : Int) := by
    unfold Values.readyBytes
    cases entry.ready <;> simp
  cases outcome with
  | done =>
    obtain ⟨rfl, -⟩ := Prod.mk.inj (some.inj h)
    simpa using hready
  | notReady =>
    obtain ⟨-, h⟩ := ite_none_left_eq_some.mp h
    obtain ⟨rfl, -⟩ := Prod.mk.inj (some.inj h)
    simp
  | notCopied =>
    obtain ⟨-, h⟩ := ite_none_right_eq_some.mp h
    obtain ⟨rfl, -⟩ := Prod.mk.inj (some.inj h)
    simpa using hready

theorem drift_hit {entry : Entry V} (hkey : m.cache.get? key = some entry) (entry' : Entry V) :
    (m.hit key entry').drift v = m.drift v + v.readyBytes entry - v.readyBytes entry' := by
  have htotal := total_set (d := m.cache.moveToEnd key) (k := key) (v := entry') v.readyBytes
  rw [get?_moveToEnd_self, total_moveToEnd, hkey] at htotal
  simp only [map_some, getD_some] at htotal
  simp only [drift, hit]
  omega

theorem length_hit {entry : Entry V} (hkey : m.cache.get? key = some entry) (entry' : Entry V) :
    (m.hit key entry').cache.entries.length = m.cache.entries.length := by
  have hthere : (m.cache.moveToEnd key).get? key ≠ none := by
    rw [get?_moveToEnd_self, hkey]
    exact some_ne_none entry
  exact (length_set_of_mem hthere).trans length_moveToEnd

variable [DecidableEq C]

theorem lookUp_spec {outcome : Finalization} (hpc : m.pc c = .lookingUp key)
    (h : m.lookUp P c key outcome = some t) :
    t.cache.entries.length = m.cache.entries.length ∧
      t.drift v = m.drift v + m.miscount P v (.lookUp c outcome) := by
  simp only [miscount, hpc]
  unfold lookUp at h
  split at h
  · rename_i hnone
    obtain rfl := some.inj h
    simp [hnone]
  · rename_i entry hsome
    obtain ⟨⟨entry', returned⟩, hfinal, ht⟩ := map_eq_some_iff.mp h
    have hbytes := readyBytes_finalizeHit (v := v) hfinal
    have hdrift := drift_hit (v := v) hsome entry'
    have hlength := length_hit hsome entry'
    simp only [hsome]
    -- the three ends of a hit differ in the counter of the call alone
    have hend : t.cache = (m.hit key entry').cache ∧ t.drift v = (m.hit key entry').drift v := by
      rw [← ht]
      dsimp only
      split
      · exact ⟨rfl, rfl⟩
      · split
        · exact ⟨rfl, rfl⟩
        · exact ⟨rfl, rfl⟩
    rw [hend.1, hend.2]
    exact ⟨hlength, by omega⟩

theorem advance_spec (hlen : m.cache.entries.length ≤ P.maxEntries) (h : m.advance P v c = some t) :
    t.cache.entries.length ≤ P.maxEntries ∧
      t.drift v = m.drift v + m.miscount P v (.advance c) := by
  unfold advance at h
  unfold miscount
  split at h
  · rename_i hpc
    simp only [hpc]
    split at h
    all_goals
      obtain rfl := some.inj h
      exact ⟨hlen, (Int.add_zero _).symm⟩
  · rename_i hpc
    obtain rfl := some.inj h
    simp only [hpc]
    exact ⟨hlen, (Int.add_zero _).symm⟩
  · rename_i hpc
    obtain rfl := some.inj h
    simp only [hpc]
    exact ⟨hlen, (Int.add_zero _).symm⟩
  · rename_i hpc
    obtain rfl := some.inj h
    simp only [hpc]
    exact ⟨hlen, (Int.add_zero _).symm⟩
  · rename_i key entry hpc
    obtain rfl := some.inj h
    simp only [hpc, drift_goto, drift_countCall]
    exact ⟨length_store entry, drift_store hlen entry⟩
  · rename_i key hpc
    simp only [hpc]
    split at h
    · obtain rfl := some.inj h
      exact ⟨hlen, (Int.add_zero _).symm⟩
    · split at h
      all_goals
        obtain rfl := some.inj h
        exact ⟨hlen, (Int.add_zero _).symm⟩
  · rename_i key ok hpc
    simp only [hpc]
    split at h
    · obtain rfl := some.inj h
      exact ⟨hlen, (Int.add_zero _).symm⟩
    · obtain rfl := some.inj h
      refine ⟨Nat.le_trans (length_mismatch (v := v)) hlen, ?_⟩
      rw [drift_goto, drift_mismatch, drift_countCall, Int.add_zero]
  · cases h

/-- **The step lemma.**  No event lets the cache outgrow its bound, and the count moves away from the
cache by the bytes the event miscounts. -/
theorem step_spec {a : Event C K V} (hlen : m.cache.entries.length ≤ P.maxEntries)
    (h : m.step P v a = some t) :
    t.cache.entries.length ≤ P.maxEntries ∧ t.drift v = m.drift v + m.miscount P v a := by
  have hsame (hcache : t.cache = m.cache) (hdrift : t.drift v = m.drift v) :
      t.cache.entries.length ≤ P.maxEntries ∧ t.drift v = m.drift v + 0 := by
    rw [hcache, hdrift]
    exact ⟨hlen, (Int.add_zero _).symm⟩
  cases a with
  | call c =>
    simp only [step] at h
    split at h
    · split at h
      all_goals
        obtain rfl := some.inj h
        exact hsame rfl rfl
    · cases h
  | resolve c outcome =>
    simp only [step] at h
    split at h
    · split at h
      all_goals
        obtain rfl := some.inj h
        exact hsame rfl rfl
    · cases h
  | lookUp c outcome =>
    simp only [step] at h
    split at h
    · rename_i key hpc
      obtain ⟨hlength, hdrift⟩ := lookUp_spec (v := v) hpc h
      exact ⟨hlength ▸ hlen, hdrift⟩
    · cases h
  | compute c value =>
    simp only [step] at h
    split at h
    · split at h
      all_goals
        obtain rfl := some.inj h
        exact hsame rfl rfl
    · cases h
  | recompute c fresh =>
    simp only [step] at h
    split at h
    · split at h
      all_goals
        obtain rfl := some.inj h
        exact hsame rfl rfl
    · cases h
  | advance c => exact advance_spec hlen h
  | reset =>
    obtain rfl := some.inj h
    exact hsame rfl rfl
  | rewrap =>
    obtain rfl := some.inj h
    exact hsame rfl rfl

end Core

variable {P : Policy} {v : Values V} {m : Core C K V} {a : Event C K V}

theorem accounted_iff (h : m.cache.entries.length ≤ P.maxEntries) :
    Accounted P v m ↔ m.drift v = 0 := by
  unfold Core.drift
  exact ⟨fun hm => by rw [hm.bytes]; omega, fun hm => ⟨h, by omega⟩⟩

theorem accounted_start : Accounted P v (Core.start : Core C K V) := ⟨Nat.zero_le _, rfl⟩

variable [DecidableEq K]

/-- No store replaces a ready entry that has bytes, and no hit makes an entry that has bytes
ready. -/
def Kept (P : Policy) (v : Values V) (m : Core C K V) : Event C K V → Prop
  | .advance c => ∀ key entry old, m.pc c = .storing key entry → m.replaced P key = some old →
      v.readyBytes old = 0
  | .lookUp c outcome => ∀ key entry, m.pc c = .lookingUp key → m.cache.get? key = some entry →
      entry.ready = false → outcome ≠ .notReady → v.entryBytes entry.value = 0
  | _ => True

theorem kept_iff : Kept P v m a ↔ m.miscount P v a = 0 := by
  cases a with
  | advance c =>
    simp only [Kept, Core.miscount]
    cases hpc : m.pc c with
    | storing key entry =>
      dsimp only
      cases hold : m.replaced P key with
      | none =>
        refine iff_of_true ?_ rfl
        rintro key' entry' old hkey hnone
        obtain ⟨rfl, -⟩ := Pc.storing.inj hkey
        exact nomatch hold.symm.trans hnone
      | some old =>
        rw [map_some, getD_some, Int.natCast_eq_zero]
        constructor
        · intro h
          exact h key entry old rfl hold
        · rintro h key' entry' old' hkey hold'
          obtain ⟨rfl, -⟩ := Pc.storing.inj hkey
          obtain rfl := some.inj (hold.symm.trans hold')
          exact h
    | _ => simp
  | lookUp c outcome =>
    simp only [Kept, Core.miscount]
    cases hpc : m.pc c with
    | lookingUp key =>
      dsimp only
      cases hold : m.cache.get? key with
      | none =>
        refine iff_of_true ?_ rfl
        rintro key' entry' hkey hnone
        obtain rfl := Pc.lookingUp.inj hkey
        exact nomatch hold.symm.trans hnone
      | some entry =>
        dsimp only
        by_cases hend : (entry.ready || outcome == .notReady) = true
        · rw [if_pos hend]
          refine iff_of_true ?_ rfl
          rintro key' entry' hkey hentry hready hdone
          obtain rfl := Pc.lookingUp.inj hkey
          obtain rfl := some.inj (hold.symm.trans hentry)
          simp [hready, hdone] at hend
        · rw [if_neg hend]
          simp only [Bool.or_eq_true, beq_iff_eq, not_or, Bool.not_eq_true] at hend
          constructor
          · intro h
            have hbytes := h key entry rfl hold hend.1 hend.2
            omega
          · rintro h key' entry' hkey hentry - -
            obtain rfl := Pc.lookingUp.inj hkey
            obtain rfl := some.inj (hold.symm.trans hentry)
            omega
    | _ => simp
  | _ => exact iff_of_true trivial rfl

instance : ∀ (m : Core C K V) (a : Event C K V), Decidable (Kept P v m a) :=
  fun _ _ => decidable_of_iff _ kept_iff.symm

variable [DecidableEq C]

/-- **The accounting of the cache.**  No run lets the cache outgrow `max_entries`, and the runs that
keep `bytes_cached` at the bytes of the ready entries are those whose stores replace no ready entry
and whose hits make none ready. -/
theorem accounting (P : Policy) (v : Values V) (events : List (Event C K V)) (t : Core C K V)
    (hrun : (machine P v).run Core.start events = some t) :
    t.cache.entries.length ≤ P.maxEntries ∧
      ((machine P v).Always (Accounted P v) Core.start events ↔
        (machine P v).Allowed (Kept P v) Core.start events) := by
  constructor
  · refine Machine.run_invariant (I := fun m => m.cache.entries.length ≤ P.maxEntries) ?_
      (Nat.zero_le _) hrun
    intro m a t hlen hstep
    exact (Core.step_spec (v := v) hlen hstep).1
  · refine Machine.always_iff_allowed_of_run
      (J := fun m => m.cache.entries.length ≤ P.maxEntries) ?_ (Nat.zero_le _) accounted_start hrun
    intro m a t hlen hstep
    obtain ⟨hlen', hdrift⟩ := Core.step_spec (v := v) hlen hstep
    refine ⟨hlen', fun hm => ?_⟩
    rw [accounted_iff hlen', kept_iff, hdrift, (accounted_iff hlen).mp hm, Int.zero_add]

namespace OneSlot

/-- Room for one entry, and every second call is checked. -/
def policy : Policy where
  maxEntries := 1
  spotCheckEvery := 2

def sizes : Values Nat where
  entryBytes := id
  agree a b := a == b

/-- A whole call of `c` that misses `key` and computes `value`. -/
def miss (c : Bool) (key : Nat) (value : Nat) : List (Event Bool Nat Nat) :=
  [.call c, .advance c, .resolve c (.key key), .lookUp c .done, .advance c, .advance c,
    .compute c (some value), .advance c]

/-- A miss, a hit whose spot check fails, and two misses one after the other. -/
def events : List (Event Bool Nat Nat) :=
  miss true 1 8 ++
    [.call true, .advance true, .resolve true (.key 1), .lookUp true .done, .advance true,
      .recompute true (some 7), .advance true, .reset] ++
    miss false 1 8 ++ miss true 2 16

theorem accounting_events :
    ∃ t, (machine policy sizes).run Core.start events = some t ∧ t.stats.evictions = 1 ∧
      (machine policy sizes).Always (Accounted policy sizes) Core.start events := by
  have hallowed : (machine policy sizes).Allowed (Kept policy sizes) Core.start events := by decide
  cases hrun : (machine policy sizes).run Core.start events with
  | none => exact absurd hrun (by decide)
  | some t =>
    have hevictions : ((machine policy sizes).run Core.start events).map (·.stats.evictions) =
        some 1 := by decide
    rw [hrun] at hevictions
    exact ⟨t, rfl, Option.some.inj hevictions, (accounting policy sizes events t hrun).2.mpr hallowed⟩

/-- Two calls that miss one key before either has stored it: the second store counts the bytes
again. -/
theorem two_misses_counted_twice :
    ¬∀ (P : Policy) (v : Values Nat) (events : List (Event Bool Nat Nat)),
      (machine P v).Always (Accounted P v) Core.start events := by
  intro h
  have hruns := h { maxEntries := 2 } sizes
    ([.call true, .call false, .advance true, .advance false, .resolve true (.key 1),
      .resolve false (.key 1), .lookUp true .done, .lookUp false .done, .advance true,
      .advance true, .compute true (some 8), .advance true, .advance false, .advance false,
      .compute false (some 8), .advance false])
  revert hruns
  decide

end OneSlot

end Xtrax.Memo
