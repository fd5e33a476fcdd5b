import Mathlib.Data.List.Range
import Mathlib.Tactic.Ring

/-!
# Key streams

A key stream has one key for each global index, `fold_in(base_key, int32(index))`.  It is made at
once (`elementKeys`), or chunk by chunk over a plan (`makeChunkPlan`, `iterChunkKeys`).

The index vector is `int32`.  A sum in it wraps, a scalar that is added to it has to fit: the
start of the stream and the start of each chunk are such scalars, the indices after them are not.
-/

namespace Xtrax.KeyStream

open List

abbrev Int32Bits := BitVec 32

/-- What is used of `jax.random`; a seed that it refuses has no key. -/
structure Random (κ : Type) where
  key : Nat → Option κ
  foldIn : κ → Int32Bits → κ

/-- An integer seed, or a key. -/
inductive BaseKey (κ : Type)
  | seed (seed : Int)
  | key (key : κ)

inductive StreamError
  | negative (name : String) (value : Int)
  | seed (seed : Int)
  | startDoesNotFit (start : Int)
  | chunkSize (size : Int)
  deriving DecidableEq

structure ChunkSpan where
  start : Int
  count : Int
  deriving DecidableEq

section

variable {κ : Type} (random : Random κ)

def resolveBaseKey : BaseKey κ → Except StreamError κ
  | .key key => .ok key
  | .seed seed =>
    if seed < 0 then .error (.negative "seed" seed)
    else match random.key seed.toNat with
      | none => .error (.seed seed)
      | some key => .ok key

/-- `np.arange(count, dtype=np.int32)`. -/
def arange (count : Nat) : List Int32Bits := (List.range count).map (BitVec.ofNat 32)

/-- The scalar is an `int32`. -/
def Fits (scalar : Int) : Prop := -2147483648 ≤ scalar ∧ scalar < 2147483648

instance (scalar : Int) : Decidable (Fits scalar) := inferInstanceAs (Decidable (_ ∧ _))

/-- `vector + scalar`: an `OverflowError` when the scalar does not fit, and sums that wrap. -/
def addScalar (vector : List Int32Bits) (scalar : Int) : Option (List Int32Bits) :=
  if Fits scalar then some (vector.map (· + BitVec.ofInt 32 scalar)) else none

def elementKeys (baseKey : BaseKey κ) (start count : Int) : Except StreamError (List κ) :=
  if start < 0 then .error (.negative "start" start)
  else if count < 0 then .error (.negative "count" count)
  else match resolveBaseKey random baseKey with
    | .error e => .error e
    | .ok key => match addScalar (arange count.toNat) start with
      | none => .error (.startDoesNotFit start)
      | some sampleIndices => .ok (sampleIndices.map (random.foldIn key))

/-- The loop of `make_chunk_plan`, from `offset` on; the first argument is its fuel. -/
def spansFrom (count chunkSize start : Nat) : Nat → Nat → List ChunkSpan
  | 0, _ => []
  | fuel + 1, offset =>
    if offset < count then
      let n := min chunkSize (count - offset)
      ⟨(start + offset : Nat), n⟩ :: spansFrom count chunkSize start fuel (offset + n)
    else []

def makeChunkPlan (count chunkSize start : Int) : Except StreamError (List ChunkSpan) :=
  if count < 0 then .error (.negative "count" count)
  else if chunkSize < 1 then .error (.chunkSize chunkSize)
  else if start < 0 then .error (.negative "start" start)
  else .ok (spansFrom count.toNat chunkSize.toNat start.toNat count.toNat 0)

/-- `iter_chunk_keys`, taken to its end. -/
def iterChunkKeys (baseKey : BaseKey κ) :
    List ChunkSpan → Except StreamError (List (ChunkSpan × List κ))
  | [] => .ok []
  | span :: rest => do
    let keys ← elementKeys random baseKey span.start span.count
    let later ← iterChunkKeys baseKey rest
    return (span, keys) :: later

/-- The keys of a plan, concatenated. -/
def chunkedKeys (baseKey : BaseKey κ) (start count chunkSize : Int) :
    Except StreamError (List κ) := do
  let plan ← makeChunkPlan count chunkSize start
  let chunks ← iterChunkKeys random baseKey plan
  return chunks.flatMap Prod.snd

/-- A run that is stopped after `done` elements, and taken up again with another chunk size. -/
def resumedKeys (baseKey : BaseKey κ) (start count done chunkSize resumedSize : Int) :
    Except StreamError (List κ) := do
  let before ← chunkedKeys random baseKey start done chunkSize
  let after ← chunkedKeys random baseKey (start + done) (count - done) resumedSize
  return before ++ after

end

/-! ### What the routes give -/

section

variable {κ : Type} {random : Random κ} {baseKey : BaseKey κ} {key : κ}
variable {start count chunkSize : Nat}

/-- The key of every global index from `start` on. -/
def keysFrom (random : Random κ) (key : κ) (start count : Nat) : List κ :=
  (List.range' start count).map fun index => random.foldIn key (BitVec.ofNat 32 index)

theorem keysFrom_append (a b : Nat) :
    keysFrom random key start a ++ keysFrom random key (start + a) b =
      keysFrom random key start (a + b) := by
  rw [keysFrom, keysFrom, keysFrom, ← map_append, range'_append_1]

theorem not_negative (n : Nat) : ¬(n : Int) < 0 := Int.not_lt.mpr (Int.natCast_nonneg n)

theorem addScalar_ok {vector : List Int32Bits} (hstart : start < 2147483648) :
    addScalar vector start = some (vector.map (· + BitVec.ofNat 32 start)) := by
  have hfits : Fits start := by
    unfold Fits
    omega
  exact if_pos hfits

theorem addScalar_none {vector : List Int32Bits} (hstart : 2147483648 ≤ start) :
    addScalar vector start = none := by
  have hfits : ¬Fits start := by
    unfold Fits
    omega
  exact if_neg hfits

theorem elementKeys_ok (hkey : resolveBaseKey random baseKey = .ok key)
    (hstart : start < 2147483648) : elementKeys random baseKey start count = .ok (keysFrom random key start count) := by
  have hindex : ∀ i : Nat, BitVec.ofNat 32 i + BitVec.ofNat 32 start =
      BitVec.ofNat 32 (start + i) := by
    intro i
    rw [← BitVec.ofNat_add, Nat.add_comm]
  rw [elementKeys, if_neg (not_negative start), if_neg (not_negative count), hkey]
  rw [addScalar_ok hstart, Int.toNat_natCast]
  refine congrArg Except.ok ?_
  rw [keysFrom, arange, map_map, map_map, range'_eq_map_range, map_map]
  exact map_congr_left fun i _ => congrArg (random.foldIn key) (hindex i)

theorem elementKeys_error (hstart : 2147483648 ≤ start) :
    ∃ e, elementKeys random baseKey start count = .error e := by
  rw [elementKeys, if_neg (not_negative start), if_neg (not_negative count)]
  cases resolveBaseKey random baseKey with
  | error e => exact ⟨e, rfl⟩
  | ok key =>
    rw [addScalar_none hstart]
    exact ⟨.startDoesNotFit start, rfl⟩

theorem elementKeys_unresolved {e : StreamError} (hkey : resolveBaseKey random baseKey = .error e) :
    elementKeys random baseKey start count = .error e := by
  rw [elementKeys, if_neg (not_negative start), if_neg (not_negative count), hkey]

/-- The chunks of a plan start below `2 ^ 31`. -/
def StartsFit (start count chunkSize : Nat) : Prop :=
  ∀ j, j * chunkSize < count → start + j * chunkSize < 2147483648

theorem iterChunkKeys_ok (hchunk : 1 ≤ chunkSize)
    (hkey : resolveBaseKey random baseKey = .ok key) {fuel offset : Nat}
    (hfuel : count - offset ≤ fuel)
    (hfits : StartsFit (start + offset) (count - offset) chunkSize) :
    ∃ chunks, iterChunkKeys random baseKey (spansFrom count chunkSize start fuel offset) =
        .ok chunks ∧
      chunks.flatMap Prod.snd = keysFrom random key (start + offset) (count - offset) := by
  induction fuel generalizing offset with
  | zero =>
    refine ⟨[], rfl, ?_⟩
    rw [Nat.le_zero.mp hfuel]
    rfl
  | succ fuel ih =>
    by_cases hlt : offset < count
    · rw [spansFrom, if_pos hlt]
      have hfirst : start + offset < 2147483648 := by
        have hzero := hfits 0 (by omega)
        omega
      have hrest : StartsFit (start + (offset + min chunkSize (count - offset)))
          (count - (offset + min chunkSize (count - offset))) chunkSize := by
        intro j hj
        have hmin : min chunkSize (count - offset) = chunkSize := by
          by_contra hne
          omega
        rw [hmin] at hj ⊢
        have hnext := hfits (j + 1) (by rw [Nat.add_mul, Nat.one_mul]; omega)
        rw [Nat.add_mul, Nat.one_mul] at hnext
        omega
      obtain ⟨chunks, hchunks, hkeys⟩ := ih (by omega) hrest
      let n := min chunkSize (count - offset)
      refine ⟨(⟨(start + offset : Nat), n⟩, keysFrom random key (start + offset) n) :: chunks, ?_, ?_⟩
      · simp only [iterChunkKeys, elementKeys_ok hkey hfirst, hchunks]
        rfl
      · rw [flatMap_cons, hkeys, ← Nat.add_assoc, keysFrom_append]
        congr 1
        omega
    · rw [spansFrom, if_neg hlt]
      refine ⟨[], rfl, ?_⟩
      rw [Nat.sub_eq_zero_of_le (not_lt.mp hlt)]
      rfl

theorem iterChunkKeys_error (hchunk : 1 ≤ chunkSize) {fuel offset j : Nat}
    (hfuel : count - offset ≤ fuel) (hj : j * chunkSize < count - offset)
    (hlate : 2147483648 ≤ start + offset + j * chunkSize) :
    ∃ e, iterChunkKeys random baseKey (spansFrom count chunkSize start fuel offset) = .error e := by
  induction fuel generalizing offset j with
  | zero => omega
  | succ fuel ih =>
    have hlt : offset < count := by omega
    rw [spansFrom, if_pos hlt]
    cases hfirst : elementKeys random baseKey (start + offset : Nat)
        (min chunkSize (count - offset) : Nat) with
    | error e => exact ⟨e, by simp only [iterChunkKeys, hfirst]; rfl⟩
    | ok keys =>
      cases j with
      | zero =>
        obtain ⟨e, he⟩ : ∃ e, elementKeys random baseKey (start + offset : Nat)
            (min chunkSize (count - offset) : Nat) = .error e :=
          elementKeys_error (by omega)
        exact nomatch he.symm.trans hfirst
      | succ j =>
        rw [Nat.add_mul, Nat.one_mul] at hj hlate
        have hmin : min chunkSize (count - offset) = chunkSize := by omega
        have hj' : j * chunkSize < count - (offset + min chunkSize (count - offset)) := by omega
        obtain ⟨e, he⟩ := ih (by omega) hj' (by omega)
        exact ⟨e, by simp only [iterChunkKeys, hfirst, he]; rfl⟩

theorem iterChunkKeys_unresolved {e : StreamError}
    (hkey : resolveBaseKey random baseKey = .error e) {fuel offset : Nat}
    (hfuel : count - offset ≤ fuel) (hlt : offset < count) :
    iterChunkKeys random baseKey (spansFrom count chunkSize start fuel offset) = .error e := by
  cases fuel with
  | zero => omega
  | succ fuel =>
    rw [spansFrom, if_pos hlt]
    simp only [iterChunkKeys, elementKeys_unresolved hkey]
    rfl

theorem makeChunkPlan_eq (hchunk : 1 ≤ chunkSize) :
    makeChunkPlan count chunkSize start = .ok (spansFrom count chunkSize start count 0) := by
  have hsize : ¬(chunkSize : Int) < 1 := by omega
  rw [makeChunkPlan, if_neg (not_negative count), if_neg hsize, if_neg (not_negative start)]
  simp only [Int.toNat_natCast]

theorem chunkedKeys_ok (hchunk : 1 ≤ chunkSize) (hkey : resolveBaseKey random baseKey = .ok key)
    (hfits : StartsFit start count chunkSize) :
    chunkedKeys random baseKey start count chunkSize = .ok (keysFrom random key start count) := by
  have hplan := iterChunkKeys_ok hchunk hkey (Nat.le_refl (count - 0)) hfits
  obtain ⟨chunks, hchunks, hkeys⟩ := hplan
  rw [chunkedKeys, makeChunkPlan_eq hchunk]
  change (iterChunkKeys random baseKey (spansFrom count chunkSize start (count - 0) 0) >>=
    fun chunks => pure (chunks.flatMap Prod.snd)) = _
  rw [hchunks]
  exact congrArg Except.ok hkeys

theorem chunkedKeys_error (hchunk : 1 ≤ chunkSize) {j : Nat} (hj : j * chunkSize < count)
    (hlate : 2147483648 ≤ start + j * chunkSize) :
    ∃ e, chunkedKeys random baseKey start count chunkSize = .error e := by
  have hplan : ∃ e, iterChunkKeys random baseKey (spansFrom count chunkSize start count 0) =
      .error e := iterChunkKeys_error hchunk (Nat.sub_le _ _) hj hlate
  obtain ⟨e, he⟩ := hplan
  refine ⟨e, ?_⟩
  rw [chunkedKeys, makeChunkPlan_eq hchunk]
  change (iterChunkKeys random baseKey (spansFrom count chunkSize start count 0) >>=
    fun chunks => pure (chunks.flatMap Prod.snd)) = _
  rw [he]
  rfl

theorem chunkedKeys_unresolved (hchunk : 1 ≤ chunkSize) {e : StreamError}
    (hkey : resolveBaseKey random baseKey = .error e) (hcount : 1 ≤ count) :
    chunkedKeys random baseKey start count chunkSize = .error e := by
  have hplan : iterChunkKeys random baseKey (spansFrom count chunkSize start count 0) = .error e :=
    iterChunkKeys_unresolved hkey (Nat.sub_le _ _) hcount
  rw [chunkedKeys, makeChunkPlan_eq hchunk]
  change (iterChunkKeys random baseKey (spansFrom count chunkSize start count 0) >>=
    fun chunks => pure (chunks.flatMap Prod.snd)) = _
  rw [hplan]
  rfl

theorem chunkedKeys_zero (hchunk : 1 ≤ chunkSize) :
    chunkedKeys random baseKey start (0 : Nat) chunkSize = .ok [] := by
  rw [chunkedKeys, makeChunkPlan_eq hchunk]
  rfl

theorem startsFit_of_ok (hchunk : 1 ≤ chunkSize) {keys : List κ}
    (h : chunkedKeys random baseKey start count chunkSize = .ok keys) :
    StartsFit start count chunkSize := by
  intro j hj
  by_contra hlate
  obtain ⟨e, he⟩ : ∃ e, chunkedKeys random baseKey start count chunkSize = .error e :=
    chunkedKeys_error hchunk hj (not_lt.mp hlate)
  exact nomatch he.symm.trans h

theorem resumedKeys_eq {done resumedSize : Nat} (hdone : done ≤ count) :
    resumedKeys random baseKey start count done chunkSize resumedSize =
      (chunkedKeys random baseKey start done chunkSize >>= fun before =>
        chunkedKeys random baseKey (start + done : Nat) (count - done : Nat) resumedSize >>=
          fun after => pure (before ++ after)) := by
  rw [Int.natCast_add, Int.natCast_sub hdone]
  rfl

end

/-! ### Chunking and resumption -/

section

variable {κ : Type} (random : Random κ) (baseKey : BaseKey κ)

/-- The ways to get the keys of `[start, start + count)`: at once, with either chunk size, and with
one chunk size for the first `done` of them and the other for the rest. -/
def routes (start count done size otherSize : Nat) : List (Except StreamError (List κ)) :=
  [elementKeys random baseKey start count, chunkedKeys random baseKey start count size,
    chunkedKeys random baseKey start count otherSize,
    resumedKeys random baseKey start count done size otherSize]

/-- All routes give the keys of the global indices in order, or all raise. -/
def RoutesAgree (start count done size otherSize : Nat) : Prop :=
  (∃ key, resolveBaseKey random baseKey = .ok key ∧
    ∀ route ∈ routes random baseKey start count done size otherSize,
      route = .ok (keysFrom random key start count)) ∨
  ∀ route ∈ routes random baseKey start count done size otherSize, ∃ e, route = .error e

/-- If keys are made, no two global indices are hashed as the same `int32`. -/
def HashedApart (start count : Nat) : Prop :=
  (∃ keys, elementKeys random baseKey start count = .ok keys) →
    ∀ i < start + count, ∀ j < start + count, i ≠ j → BitVec.ofNat 32 i ≠ BitVec.ofNat 32 j

/-- There is something to do and all of it is refused, or nothing is: all chunks start at an
`int32` and no index comes round again. -/
def Consistent (start count done size otherSize : Nat) : Prop :=
  (1 ≤ count ∧ ((∃ e, resolveBaseKey random baseKey = .error e) ∨ 2147483648 ≤ start)) ∨
  ((∃ key, resolveBaseKey random baseKey = .ok key) ∧ start < 2147483648 ∧
    start + count ≤ 4294967296 ∧ StartsFit start count size ∧ StartsFit start count otherSize ∧
    StartsFit (start + done) (count - done) otherSize)

variable {random baseKey} {start count done size otherSize : Nat} {key : κ}

theorem hashedApart_iff (hkey : resolveBaseKey random baseKey = .ok key)
    (hstart : start < 2147483648) :
    HashedApart random baseKey start count ↔ start + count ≤ 4294967296 := by
  constructor
  · intro h
    by_contra hlong
    exact h ⟨_, elementKeys_ok hkey hstart⟩ 0 (by omega) 4294967296 (by omega) (by omega) rfl
  · intro hle _ i hi j hj hne heq
    have hnat := congrArg BitVec.toNat heq
    rw [BitVec.toNat_ofNat, BitVec.toNat_ofNat, Nat.mod_eq_of_lt (by omega),
      Nat.mod_eq_of_lt (by omega)] at hnat
    exact hne hnat

theorem routesAgree_of_consistent (hsize : 1 ≤ size) (hother : 1 ≤ otherSize)
    (hdone : done ≤ count) (h : Consistent random baseKey start count done size otherSize) :
    RoutesAgree random baseKey start count done size otherSize := by
  rcases h with ⟨hcount, hrefused⟩ | ⟨⟨key, hkey⟩, hstart, -, hfits, hfits', hfitsRest⟩
  · have hchunked : ∀ (first n chunk : Nat), start ≤ first → 1 ≤ n → 1 ≤ chunk →
        ∃ e, chunkedKeys random baseKey first n chunk = .error e := by
      intro first n chunk hfirst hn hchunk
      rcases hrefused with ⟨e, he⟩ | hlate
      · exact ⟨e, chunkedKeys_unresolved hchunk he hn⟩
      · refine chunkedKeys_error (j := 0) hchunk ?_ ?_ <;> omega
    have hresumed : ∃ e, resumedKeys random baseKey start count done size otherSize = .error e := by
      rw [resumedKeys_eq hdone]
      by_cases hzero : done = 0
      · subst hzero
        obtain ⟨e, he⟩ := hchunked (start + 0) (count - 0) otherSize (by omega) (by omega) hother
        rw [chunkedKeys_zero hsize, he]
        exact ⟨e, rfl⟩
      · obtain ⟨e, he⟩ := hchunked start done size (Nat.le_refl _) (by omega) hsize
        rw [he]
        exact ⟨e, rfl⟩
    have hwhole : ∃ e, elementKeys random baseKey start count = .error e := by
      rcases hrefused with ⟨e, he⟩ | hlate
      · exact ⟨e, elementKeys_unresolved he⟩
      · exact elementKeys_error hlate
    right
    simp only [routes, forall_mem_cons]
    exact ⟨hwhole, hchunked start count size (Nat.le_refl _) hcount hsize,
      hchunked start count otherSize (Nat.le_refl _) hcount hother, hresumed, nofun⟩
  · have hprefix : StartsFit start done size := fun j hj => hfits j (by omega)
    left
    refine ⟨key, hkey, ?_⟩
    simp only [routes, forall_mem_cons]
    refine ⟨elementKeys_ok hkey hstart, chunkedKeys_ok hsize hkey hfits,
      chunkedKeys_ok hother hkey hfits', ?_, nofun⟩
    rw [resumedKeys_eq hdone, chunkedKeys_ok hsize hkey hprefix, chunkedKeys_ok hother hkey hfitsRest]
    refine congrArg Except.ok ?_
    rw [keysFrom_append, Nat.add_sub_cancel' hdone]

/-- **Keys depend on chunking and resumption just when some chunk starts past `int32` and another
part of the same range does not, when nothing is asked past it, or when indices wrap around.** -/
theorem routes_agree_iff (random : Random κ) (baseKey : BaseKey κ)
    (start count done size otherSize : Nat) (hsize : 1 ≤ size) (hother : 1 ≤ otherSize)
    (hdone : done ≤ count) :
    RoutesAgree random baseKey start count done size otherSize ∧
        HashedApart random baseKey start count ↔
      Consistent random baseKey start count done size otherSize := by
  constructor
  · rintro ⟨⟨key, hkey, hroutes⟩ | hraise, hapart⟩
    · simp only [routes, List.forall_mem_cons] at hroutes
      obtain ⟨hwhole, hchunked, hchunked', hresumed, -⟩ := hroutes
      have hstart : start < 2147483648 := by
        by_contra hlate
        obtain ⟨e, he⟩ : ∃ e, elementKeys random baseKey start count = .error e :=
          elementKeys_error (not_lt.mp hlate)
        exact nomatch he.symm.trans hwhole
      have hfits : StartsFit start count size := startsFit_of_ok hsize hchunked
      have hprefix : StartsFit start done size := fun j hj => hfits j (by omega)
      have hrest : StartsFit (start + done) (count - done) otherSize := by
        rw [resumedKeys_eq hdone, chunkedKeys_ok hsize hkey hprefix] at hresumed
        cases hafter : chunkedKeys random baseKey (start + done : Nat) (count - done : Nat)
            otherSize with
        | error e =>
          rw [hafter] at hresumed
          exact nomatch hresumed
        | ok keys => exact startsFit_of_ok hother hafter
      exact .inr ⟨⟨key, hkey⟩, hstart, (hashedApart_iff hkey hstart).mp hapart, hfits,
        startsFit_of_ok hother hchunked', hrest⟩
    · simp only [routes, List.forall_mem_cons] at hraise
      obtain ⟨⟨e, hwhole⟩, ⟨e', hchunked⟩, -⟩ := hraise
      refine .inl ⟨?_, ?_⟩
      · by_contra hzero
        obtain rfl : count = 0 := by omega
        exact nomatch hchunked.symm.trans (chunkedKeys_zero hsize)
      · cases hkey : resolveBaseKey random baseKey with
        | error e => exact .inl ⟨e, rfl⟩
        | ok key =>
          refine .inr (not_lt.mp fun hstart => ?_)
          exact nomatch hwhole.symm.trans (elementKeys_ok hkey hstart)
  · intro h
    refine ⟨routesAgree_of_consistent hsize hother hdone h, ?_⟩
    rcases h with ⟨-, hrefused⟩ | ⟨⟨key, hkey⟩, hstart, hle, -⟩
    · rintro ⟨keys, hkeys⟩
      rcases hrefused with ⟨e, he⟩ | hlate
      · exact nomatch (elementKeys_unresolved he).symm.trans hkeys
      · obtain ⟨e, he⟩ : ∃ e, elementKeys random baseKey start count = .error e :=
          elementKeys_error hlate
        exact nomatch he.symm.trans hkeys
    · exact (hashedApart_iff hkey hstart).mpr hle

end

/-- Keys that are told apart by their index. -/
def sampleRandom : Random (BitVec 32) where
  key seed := some (BitVec.ofNat 32 seed)
  foldIn key index := key + index

theorem routes_agree_iff_sample :
    RoutesAgree sampleRandom (.seed 7) 3 5 2 2 3 ∧ HashedApart sampleRandom (.seed 7) 3 5 :=
  (routes_agree_iff sampleRandom (.seed 7) 3 5 2 2 3 (by omega) (by omega) (by omega)).mpr
    (.inr ⟨⟨7, rfl⟩, by omega, by omega, fun j hj => by omega, fun j hj => by omega,
      fun j hj => by omega⟩)

/-- At the limit, two keys at once wrap and two keys one by one raise. -/
theorem not_routes_agree : ¬RoutesAgree sampleRandom (.seed 7) 2147483647 2 0 1 1 := by
  have hwhole : elementKeys sampleRandom (.seed 7) (2147483647 : Nat) (2 : Nat) =
      .ok (keysFrom sampleRandom 7 2147483647 2) := elementKeys_ok rfl (by omega)
  obtain ⟨e, he⟩ : ∃ e, chunkedKeys sampleRandom (.seed 7) (2147483647 : Nat) (2 : Nat) (1 : Nat) =
      .error e := chunkedKeys_error (j := 1) (Nat.le_refl 1) (by omega) (by omega)
  rintro (⟨key, hkey, hroutes⟩ | hraise)
  · have hchunked := hroutes _ (List.mem_cons_of_mem _ (List.mem_cons_self ..))
    exact nomatch he.symm.trans hchunked
  · obtain ⟨e, he⟩ := hraise _ (List.mem_cons_self ..)
    exact nomatch he.symm.trans hwhole

end Xtrax.KeyStream
