import Xtrax.RowBytes
import Xtrax.Unique

/-!
# Specs of duplicate rows

A spec of duplicates names canonical rows of a batch and for each row the canonical one that it
repeats.  `exactStage` computes one from the rows of a batch: the distinct rows in the order in
which they first occur (`exactStage_exact`).  `verifyDedupSpec` checks a given one: it accepts a
spec of a valid structure just when every row has the entries of its canonical row
(`verifyDedupSpec_iff`).
-/

namespace Xtrax.DedupSynthesis

open Results List RowBytes

/-! ### The exact stage -/

/-- The number as an `int32`. -/
def int32 (n : Nat) : Int := (n : Int).bmod (2 ^ 32)

structure ExactStage where
  uniqueIndices : List Int
  indexMap : List Int
  nUnique : Nat
  transferBytes : Nat
  deriving DecidableEq

section

variable {R : Type*} [LinearOrder R]

/-- `unique_indices` before it is sorted. -/
def firstPositions (allRows : List R) : List Nat :=
  (List.range (Unique.unique allRows).length).map fun j => (Unique.inverse allRows).idxOf j

def sortOrder (allRows : List R) : List Nat :=
  Unique.argsort (Unique.unique allRows).length fun j => int32 ((firstPositions allRows).getD j 0)

/-- `_exact_stage`, for rows of `elementWidth` bytes. -/
def exactStage (allRows : List R) (elementWidth : Nat) : ExactStage where
  uniqueIndices := (sortOrder allRows).map fun j => int32 ((firstPositions allRows).getD j 0)
  -- `old_to_new` is the inverse permutation of `sort_order`
  indexMap := (Unique.inverse allRows).map fun j => int32 ((sortOrder allRows).idxOf j)
  nUnique := (Unique.unique allRows).length
  transferBytes := allRows.length * elementWidth

/-- What the exact stage is for: ascending first positions, one for each distinct row, and for
every row the position of an equal one among them. -/
structure Exact (rows : List R) (out : ExactStage) : Prop where
  ascending : out.uniqueIndices.Pairwise (· < ·)
  first : ∀ p, p ∈ out.uniqueIndices ↔ ∃ r ∈ rows, p = rows.idxOf r
  length : out.uniqueIndices.length = out.nUnique
  distinct : out.nUnique = rows.dedup.length
  map_length : out.indexMap.length = rows.length
  canonical : ∀ (i : Nat) (r : R), rows[i]? = some r → ∃ s p : Nat,
    out.indexMap[i]? = some (s : Int) ∧ out.uniqueIndices[s]? = some (p : Int) ∧ rows[p]? = some r

theorem int32_of_lt {n : Nat} (h : n < 2 ^ 31) : int32 n = n := by
  unfold int32
  rw [Int.bmod_eq_of_le] <;> omega

variable {rows : List R}

theorem getElem?_unique {r : R} (hr : r ∈ rows) :
    (Unique.unique rows)[(Unique.unique rows).idxOf r]? = some r := by
  have hlt : (Unique.unique rows).idxOf r < (Unique.unique rows).length :=
    idxOf_lt_length_iff.mpr (Unique.mem_unique.mpr hr)
  rw [getElem?_eq_getElem hlt, getElem_idxOf hlt]

theorem firstPositions_getD {j : Nat} {r : R} (h : (Unique.unique rows)[j]? = some r) :
    r ∈ rows ∧ (firstPositions rows).getD j 0 = rows.idxOf r := by
  obtain ⟨hlt, hget⟩ := List.getElem?_eq_some_iff.mp h
  have hr : r ∈ rows := Unique.mem_unique.mp (List.mem_of_getElem? h)
  have hj : (Unique.unique rows).idxOf r = j := by
    rw [← hget]
    exact Unique.nodup_unique.idxOf_getElem j hlt
  refine ⟨hr, ?_⟩
  rw [firstPositions, List.getD_eq_getElem?_getD, List.getElem?_map, List.getElem?_range hlt]
  show (Unique.inverse rows).idxOf j = rows.idxOf r
  rw [← hj]
  exact Unique.idxOf_inverse hr

/-- Every distinct row first occurs at a position that an `int32` holds. -/
def FirstBelow (rows : List R) : Prop := ∀ r ∈ rows, rows.idxOf r < 2 ^ 31

theorem firstBelow_of_length (h : rows.length ≤ 2 ^ 31) : FirstBelow rows :=
  fun _ hr => (idxOf_lt_length_iff.mpr hr).trans_le h

theorem key_eq (h : FirstBelow rows) {j : Nat} {r : R} (hj : (Unique.unique rows)[j]? = some r) :
    int32 ((firstPositions rows).getD j 0) = rows.idxOf r := by
  obtain ⟨hr, hfirst⟩ := firstPositions_getD hj
  rw [hfirst]
  exact int32_of_lt (h r hr)

theorem length_unique_le (h : FirstBelow rows) : (Unique.unique rows).length ≤ 2 ^ 31 := by
  have hnodup : ((Unique.unique rows).map rows.idxOf).Nodup := by
    refine Unique.nodup_unique.map_on ?_
    intro a ha b _ hab
    exact (idxOf_inj (Unique.mem_unique.mp ha)).mp hab
  have hsub : (Unique.unique rows).map rows.idxOf ⊆ range (2 ^ 31) := by
    intro p hp
    obtain ⟨r, hr, rfl⟩ := mem_map.mp hp
    exact mem_range.mpr (h r (Unique.mem_unique.mp hr))
  have hle := (subperm_of_subset hnodup hsub).length_le
  rwa [length_map, length_range] at hle

theorem exactStage_ascending (h : FirstBelow rows) (elementWidth : Nat) :
    (exactStage rows elementWidth).uniqueIndices.Pairwise (· < ·) := by
  refine pairwise_map.mpr (Unique.pairwise_lt_argsort ?_)
  intro i hi j hj heq
  have hi' := getElem?_eq_getElem hi
  have hj' := getElem?_eq_getElem hj
  rw [key_eq h hi', key_eq h hj'] at heq
  have hrow : (Unique.unique rows)[i] = (Unique.unique rows)[j] := by
    refine (idxOf_inj ?_).mp (Int.ofNat.inj heq)
    exact Unique.mem_unique.mp (getElem_mem hi)
  exact (Unique.nodup_unique.getElem_inj_iff).mp hrow

theorem mem_uniqueIndices (h : FirstBelow rows) (elementWidth : Nat) (p : Int) :
    p ∈ (exactStage rows elementWidth).uniqueIndices ↔ ∃ r ∈ rows, p = rows.idxOf r := by
  show p ∈ (sortOrder rows).map _ ↔ _
  rw [mem_map]
  constructor
  · rintro ⟨j, hj, rfl⟩
    have hget := getElem?_eq_getElem (Unique.mem_argsort.mp hj)
    exact ⟨_, (firstPositions_getD hget).1, key_eq h hget⟩
  · rintro ⟨r, hr, rfl⟩
    refine ⟨(Unique.unique rows).idxOf r, ?_, key_eq h (getElem?_unique hr)⟩
    refine Unique.mem_argsort.mpr (idxOf_lt_length_iff.mpr ?_)
    exact Unique.mem_unique.mpr hr

/-- **The exact stage is exact**, where the positions are in reach of an `int32`. -/
theorem exactStage_exact (h : FirstBelow rows) (elementWidth : Nat) :
    Exact rows (exactStage rows elementWidth) where
  ascending := exactStage_ascending h elementWidth
  first := mem_uniqueIndices h elementWidth
  length := by
    show ((sortOrder rows).map _).length = _
    rw [length_map, sortOrder, Unique.argsort_perm.length_eq, length_range]
    rfl
  distinct := Unique.length_unique
  map_length := by
    show ((rows.map _).map _).length = _
    rw [length_map, length_map]
  canonical i r hi := by
    have hr : r ∈ rows := mem_of_getElem? hi
    have hmem : (Unique.unique rows).idxOf r ∈ sortOrder rows := by
      refine Unique.mem_argsort.mpr (idxOf_lt_length_iff.mpr ?_)
      exact Unique.mem_unique.mpr hr
    have hlt := idxOf_lt_length_iff.mpr hmem
    have hslot : (sortOrder rows).idxOf ((Unique.unique rows).idxOf r) < 2 ^ 31 := by
      refine hlt.trans_le ?_
      rw [sortOrder, Unique.argsort_perm.length_eq, length_range]
      exact length_unique_le h
    refine ⟨(sortOrder rows).idxOf ((Unique.unique rows).idxOf r), rows.idxOf r, ?_, ?_, ?_⟩
    · show ((rows.map _).map _)[i]? = _
      rw [getElem?_map, getElem?_map, hi]
      exact congrArg some (int32_of_lt hslot)
    · show ((sortOrder rows).map _)[_]? = _
      rw [getElem?_map, getElem?_eq_getElem hlt, getElem_idxOf hlt]
      exact congrArg some (key_eq h (getElem?_unique hr))
    · have hfirst := idxOf_lt_length_iff.mpr hr
      rw [getElem?_eq_getElem hfirst, getElem_idxOf hfirst]

theorem int32_lt (n : Nat) : int32 n < 2 ^ 31 := by
  have hlt : (n : Int).bmod (2 ^ 32) < ((2 ^ 32 : Nat) + 1) / 2 := Int.bmod_lt (by decide)
  exact hlt.trans_le (by decide)

theorem not_exact {a b : R} (hne : a ≠ b) {n : Nat} (hn : 2 ^ 31 ≤ n) (elementWidth : Nat) :
    ¬ Exact (replicate n a ++ [b]) (exactStage (replicate n a ++ [b]) elementWidth) := by
  intro h
  have hidx : (replicate n a ++ [b]).idxOf b = n := by
    have hnot : b ∉ replicate n a := fun hb => hne (eq_of_mem_replicate hb).symm
    rw [idxOf_append_of_notMem hnot, length_replicate, idxOf_cons_self]
    rfl
  have hmem := (h.first n).mpr ⟨b, mem_append_right _ mem_cons_self, congrArg Nat.cast hidx.symm⟩
  obtain ⟨j, -, hj⟩ := mem_map.mp hmem
  have hlt := int32_lt ((firstPositions (replicate n a ++ [b])).getD j 0)
  omega

end

/-- After `2 ^ 31` equal rows the position of the next one wraps around. -/
theorem not_exactStage_exact : ¬ ∀ (rows : List (List Byte)) (elementWidth : Nat), rows ≠ [] →
    Exact rows (exactStage rows elementWidth) := by
  intro h
  refine not_exact (a := [(0 : Byte)]) (b := [1]) (by decide) (Nat.le_refl _) 1 (h _ 1 ?_)
  exact List.append_ne_nil_of_right_ne_nil _ (List.cons_ne_nil _ _)

/-! ### Specs -/

/-- What a spec has for indices: whether it is an `np.ndarray`, and of which entries. -/
structure IndexArray where
  isNdarray : Bool
  isInteger : Bool
  array : NdArray Int

/-- `DedupSpec`; `F` and `G` are the types of its functions. -/
structure DedupSpec (F G : Type) where
  axisName : String
  uniqueIndices : IndexArray
  indexMap : IndexArray
  k : Int
  dedupFn : Option F := none
  gatherFn : Option G := none

/-- `DedupSpecVerificationError`, with what its message says. -/
inductive VerificationError
  | indexType
  | indexDtype (uniqueNdim mapNdim : Nat)
  | kMismatch (k : Int) (length : Nat)
  | indexMapLength (length n : Nat)
  | uniqueIndicesBounds (n : Nat) (lo hi : Int)
  | indexMapBounds (k lo hi : Int)
  | rowMismatch (nBad firstBadRow leafIndex : Nat)
  deriving DecidableEq

def VerificationError.check : VerificationError → String
  | .indexType => "index_type"
  | .indexDtype .. => "index_dtype"
  | .kMismatch .. => "k_mismatch"
  | .indexMapLength .. => "index_map_length"
  | .uniqueIndicesBounds .. => "unique_indices_bounds"
  | .indexMapBounds .. => "index_map_bounds"
  | .rowMismatch .. => "row_mismatch"

/-- `arr.size > 0 and (arr.min() < 0 or arr.max() >= bound)`, with the range. -/
def outOfBounds (entries : List Int) (bound : Int) : Option (Int × Int) :=
  match entries.min?, entries.max? with
  | some lo, some hi => if lo < 0 ∨ bound ≤ hi then some (lo, hi) else none
  | _, _ => none

variable {F G : Type}

def checkSpecStructure (spec : DedupSpec F G) (n : Nat) : Except VerificationError Unit :=
  let unique := spec.uniqueIndices
  let map := spec.indexMap
  if !unique.isNdarray || !map.isNdarray then .error .indexType
  else if unique.array.shape.length ≠ 1 ∨ unique.isInteger = false ∨
      map.array.shape.length ≠ 1 ∨ map.isInteger = false then
    .error (.indexDtype unique.array.shape.length map.array.shape.length)
  else if (unique.array.shape.headD 0 : Int) ≠ spec.k then
    .error (.kMismatch spec.k (unique.array.shape.headD 0))
  else if map.array.shape.headD 0 ≠ n then .error (.indexMapLength (map.array.shape.headD 0) n)
  else
    match outOfBounds unique.array.entries n, outOfBounds map.array.entries spec.k with
    | some (lo, hi), _ => .error (.uniqueIndicesBounds n lo hi)
    | none, some (lo, hi) => .error (.indexMapBounds spec.k lo hi)
    | none, none => .ok ()

/-- `unique_indices[index_map]` at one row. -/
def DedupSpec.canon (spec : DedupSpec F G) (i : Nat) : Nat :=
  (spec.uniqueIndices.array.get [(spec.indexMap.array.get [i]).toNat]).toNat

/-- One row of `_mismatch_mask_device`: which leaves differ from their canonical rows. -/
def mismatches (blocks : List (Nat → List Byte)) (canon : Nat → Nat) (i : Nat) : List Bool :=
  blocks.map fun b => (List.zipWith (fun x y => x != y) (b i) (b (canon i))).any id

/-- The row check, with what it reports: how many rows are bad, the first of them and its first
leaf that differs. -/
def checkRows (blocks : List (Nat → List Byte)) (canon : Nat → Nat) (n : Nat) :
    Except VerificationError Unit :=
  let mask := mismatches blocks canon
  let union := (List.range n).map fun i => (mask i).any id
  let nBad := union.count true
  if nBad ≠ 0 then
    let firstBadRow := union.findIdx id
    .error (.rowMismatch nBad firstBadRow ((mask firstBadRow).findIdx id))
  else .ok ()

structure VerificationResult where
  nRows : Nat
  k : Int
  transferBytesSpent : Nat
  deriving DecidableEq

inductive VerifyError
  | batch (e : BatchError)
  | spec (e : VerificationError)
  deriving DecidableEq

def verifyDedupSpec (spec : DedupSpec F G) (leaves : List BatchLeaf) (axis : Int) :
    Except VerifyError VerificationResult := do
  let (validated, n) ← (validateBatchLeaves leaves axis).mapError .batch
  (checkSpecStructure spec n).mapError .spec
  let blocks ← (validated.mapM (leafRowBytes axis.toNat)).mapError .batch
  (checkRows blocks spec.canon n).mapError .spec
  pure ⟨n, spec.k, n * validated.length⟩

/-! ### What is accepted -/

/-- The indices are one-dimensional, as many as they should be, and in bounds. -/
structure ValidStructure (spec : DedupSpec F G) (n : Nat) : Prop where
  unique_shape : ∃ k : Nat, spec.uniqueIndices.array.shape = [k] ∧ spec.k = k
  map_shape : spec.indexMap.array.shape = [n]
  unique_bounds : ∀ s : Nat, (s : Int) < spec.k → 0 ≤ spec.uniqueIndices.array.get [s] ∧
    spec.uniqueIndices.array.get [s] < n
  map_bounds : ∀ i < n, 0 ≤ spec.indexMap.array.get [i] ∧ spec.indexMap.array.get [i] < spec.k

theorem outOfBounds_eq_none {entries : List Int} {bound : Int} (h : outOfBounds entries bound = none) :
    ∀ e ∈ entries, 0 ≤ e ∧ e < bound := by
  intro e he
  unfold outOfBounds at h
  cases hmin : entries.min? with
  | none =>
    rw [min?_eq_none_iff.mp hmin] at he
    exact absurd he not_mem_nil
  | some lo =>
    cases hmax : entries.max? with
    | none =>
      rw [max?_eq_none_iff.mp hmax] at he
      exact absurd he not_mem_nil
    | some hi =>
      rw [hmin, hmax] at h
      dsimp only at h
      split at h
      · cases h
      rename_i hin
      have hlo : lo ≤ e := (min?_eq_some_iff.mp hmin).2 e he
      have hhi : e ≤ hi := (max?_eq_some_iff.mp hmax).2 e he
      omega

theorem mem_entries {a : NdArray Int} {n i : Nat} (hshape : a.shape = [n]) (hi : i < n) :
    a.get [i] ∈ a.entries := by
  refine mem_map.mpr ⟨[i], NdArray.mem_indices.mpr ?_, rfl⟩
  rw [hshape]
  exact .cons hi .nil

theorem checkSpecStructure_ok {spec : DedupSpec F G} {n : Nat}
    (h : checkSpecStructure spec n = .ok ()) : ValidStructure spec n := by
  unfold checkSpecStructure at h
  dsimp only at h
  split at h
  · cases h
  split at h
  · cases h
  rename_i hdtype
  split at h
  · cases h
  rename_i hk
  split at h
  · cases h
  rename_i hn
  have hunique : ∃ k, spec.uniqueIndices.array.shape = [k] :=
    length_eq_one_iff.mp (by omega)
  have hmap : ∃ k, spec.indexMap.array.shape = [k] := length_eq_one_iff.mp (by omega)
  obtain ⟨k, hunique⟩ := hunique
  obtain ⟨m, hmap⟩ := hmap
  rw [hunique] at hk
  rw [hmap] at hn
  have hk : spec.k = k := (not_not.mp hk).symm
  obtain rfl : m = n := not_not.mp hn
  split at h
  · cases h
  · cases h
  rename_i hin hin'
  refine ⟨⟨k, hunique, hk⟩, hmap, ?_, ?_⟩
  · intro s hs
    exact outOfBounds_eq_none hin _ (mem_entries hunique (by omega))
  · intro i hi
    exact outOfBounds_eq_none hin' _ (mem_entries hmap hi)

theorem any_zipWith_ne {l l' : List Byte} (hlength : l.length = l'.length) :
    (zipWith (fun x y => x != y) l l').any id = false ↔ l = l' := by
  induction l generalizing l' with
  | nil => exact ⟨fun _ => (eq_nil_of_length_eq_zero hlength.symm).symm, fun _ => rfl⟩
  | cons x l ih =>
    cases l' with
    | nil => cases hlength
    | cons y l' =>
      rw [zipWith_cons_cons, any_cons, Bool.or_eq_false_iff, cons.injEq, ih (Nat.succ.inj hlength)]
      exact and_congr_left fun _ => bne_eq_false_iff_eq

section

variable {axis : Nat} {leaves : List TypedLeaf} {blocks : List (Nat → List Byte)}
  (hblocks : leaves.mapM (leafRowBytes axis) = .ok blocks)

include hblocks in
/-- No leaf differs just when the row has the entries of its canonical row in every leaf. -/
theorem mismatches_iff (canon : Nat → Nat) (i : Nat) :
    (mismatches blocks canon i).any id = false ↔
      ∀ leaf ∈ leaves, (leaf.row axis i).Same (leaf.row axis (canon i)) := by
  have hpairs := mapM_eq_ok.mp hblocks
  clear hblocks
  induction hpairs with
  | nil => exact ⟨fun _ leaf hleaf => absurd hleaf not_mem_nil, fun _ => rfl⟩
  | cons hblock hrest ih =>
    rw [mismatches, map_cons, any_cons, Bool.or_eq_false_iff, id, forall_mem_cons,
      any_zipWith_ne (length_leafRowBytes hblock _ _), leafRowBytes_inj hblock]
    exact and_congr_right fun _ => ih

end

theorem checkRows_iff {blocks : List (Nat → List Byte)} {canon : Nat → Nat} {n : Nat} :
    checkRows blocks canon n = .ok () ↔ ∀ i < n, (mismatches blocks canon i).any id = false := by
  have hcount : ((range n).map fun i => (mismatches blocks canon i).any id).count true = 0 ↔
      ∀ i < n, (mismatches blocks canon i).any id = false := by
    rw [count_eq_zero, mem_map]
    constructor
    · intro h i hi
      exact Bool.eq_false_iff.mpr fun htrue => h ⟨i, mem_range.mpr hi, htrue⟩
    · rintro h ⟨i, hi, htrue⟩
      rw [h i (mem_range.mp hi)] at htrue
      cases htrue
  rw [← hcount, checkRows]
  dsimp only
  split
  · rename_i hbad
    exact ⟨(by intro h; cases h), fun h => absurd h hbad⟩
  · rename_i hbad
    exact ⟨fun _ => not_not.mp hbad, fun _ => rfl⟩

/-- Every dtype of the batch has a recipe. -/
def Supported (leaves : List TypedLeaf) : Prop :=
  ∀ leaf ∈ leaves, ∃ kind, rowByteKind leaf.array.dtype = .ok kind

theorem exists_blocks {leaves : List TypedLeaf} (h : Supported leaves) (axis : Nat) :
    ∃ blocks, leaves.mapM (leafRowBytes axis) = .ok blocks := by
  refine exists_mapM fun leaf hleaf => ?_
  obtain ⟨kind, hkind⟩ := h leaf hleaf
  rw [leafRowBytes, hkind]
  exact ⟨_, rfl⟩

theorem verifyDedupSpec_ok {spec : DedupSpec F G} {batchLeaves : List BatchLeaf} {axis : Int}
    {result : VerificationResult} (h : verifyDedupSpec spec batchLeaves axis = .ok result) :
    ∃ leaves n blocks, validateBatchLeaves batchLeaves axis = .ok (leaves, n) ∧
      checkSpecStructure spec n = .ok () ∧ leaves.mapM (leafRowBytes axis.toNat) = .ok blocks ∧
      checkRows blocks spec.canon n = .ok () := by
  obtain ⟨⟨leaves, n⟩, hbatch, h⟩ := bind_eq_ok.mp h
  obtain ⟨⟨⟩, hspec, h⟩ := bind_eq_ok.mp h
  obtain ⟨blocks, hblocks, h⟩ := bind_eq_ok.mp h
  obtain ⟨⟨⟩, hrows, h⟩ := bind_eq_ok.mp h
  refine ⟨leaves, n, blocks, ?_, ?_, ?_, ?_⟩
  · exact mapError_eq_ok.mp hbatch
  · exact mapError_eq_ok.mp hspec
  · exact mapError_eq_ok.mp hblocks
  · exact mapError_eq_ok.mp hrows

/-- **A spec of a valid structure is accepted just when every row has the entries of its canonical
row.** -/
theorem verifyDedupSpec_iff {spec : DedupSpec F G} {batchLeaves : List BatchLeaf} {axis : Int}
    {n : Nat} {leaves : List TypedLeaf}
    (hbatch : validateBatchLeaves batchLeaves axis = .ok (leaves, n)) (hkinds : Supported leaves)
    (hspec : checkSpecStructure spec n = .ok ()) :
    (∃ result, verifyDedupSpec spec batchLeaves axis = .ok result) ↔
      ∀ i < n, ∀ leaf ∈ leaves,
        (leaf.row axis.toNat i).Same (leaf.row axis.toNat (spec.canon i)) := by
  constructor
  · rintro ⟨result, h⟩
    obtain ⟨leaves', n', blocks, hbatch', -, hblocks, hrows⟩ := verifyDedupSpec_ok h
    rw [hbatch] at hbatch'
    cases hbatch'
    intro i hi
    exact (mismatches_iff hblocks spec.canon i).mp (checkRows_iff.mp hrows i hi)
  · intro h
    obtain ⟨blocks, hblocks⟩ := exists_blocks hkinds axis.toNat
    have hrows : checkRows blocks spec.canon n = .ok () :=
      checkRows_iff.mpr fun i hi => (mismatches_iff hblocks spec.canon i).mpr (h i hi)
    refine ⟨⟨n, spec.k, n * leaves.length⟩, ?_⟩
    rw [verifyDedupSpec, hbatch]
    refine bind_eq_ok.mpr ⟨_, rfl, bind_eq_ok.mpr ⟨(), ?_, ?_⟩⟩
    · exact mapError_eq_ok.mpr hspec
    refine bind_eq_ok.mpr ⟨blocks, mapError_eq_ok.mpr hblocks, ?_⟩
    exact bind_eq_ok.mpr ⟨(), mapError_eq_ok.mpr hrows, rfl⟩

end Xtrax.DedupSynthesis
