import Xtrax.DedupSynthesis

/-!
# Mapping the canonical rows only

A spec of duplicates is turned into a strategy: the canonical rows, padded to a power of two, are
taken from the batch, the function is mapped over them and the results are put at every row
(`DedupSpec.toDedupGather`, `axisDispatch`).  Where the spec is accepted by `verifyDedupSpec`, this
gives at every position what mapping over all rows gives (`dedupPath_mapped`).
-/

namespace Xtrax.DedupSynthesis

open List ChunkedMap RowBytes

variable {T U D V : Type} [Treedef T] [ListTreedef U] [Dtypes D V]

/-! ### The strategy -/

/-- `x[indices]` for indices in bounds; the negative ones count from the end. -/
def takeIndex (n : Nat) (i : Int) : Nat := if i < 0 then (n + i).toNat else i.toNat

/-- The rows at these indices, of every leaf.  `jnp.take` has indices as `int32` without x64, which
the arrays of a spec are. -/
def takeRows (xs : Tree T D V) (indices : List Int) : Tree T D V :=
  xs.map fun leaf =>
    { leaf with array := leaf.array.take (indices.map (takeIndex (leaf.array.shape.headD 0))) }

def defaultDedupFn (xs : Tree T D V) (uniqueIndices : List Int) : Tree T D V :=
  takeRows xs uniqueIndices

def defaultGatherFn (ys : Tree U D V) (gatherIndices : List Int) : Tree U D V :=
  takeRows ys gatherIndices

abbrev DedupFn (T D V : Type) [Treedef T] := Tree T D V → List Int → Tree T D V

structure DedupGather (T U D V : Type) [Treedef T] [ListTreedef U] where
  uniqueIndices : List Int
  indexMap : List Int
  k : Int
  kBucket : Nat
  dedupFn : DedupFn T D V
  gatherFn : DedupFn U D V

inductive DispatchError
  | kNotPositive (k : Int)
  | requiresFn
  | map
  deriving DecidableEq

/-- `get_k_bucket`: `1 << (k - 1).bit_length()`. -/
def getKBucket (k : Int) : Except DispatchError Nat :=
  if k ≤ 0 then .error (.kNotPositive k) else .ok (2 ^ (k - 1).toNat.size)

/-- `np.pad(a, (0, n), mode="edge")`. -/
def padEdge (a : List Int) (n : Nat) : List Int := a ++ List.replicate n (a.getLastD 0)

/-- `DedupSpec.to_dedup_gather`, for one-dimensional indices. -/
def DedupSpec.toDedupGather (spec : DedupSpec (DedupFn T D V) (DedupFn U D V)) :
    Except DispatchError (DedupGather T U D V) := do
  let kBucket ← getKBucket spec.k
  pure {
    uniqueIndices := padEdge spec.uniqueIndices.array.entries (kBucket - spec.k.toNat)
    indexMap := spec.indexMap.array.entries
    k := spec.k
    kBucket := kBucket
    dedupFn := spec.dedupFn.getD defaultDedupFn
    gatherFn := spec.gatherFn.getD defaultGatherFn }

section

variable [DecidableEq U]

def axisDispatch (strategy : DedupGather T U D V) (fn : Option (ElementFn (Tree T D V) U D V))
    (xs : Tree T D V) : Except DispatchError (Tree U D V) :=
  match fn with
  | none => .error .requiresFn
  | some fn =>
    match chunkedMap fn (strategy.dedupFn xs strategy.uniqueIndices) none with
    | none => .error .map
    | some dedupedYs => .ok (strategy.gatherFn dedupedYs strategy.indexMap)

/-- The strategy of a spec, dispatched. -/
def dedupPath (spec : DedupSpec (DedupFn T D V) (DedupFn U D V))
    (fn : ElementFn (Tree T D V) U D V) (xs : Tree T D V) : Except DispatchError (Tree U D V) :=
  spec.toDedupGather >>= fun strategy => axisDispatch strategy (some fn) xs

end

/-! ### Functions of the entries -/

/-- Two trees of one structure and the same leaves. -/
structure SameTree (s t : Tree T D V) : Prop where
  treedef : s.treedef = t.treedef
  leaves : List.Forall₂ (fun a b => a.dtype = b.dtype ∧ a.array.Same b.array) s.leaves t.leaves

/-- A pure function of one element: what it returns depends on the entries only. -/
structure RowFn (T U D V : Type) [Treedef T] [ListTreedef U] extends
    ElementFn (Tree T D V) U D V where
  congr : ∀ x x', SameTree x x' → SameTree (apply x) (apply x')

/-! ### Padding and taking -/

theorem le_kBucket {k kBucket : Nat} (h : getKBucket k = .ok kBucket) : k ≤ kBucket := by
  unfold getKBucket at h
  split at h
  · cases h
  · cases h
    have hlt : ((k : Int) - 1).toNat < 2 ^ ((k : Int) - 1).toNat.size := Nat.lt_size_self _
    omega

theorem length_padEdge (a : List Int) (n : Nat) : (padEdge a n).length = a.length + n := by
  rw [padEdge, length_append, length_replicate]

theorem padEdge_getElem? {a : List Int} (n : Nat) {s : Nat} (h : s < a.length) :
    (padEdge a n)[s]? = a[s]? := getElem?_append_left h

theorem entries_of_shape {a : NdArray V} {n : Nat} (hshape : a.shape = [n]) :
    a.entries = (range n).map fun i => a.get [i] := by
  rw [NdArray.entries, hshape]
  show ((range n).flatMap fun i => [[i]]).map a.get = _
  rw [← map_eq_flatMap, map_map]
  rfl

theorem row_take {a : NdArray V} {indices : List Int} {i j : Nat}
    (h : indices[i]? = some (j : Int)) (n : Nat) :
    (a.take (indices.map (takeIndex n))).row i = a.row j := by
  have hrow : (indices.map (takeIndex n)).getD i 0 = j := by
    rw [getD_eq_getElem?_getD, getElem?_map, h]
    show takeIndex n j = j
    rw [takeIndex, if_neg (by omega)]
    rfl
  show NdArray.mk _ _ = NdArray.mk _ _
  simp only [NdArray.take, hrow, tail_cons]

omit [Dtypes D V] in
theorem element_takeRows {xs : Tree T D V} {indices : List Int} {i j : Nat}
    (h : indices[i]? = some (j : Int)) : element (takeRows xs indices) i = element xs j := by
  refine PyTree.ext rfl ?_
  show (xs.leaves.map _).map _ = xs.leaves.map _
  rw [map_map]
  refine map_congr_left fun leaf _ => ?_
  show Leaf.mk _ _ = Leaf.mk _ _
  rw [row_take h]

omit [Dtypes D V] in
theorem isBatch_takeRows {xs : Tree T D V} (hne : xs.leaves ≠ []) (indices : List Int) :
    IsBatch indices.length (takeRows xs indices) := by
  refine ⟨fun hnil => hne (map_eq_nil_iff.mp hnil), all_eq_true.mpr ?_⟩
  intro leaf hleaf
  obtain ⟨leaf, -, rfl⟩ := mem_map.mp hleaf
  refine decide_eq_true ?_
  show some (indices.map _).length = some indices.length
  rw [length_map]

omit [Dtypes D V] in
theorem SameTree.getElem? {s t : Tree T D V} (h : SameTree s t) {j : Nat} {a : Leaf D V}
    (ha : s.leaves[j]? = some a) :
    ∃ b, t.leaves[j]? = some b ∧ a.dtype = b.dtype ∧ a.array.Same b.array := by
  obtain ⟨hlt, hget⟩ := List.getElem?_eq_some_iff.mp ha
  have hlt' : j < t.leaves.length := by
    rw [← h.leaves.length_eq]
    exact hlt
  refine ⟨t.leaves[j], List.getElem?_eq_getElem hlt', ?_⟩
  rw [← hget]
  exact h.leaves.get hlt hlt'

omit [Dtypes D V] in
theorem mapped_takeRows {fn : ElementFn (Tree T D V) U D V} {xs unique : Tree T D V}
    {ys : Tree U D V} {n m : Nat} {indices : List Int} (h : Mapped fn m unique ys)
    (hlength : indices.length = n)
    (hrows : ∀ i < n, ∃ slot : Nat, indices[i]? = some (slot : Int) ∧ slot < m ∧
      SameTree (fn.apply (element unique slot)) (fn.apply (element xs i))) :
    Mapped fn n xs (takeRows ys indices) := by
  refine ⟨h.treedef, fun j s hs => ?_⟩
  obtain ⟨y, hy, hdtype, hshape, hys⟩ := h.leaf j s hs
  refine ⟨{ y with array := y.array.take (indices.map (takeIndex (y.array.shape.headD 0))) },
    ?_, hdtype, ?_, fun i hi => ?_⟩
  · show (ys.leaves.map _)[j]? = _
    rw [getElem?_map, hy]
    rfl
  · show (indices.map _).length :: y.array.shape.tail = _
    rw [length_map, hlength, hshape]
    rfl
  · obtain ⟨slot, hslot, hlt, hsame⟩ := hrows i hi
    obtain ⟨v, hv, hvdtype, hrow⟩ := hys slot hlt
    obtain ⟨v', hv', hdtype', hentries⟩ := hsame.getElem? hv
    refine ⟨v', hv', hdtype'.symm.trans hvdtype, ?_⟩
    show (NdArray.row (y.array.take _) i).Same v'.array
    rw [row_take hslot]
    exact hrow.trans hentries

/-! ### What an accepted spec gives -/

section

variable [DecidableEq U] {spec : DedupSpec (DedupFn T DType Nat) (DedupFn U DType Nat)}
  {batchLeaves : List BatchLeaf} {result : VerificationResult} {xs : Tree T DType Nat}
  {leaves : List TypedLeaf} {n : Nat}

omit [DecidableEq U] in
theorem sameTree_canon (hverify : verifyDedupSpec spec batchLeaves 0 = .ok result)
    (hbatch : validateBatchLeaves batchLeaves 0 = .ok (leaves, n))
    (hxs : xs.leaves = leaves.map fun leaf => leaf.array.toLeaf) {i : Nat} (hi : i < n) :
    SameTree (element xs (spec.canon i)) (element xs i) := by
  obtain ⟨leaves', n', blocks, hbatch', -, hblocks, hrows⟩ := verifyDedupSpec_ok hverify
  rw [hbatch] at hbatch'
  cases hbatch'
  have hsame := (mismatches_iff hblocks spec.canon i).mp (checkRows_iff.mp hrows i hi)
  refine ⟨rfl, ?_⟩
  show List.Forall₂ _ (xs.leaves.map _) (xs.leaves.map _)
  rw [hxs, map_map, map_map, forall₂_map_left_iff, forall₂_map_right_iff, forall₂_same]
  intro leaf hleaf
  have hshape : leaf.array.array.shape ≠ [] := by
    obtain ⟨-, haxis, -⟩ := (validateBatchLeaves_ok hbatch).2.2 leaf hleaf
    rw [← length_pos_iff]
    omega
  have hrow := (hsame leaf hleaf).symm
  rw [TypedLeaf.row, TypedLeaf.row] at hrow
  refine ⟨rfl, ?_⟩
  show (leaf.array.array.row _).Same (leaf.array.array.row _)
  rw [← NdArray.moveToFront_zero hshape, ← NdArray.moveToFront_zero hshape]
  exact hrow

theorem axisDispatch_default {strategy : DedupGather T U DType Nat}
    {fn : ElementFn (Tree T DType Nat) U DType Nat} {ys : Tree U DType Nat}
    (hdedup : strategy.dedupFn = defaultDedupFn) (hgather : strategy.gatherFn = defaultGatherFn)
    (hys : chunkedMap fn (takeRows xs strategy.uniqueIndices) none = some ys) :
    axisDispatch strategy (some fn) xs = .ok (takeRows ys strategy.indexMap) := by
  unfold axisDispatch
  dsimp only
  rw [hdedup, hgather, defaultDedupFn, hys]
  rfl

/-- **The strategy of an accepted spec maps the function over the rows**: every position holds
what the function returns for the element there. -/
theorem dedupPath_mapped (hverify : verifyDedupSpec spec batchLeaves 0 = .ok result)
    (hbatch : validateBatchLeaves batchLeaves 0 = .ok (leaves, n))
    (hxs : xs.leaves = leaves.map fun leaf => leaf.array.toLeaf) (hdedup : spec.dedupFn = none)
    (hgather : spec.gatherFn = none) (fn : RowFn T U DType Nat) :
    ∃ ys, dedupPath spec fn.toElementFn xs = .ok ys ∧ Mapped fn.toElementFn n xs ys := by
  obtain ⟨_, n', -, hbatch', hstructure, -⟩ := verifyDedupSpec_ok hverify
  rw [hbatch] at hbatch'
  cases hbatch'
  obtain ⟨hne, hn, -⟩ := validateBatchLeaves_ok hbatch
  have hvalid := checkSpecStructure_ok hstructure
  obtain ⟨k, hunique, hk⟩ := hvalid.unique_shape
  -- there is a row, and its slot is below `k`
  have hpos : 0 < k := by
    have hslot := hvalid.map_bounds 0 (Nat.pos_of_ne_zero hn)
    omega
  obtain ⟨kBucket, hbucket⟩ : ∃ kBucket, getKBucket spec.k = .ok kBucket :=
    ⟨_, if_neg (by omega)⟩
  have hle : k ≤ kBucket := by
    rw [hk] at hbucket
    exact le_kBucket hbucket
  have huniqueEntries := entries_of_shape hunique
  have hmapEntries := entries_of_shape hvalid.map_shape
  have hlength : (padEdge spec.uniqueIndices.array.entries (kBucket - k)).length = kBucket := by
    rw [length_padEdge, huniqueEntries, length_map, length_range]
    omega
  have hxsne : xs.leaves ≠ [] := by
    rw [hxs]
    exact fun hnil => hne (map_eq_nil_iff.mp hnil)
  have hchunk := isBatch_takeRows hxsne (padEdge spec.uniqueIndices.array.entries (kBucket - k))
  rw [hlength] at hchunk
  have hnone : ∀ b : Int, none = some b → (kBucket : Int) ≤ b := fun b hb => nomatch hb
  obtain ⟨ys, hys, hmapped⟩ : ∃ ys, chunkedMap fn.toElementFn _ none = some ys ∧
      Mapped fn.toElementFn kBucket _ ys := chunkedMap_whole hchunk hnone
  refine ⟨takeRows ys spec.indexMap.array.entries, ?_, ?_⟩
  · refine Results.bind_eq_ok.mpr ⟨_, Results.bind_eq_ok.mpr ⟨kBucket, hbucket, rfl⟩, ?_⟩
    refine axisDispatch_default ?_ ?_ ?_
    · show spec.dedupFn.getD defaultDedupFn = _
      rw [hdedup]
      rfl
    · show spec.gatherFn.getD defaultGatherFn = _
      rw [hgather]
      rfl
    · show chunkedMap _ (takeRows xs (padEdge _ (kBucket - spec.k.toNat))) none = _
      rw [hk, Int.toNat_natCast]
      exact hys
  · refine mapped_takeRows hmapped ?_ fun i hi => ?_
    · rw [hmapEntries, length_map, length_range]
    obtain ⟨hslot, hslotlt⟩ := hvalid.map_bounds i hi
    obtain ⟨slot, hslotEq⟩ := Int.eq_ofNat_of_zero_le hslot
    obtain ⟨hcanon, -⟩ := hvalid.unique_bounds slot (by omega)
    refine ⟨slot, ?_, by omega, ?_⟩
    · rw [hmapEntries, getElem?_map, getElem?_range hi]
      exact congrArg some hslotEq
    have hget : (padEdge spec.uniqueIndices.array.entries (kBucket - k))[slot]? =
        some (spec.canon i : Int) := by
      rw [padEdge_getElem? _ (by rw [huniqueEntries, length_map, length_range]; omega),
        huniqueEntries, getElem?_map, getElem?_range (by omega)]
      show some (spec.uniqueIndices.array.get [slot]) = _
      rw [DedupSpec.canon, hslotEq]
      exact congrArg some (Int.toNat_of_nonneg hcanon).symm
    rw [element_takeRows hget]
    exact fn.congr _ _ (sameTree_canon hverify hbatch hxs hi)

end

/-- **The path through a spec of duplicates is the plain one**: the exact stage is exact where the
first positions are in reach of an `int32`, a spec is accepted just when every row has the entries
of its canonical row, and what is accepted maps a function over the rows. -/
theorem dedup_path {T U : Type} [Treedef T] [ListTreedef U] [DecidableEq U] :
    (∀ (rows : List (List Byte)) (elementWidth : Nat), rows ≠ [] → FirstBelow rows →
      Exact rows (exactStage rows elementWidth)) ∧
    (∀ (spec : DedupSpec (DedupFn T DType Nat) (DedupFn U DType Nat)) (batchLeaves : List BatchLeaf)
      (axis : Int) (n : Nat) (leaves : List TypedLeaf),
      validateBatchLeaves batchLeaves axis = .ok (leaves, n) → Supported leaves →
      checkSpecStructure spec n = .ok () →
      ((∃ result, verifyDedupSpec spec batchLeaves axis = .ok result) ↔
        ∀ i < n, ∀ leaf ∈ leaves,
          (leaf.row axis.toNat i).Same (leaf.row axis.toNat (spec.canon i)))) ∧
    (∀ (spec : DedupSpec (DedupFn T DType Nat) (DedupFn U DType Nat)) (batchLeaves : List BatchLeaf)
      (n : Nat) (leaves : List TypedLeaf) (xs : Tree T DType Nat) (fn : RowFn T U DType Nat),
      validateBatchLeaves batchLeaves 0 = .ok (leaves, n) →
      (∃ result, verifyDedupSpec spec batchLeaves 0 = .ok result) →
      (xs.leaves = leaves.map fun leaf => leaf.array.toLeaf) →
      spec.dedupFn = none → spec.gatherFn = none →
      ∃ ys, dedupPath spec fn.toElementFn xs = .ok ys ∧ Mapped fn.toElementFn n xs ys) := by
  refine ⟨?_, ?_, ?_⟩
  · intro rows elementWidth _ hfirst
    exact exactStage_exact hfirst elementWidth
  · intro spec batchLeaves axis n leaves hbatch hkinds hspec
    exact verifyDedupSpec_iff hbatch hkinds hspec
  · rintro spec batchLeaves n leaves xs fn hbatch ⟨result, hverify⟩ hxs hdedup hgather
    exact dedupPath_mapped hverify hbatch hxs hdedup hgather fn

/-! ### Three rows, two of them equal -/

namespace Sample

def int32Type : DType := .integer "int32" true 32

/-- An `int32` array of these entries. -/
def column (entries : List Nat) (h : ∀ e ∈ entries, e < 2 ^ 32) : BatchArray where
  dtype := int32Type
  array := { shape := [entries.length], get := fun idx => entries.getD (idx.headD 0) 0 }
  lt_card idx := by
    show entries.getD (idx.headD 0) 0 < 2 ^ 32
    rw [List.getD_eq_getElem?_getD]
    cases hget : entries[idx.headD 0]? with
    | none => exact Nat.two_pow_pos 32
    | some e => exact h e (List.mem_of_getElem? hget)

def rows : BatchArray := column [5, 7, 5] (by decide)

def xs : Tree Nat DType Nat := PyTree.ofList [rows.toLeaf]

def indices (entries : List Int) : IndexArray where
  isNdarray := true
  isInteger := true
  array := { shape := [entries.length], get := fun idx => entries.getD (idx.headD 0) 0 }

def spec : DedupSpec (DedupFn Nat DType Nat) (DedupFn Nat DType Nat) where
  axisName := "batch"
  uniqueIndices := indices [0, 1]
  indexMap := indices [0, 1, 0]
  k := 2

def value (x : Tree Nat DType Nat) : Nat :=
  match x.leaves with
  | leaf :: _ => if leaf.array.shape = [] then leaf.array.get [] else 0
  | [] => 0

theorem value_congr {x x' : Tree Nat DType Nat} (h : SameTree x x') : value x = value x' := by
  unfold value
  have hleaves := h.leaves
  generalize x.leaves = l at hleaves
  generalize x'.leaves = l' at hleaves
  cases hleaves with
  | nil => rfl
  | cons hab _ =>
    dsimp only
    rw [hab.2.shape]
    split
    · rename_i hshape
      refine hab.2.entry [] ?_
      rw [hshape]
      exact .nil
    · rfl

def double : RowFn Nat Nat DType Nat where
  out := PyTree.ofList [⟨[], int32Type⟩]
  apply x := PyTree.ofList [⟨int32Type, NdArray.full [] (2 * value x % 2 ^ 32)⟩]
  apply_spec _ := rfl
  congr x x' h := by
    rw [value_congr h]
    exact ⟨rfl, .cons ⟨rfl, NdArray.Same.refl _⟩ .nil⟩

def bytes : List (List Byte) := [[0], [1], [0]]

theorem dedup_path_rows : Exact bytes (exactStage bytes 1) ∧
    (∀ i < 3, ∀ leaf ∈ [TypedLeaf.mk true rows], (leaf.row 0 i).Same (leaf.row 0 (spec.canon i))) ∧
    ∃ ys, dedupPath spec double.toElementFn xs = .ok ys ∧ Mapped double.toElementFn 3 xs ys := by
  have hverify : ∃ result, verifyDedupSpec spec [.host rows] 0 = .ok result := ⟨⟨3, 2, 3⟩, by rfl⟩
  have hbatch : validateBatchLeaves [.host rows] 0 = .ok ([⟨true, rows⟩], 3) := by rfl
  have hkinds : Supported [⟨true, rows⟩] := by
    intro leaf hleaf
    obtain rfl := List.mem_singleton.mp hleaf
    exact ⟨.plain 32, rfl⟩
  obtain ⟨hexact, haccept, hpath⟩ := dedup_path (T := Nat) (U := Nat)
  refine ⟨hexact bytes 1 (List.cons_ne_nil _ _) ?_, ?_, ?_⟩
  · have hlength : bytes.length ≤ 2 ^ 31 := by decide
    exact firstBelow_of_length hlength
  · exact (haccept spec [.host rows] 0 3 _ hbatch hkinds (by rfl)).mp hverify
  · exact hpath spec [.host rows] 3 _ xs double hbatch hverify rfl rfl rfl

end Sample

end Xtrax.DedupSynthesis
