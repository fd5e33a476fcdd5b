import Xtrax.NdArray
import Xtrax.PyTree

/-!
# Mapping in chunks

`chunkedMap` maps a function over the leading axis of a tree of arrays: at one element by calling
it, otherwise by `jax.vmap` or `jax.lax.map`, each of which is the function at every element.
Output leaves without entries are left out and rebuilt, and a last chunk of one element is split
off.  On every route the result holds at position `i` what the function returns for the element
`i` (`chunkedMap_mapped`).
-/

namespace Xtrax.ChunkedMap

open List

/-- Dtypes with the value that `jnp.zeros` fills in; typed PRNG keys have an extended one. -/
class Dtypes (D V : Type) where
  zero : D → V
  isExtended : D → Bool

structure Leaf (D V : Type) where
  dtype : D
  array : NdArray V

/-- `jax.ShapeDtypeStruct`. -/
structure Spec (D : Type) where
  shape : List Nat
  dtype : D

variable {D V T U : Type} [Treedef T] [ListTreedef U] [Dtypes D V]

def Leaf.spec (leaf : Leaf D V) : Spec D := ⟨leaf.array.shape, leaf.dtype⟩

/-- `math.prod(s.shape) == 0`. -/
def Spec.isEmpty (s : Spec D) : Bool := s.shape.prod = 0

/-- A tree of arrays. -/
abbrev Tree (T D V : Type) [Treedef T] := PyTree T (Leaf D V)

/-- A function from one element to a tree of arrays of fixed shapes and dtypes. -/
structure ElementFn (X U D V : Type) [Treedef U] where
  /-- `jax.eval_shape`. -/
  out : PyTree U (Spec D)
  apply : X → Tree U D V
  apply_spec : ∀ x, (apply x).map Leaf.spec = out

/-! ### Batches -/

/-- `jax.tree.leaves(xs)[0].shape[0]`. -/
def leadLength (xs : Tree T D V) : Option Nat :=
  xs.leaves.head?.bind fun leaf => leaf.array.shape.head?

/-- Every leaf has `n` rows. -/
def hasLength (n : Nat) (xs : Tree T D V) : Bool :=
  xs.leaves.all fun leaf => leaf.array.shape.head? = some n

/-- One element of a batch. -/
def element (xs : Tree T D V) (i : Nat) : Tree T D V :=
  xs.map fun leaf => { leaf with array := leaf.array.row i }

/-- `leaf[start:start + length]` at every leaf. -/
def slice (xs : Tree T D V) (start length : Nat) : Tree T D V :=
  xs.map fun leaf => { leaf with array := leaf.array.slice start length }

/-- What one output leaf is at every element, stacked. -/
def stackLeaf (n : Nat) (s : Spec D) (rows : Nat → Option (Leaf D V)) : Leaf D V where
  dtype := s.dtype
  array := NdArray.stack s.shape n
    (fun i => ((rows i).map Leaf.array).getD (NdArray.full s.shape (Dtypes.zero s.dtype)))
    (Dtypes.zero s.dtype)

/-- The function at every element. -/
def mapElements (fn : ElementFn (Tree T D V) U D V) (n : Nat) (xs : Tree T D V) : Tree U D V where
  treedef := fn.out.treedef
  leaves := fn.out.leaves.mapIdx fun j s =>
    stackLeaf n s fun i => (fn.apply (element xs i)).leaves[j]?
  length_leaves := by rw [List.length_mapIdx, fn.out.length_leaves]

/-- `jax.vmap(fn)(xs)`. -/
def vmap (fn : ElementFn (Tree T D V) U D V) (xs : Tree T D V) : Option (Tree U D V) :=
  match leadLength xs with
  | none => none
  | some n => if hasLength n xs then some (mapElements fn n xs) else none

/-- `jax.lax.map(fn, xs, batch_size=batch_size)`. -/
def laxMap (fn : ElementFn (Tree T D V) U D V) (xs : Tree T D V) (batchSize : Option Int) :
    Option (Tree U D V) :=
  if ∃ b, batchSize = some b ∧ b < 1 then none else vmap fn xs

def applySize1 (fn : ElementFn (Tree T D V) U D V) (xs : Tree T D V) : Option (Tree U D V) :=
  if hasLength 1 xs then
    some ((fn.apply (element xs 0)).map fun leaf => { leaf with array := leaf.array.expandDims })
  else none

/-! ### Output leaves without entries -/

def emptyIndices (out : PyTree U (Spec D)) : List Nat :=
  (List.range out.leaves.length).filter fun i => out.leaves[i]?.any Spec.isEmpty

def keptIndices (out : PyTree U (Spec D)) : List Nat :=
  (List.range out.leaves.length).filter fun i => i ∉ emptyIndices out

variable (V) in
/-- `_split_zero_size_outputs` gives the empty leaves. -/
def splits (out : PyTree U (Spec D)) : Bool :=
  !(emptyIndices out).isEmpty &&
    !(emptyIndices out).any fun i => out.leaves[i]?.any fun s => Dtypes.isExtended V s.dtype

/-- `[flat[i] for i in kept]`. -/
def select {α : Type} (kept : List Nat) (flat : List α) : List α := kept.filterMap (flat[·]?)

theorem getElem?_select {α : Type} {kept : List Nat} {flat : List α}
    (h : ∀ i ∈ kept, i < flat.length) (k : Nat) :
    (select kept flat)[k]? = kept[k]?.bind (flat[·]?) := by
  induction kept generalizing k with
  | nil => rfl
  | cons i kept ih =>
    have hlt : i < flat.length := h i mem_cons_self
    have hi : flat[i]? = some flat[i] := getElem?_eq_getElem hlt
    rw [select, filterMap_cons_some hi]
    cases k with
    | zero => exact hi.symm
    | succ k => exact ih (fun j hj => h j (mem_cons_of_mem _ hj)) k

theorem map_select {α β : Type} (f : α → β) (kept : List Nat) (flat : List α) :
    (select kept flat).map f = select kept (flat.map f) := by
  rw [select, select, map_filterMap]
  refine filterMap_congr fun i _ => ?_
  rw [getElem?_map]

def keepNonempty (fn : ElementFn (Tree T D V) U D V) : ElementFn (Tree T D V) U D V where
  out := PyTree.ofList (select (keptIndices fn.out) fn.out.leaves)
  apply x := PyTree.ofList (select (keptIndices fn.out) (fn.apply x).leaves)
  apply_spec x := by
    have hleaves : (select (keptIndices fn.out) (fn.apply x).leaves).map Leaf.spec =
        select (keptIndices fn.out) fn.out.leaves := by
      rw [map_select]
      exact congrArg _ (congrArg PyTree.leaves (fn.apply_spec x))
    refine PyTree.ext ?_ hleaves
    show ListTreedef.list _ = ListTreedef.list _
    rw [← hleaves, List.length_map]

/-- `jnp.zeros((n, *s.shape), s.dtype)`. -/
def zeros (n : Nat) (s : Spec D) : Leaf D V where
  dtype := s.dtype
  array := NdArray.full (n :: s.shape) (Dtypes.zero s.dtype)

/-- The leaves in their places, the empty ones rebuilt. -/
def rebuild (n : Nat) (out : PyTree U (Spec D)) (keptYs : List (Leaf D V)) : Tree U D V where
  treedef := out.treedef
  leaves := out.leaves.mapIdx fun i s =>
    if i ∈ emptyIndices out then zeros n s
    else (((keptIndices out).zip keptYs).lookup i).getD (zeros n s)
  length_leaves := by rw [List.length_mapIdx, out.length_leaves]

/-- `_chunked_map_without_zero_size`, by what `chunked_map` gives for `keep_nonempty`. -/
def chunkedMapWithoutZeroSize (n : Nat) (out : PyTree U (Spec D)) (keptYs : Option (Tree U D V)) :
    Option (Tree U D V) :=
  if keptIndices out = [] then some (rebuild n out [])
  else keptYs.map fun keptYs => rebuild n out keptYs.leaves

omit [Dtypes D V] in
theorem emptyIndices_keepNonempty (fn : ElementFn (Tree T D V) U D V) :
    emptyIndices (keepNonempty fn).out = [] := by
  refine filter_eq_nil_iff.mpr fun k _ hempty => ?_
  have hkept : ∀ i ∈ keptIndices fn.out, i < fn.out.leaves.length := fun i hi =>
    mem_range.mp (mem_filter.mp hi).1
  have hget : (keepNonempty fn).out.leaves[k]? = (keptIndices fn.out)[k]?.bind (fn.out.leaves[·]?) :=
    getElem?_select hkept k
  rw [hget] at hempty
  cases hk : (keptIndices fn.out)[k]? with
  | none =>
    rw [hk] at hempty
    cases hempty
  | some i =>
    rw [hk] at hempty
    have hi : i ∈ keptIndices fn.out := mem_of_getElem? hk
    obtain ⟨hrange, hnot⟩ := mem_filter.mp hi
    exact of_decide_eq_true hnot (mem_filter.mpr ⟨hrange, hempty⟩)

/-! ### The routes -/

section

variable [DecidableEq U]

/-- `jnp.concatenate([bulk, tail], axis=0)` at every leaf. -/
def concatenate (bulk tail : Tree U D V) : Option (Tree U D V) :=
  if h : bulk.treedef = tail.treedef then
    some (bulk.zipWith (fun a b => { a with array := a.array.append b.array }) tail h)
  else none

/-- `chunked_map` from the test for `batch_size=1` on. -/
def chunkedMapBatches (fn : ElementFn (Tree T D V) U D V) (n : Nat) (xs : Tree T D V) (b : Int) :
    Option (Tree U D V) :=
  if b = 1 then laxMap fn xs none
  else if 1 < b ∧ (n : Int) % b = 1 then
    match laxMap fn (slice xs 0 (n - 1)) (some b), applySize1 fn (slice xs (n - 1) 1) with
    | some prefixYs, some lastY => concatenate prefixYs lastY
    | _, _ => none
  else laxMap fn xs (some b)

def chunkedMap (fn : ElementFn (Tree T D V) U D V) (xs : Tree T D V) (batchSize : Option Int) :
    Option (Tree U D V) :=
  match leadLength xs with
  | none => none
  | some n =>
    if n = 1 then applySize1 fn xs
    else
      match batchSize with
      | none => vmap fn xs
      | some b =>
        if (n : Int) ≤ b then vmap fn xs
        else if splits V fn.out then
          chunkedMapWithoutZeroSize n fn.out (chunkedMap (keepNonempty fn) xs (some b))
        else chunkedMapBatches fn n xs b
termination_by (emptyIndices fn.out).length
decreasing_by
  rename_i hsplits
  rw [emptyIndices_keepNonempty]
  refine List.length_pos_iff.mpr fun hnil => ?_
  rw [splits, hnil] at hsplits
  cases hsplits

end

/-! ### What is at each position -/

/-- Every leaf holds at position `i` the leaf that the function returns for the element `i`. -/
structure Mapped (fn : ElementFn (Tree T D V) U D V) (n : Nat) (xs : Tree T D V)
    (ys : Tree U D V) : Prop where
  treedef : ys.treedef = fn.out.treedef
  leaf : ∀ (j : Nat) (s : Spec D), fn.out.leaves[j]? = some s →
    ∃ y : Leaf D V, ys.leaves[j]? = some y ∧ y.dtype = s.dtype ∧ y.array.shape = n :: s.shape ∧
      ∀ i < n, ∃ v : Leaf D V, (fn.apply (element xs i)).leaves[j]? = some v ∧
        v.dtype = s.dtype ∧ (y.array.row i).Same v.array

/-- A batch of `n` elements: there is a leaf, and every leaf has `n` rows. -/
structure IsBatch (n : Nat) (xs : Tree T D V) : Prop where
  nonempty : xs.leaves ≠ []
  length : hasLength n xs = true

variable {fn : ElementFn (Tree T D V) U D V} {n : Nat} {xs : Tree T D V}

omit [Dtypes D V] in
theorem apply_leaf {j : Nat} {s : Spec D} (h : fn.out.leaves[j]? = some s) (x : Tree T D V) :
    ∃ v, (fn.apply x).leaves[j]? = some v ∧ v.array.shape = s.shape ∧ v.dtype = s.dtype := by
  have hspec : ((fn.apply x).leaves.map Leaf.spec)[j]? = some s := by
    have hleaves := congrArg PyTree.leaves (fn.apply_spec x)
    rw [show (fn.apply x).leaves.map Leaf.spec = fn.out.leaves from hleaves]
    exact h
  rw [getElem?_map] at hspec
  obtain ⟨v, hv, rfl⟩ := Option.map_eq_some_iff.mp hspec
  exact ⟨v, hv, rfl, rfl⟩

theorem mapElements_mapped : Mapped fn n xs (mapElements fn n xs) := by
  refine ⟨rfl, fun j s hs => ?_⟩
  refine ⟨stackLeaf n s fun i => (fn.apply (element xs i)).leaves[j]?, ?_, rfl, rfl, fun i _ => ?_⟩
  · rw [mapElements, getElem?_mapIdx, hs]
    rfl
  · obtain ⟨v, hv, hshape, hdtype⟩ := apply_leaf hs (element xs i)
    refine ⟨v, hv, hdtype, hshape.symm, fun idx _ => ?_⟩
    show (((fn.apply (element xs i)).leaves[j]?.map Leaf.array).getD _).get idx = v.array.get idx
    rw [hv]
    rfl

omit [Dtypes D V] in
theorem IsBatch.leadLength (h : IsBatch n xs) : leadLength xs = some n := by
  have hall := h.length
  unfold hasLength at hall
  unfold ChunkedMap.leadLength
  cases hleaves : xs.leaves with
  | nil => exact absurd hleaves h.nonempty
  | cons leaf leaves =>
    rw [hleaves] at hall
    have hfirst := all_eq_true.mp hall leaf mem_cons_self
    exact of_decide_eq_true hfirst

omit [Dtypes D V] in
theorem IsBatch.slice (h : IsBatch n xs) (start length : Nat) :
    IsBatch length (slice xs start length) := by
  refine ⟨fun hnil => h.nonempty (map_eq_nil_iff.mp hnil), all_eq_true.mpr ?_⟩
  intro leaf hleaf
  obtain ⟨leaf, -, rfl⟩ := mem_map.mp hleaf
  exact decide_eq_true rfl

theorem vmap_mapped (h : IsBatch n xs) : ∃ ys, vmap fn xs = some ys ∧ Mapped fn n xs ys := by
  refine ⟨mapElements fn n xs, ?_, mapElements_mapped⟩
  rw [vmap, h.leadLength]
  exact if_pos h.length

theorem laxMap_mapped (h : IsBatch n xs) {batchSize : Option Int}
    (hb : ∀ b, batchSize = some b → 1 ≤ b) :
    ∃ ys, laxMap fn xs batchSize = some ys ∧ Mapped fn n xs ys := by
  have hpos : ¬ ∃ b, batchSize = some b ∧ b < 1 := by
    rintro ⟨b, heq, hlt⟩
    have hle := hb b heq
    omega
  rw [laxMap, if_neg hpos]
  exact vmap_mapped h

omit [Dtypes D V] in
theorem applySize1_mapped (h : IsBatch 1 xs) :
    ∃ ys, applySize1 fn xs = some ys ∧ Mapped fn 1 xs ys := by
  refine ⟨_, if_pos h.length, ?_, fun j s hs => ?_⟩
  · exact congrArg PyTree.treedef (fn.apply_spec (element xs 0))
  · obtain ⟨v, hv, hshape, hdtype⟩ := apply_leaf hs (element xs 0)
    refine ⟨{ v with array := v.array.expandDims }, ?_, hdtype, ?_, fun i hi => ?_⟩
    · show ((fn.apply (element xs 0)).leaves.map _)[j]? = _
      rw [getElem?_map, hv]
      rfl
    · show 1 :: v.array.shape = 1 :: s.shape
      rw [hshape]
    · obtain rfl : i = 0 := by omega
      exact ⟨v, hv, hdtype, NdArray.Same.refl _⟩

omit [Dtypes D V] in
theorem element_slice (start length i : Nat) :
    element (slice xs start length) i = element xs (start + i) := by
  refine PyTree.ext rfl ?_
  show (xs.leaves.map _).map _ = xs.leaves.map _
  rw [map_map]
  rfl

section

variable [DecidableEq U]

omit [Dtypes D V] in
theorem concatenate_mapped {m : Nat} {bulk tail : Tree U D V}
    (hbulk : Mapped fn m (slice xs 0 m) bulk) (htail : Mapped fn 1 (slice xs m 1) tail) :
    ∃ ys, concatenate bulk tail = some ys ∧ Mapped fn (m + 1) xs ys := by
  have htreedef : bulk.treedef = tail.treedef := hbulk.treedef.trans htail.treedef.symm
  refine ⟨_, dif_pos htreedef, hbulk.treedef, fun j s hs => ?_⟩
  obtain ⟨b, hb, hdtype, hbshape, hbrows⟩ := hbulk.leaf j s hs
  obtain ⟨t, ht, -, htshape, htrows⟩ := htail.leaf j s hs
  refine ⟨{ b with array := b.array.append t.array }, ?_, hdtype, ?_, fun i hi => ?_⟩
  · show (zipWith _ bulk.leaves tail.leaves)[j]? = _
    rw [getElem?_zipWith, hb, ht]
  · show (b.array.shape.headD 0 + t.array.shape.headD 0) :: b.array.shape.tail = _
    rw [hbshape, htshape]
    rfl
  · by_cases hlt : i < m
    · obtain ⟨v, hv, hvdtype, hsame⟩ := hbrows i hlt
      rw [element_slice, Nat.zero_add] at hv
      refine ⟨v, hv, hvdtype, ?_⟩
      rw [NdArray.row_append_left (by rw [hbshape]; exact hlt)]
      exact hsame
    · -- the last row is that of the tail
      obtain rfl : i = m := by omega
      obtain ⟨v, hv, hvdtype, hsame⟩ := htrows 0 Nat.one_pos
      rw [element_slice, Nat.add_zero] at hv
      refine ⟨v, hv, hvdtype, ?_⟩
      have hhead : b.array.shape.headD 0 = i := by
        rw [hbshape]
        rfl
      rw [NdArray.row_append_right hhead.le (by rw [hbshape, htshape]; rfl), hhead, Nat.sub_self]
      exact hsame

theorem chunkedMapBatches_mapped (h : IsBatch n xs) {b : Int} (hb : 1 ≤ b) (hlt : b < n) :
    ∃ ys, chunkedMapBatches fn n xs b = some ys ∧ Mapped fn n xs ys := by
  unfold chunkedMapBatches
  by_cases hone : b = 1
  · rw [if_pos hone]
    exact laxMap_mapped h fun b hb => by cases hb
  rw [if_neg hone]
  by_cases hpeel : 1 < b ∧ (n : Int) % b = 1
  · rw [if_pos hpeel]
    have hbatch : ∀ b', some b = some b' → 1 ≤ b' := fun b' hb' => Option.some.inj hb' ▸ hb
    obtain ⟨bulk, hbulk, hbulkMapped⟩ : ∃ ys, laxMap fn (slice xs 0 (n - 1)) (some b) = some ys ∧
        Mapped fn (n - 1) (slice xs 0 (n - 1)) ys := laxMap_mapped (h.slice 0 (n - 1)) hbatch
    obtain ⟨tail, htail, htailMapped⟩ : ∃ ys, applySize1 fn (slice xs (n - 1) 1) = some ys ∧
        Mapped fn 1 (slice xs (n - 1) 1) ys := applySize1_mapped (h.slice (n - 1) 1)
    rw [hbulk, htail]
    obtain ⟨ys, hys, hmapped⟩ := concatenate_mapped hbulkMapped htailMapped
    refine ⟨ys, hys, ?_⟩
    rwa [Nat.sub_add_cancel (by omega)] at hmapped
  · rw [if_neg hpeel]
    exact laxMap_mapped h fun b' hb' => Option.some.inj hb' ▸ hb

end

theorem lookup_zip {α : Type} {kept : List Nat} {ys : List α} (hnodup : kept.Nodup) {k i : Nat}
    {y : α} (hk : kept[k]? = some i) (hy : ys[k]? = some y) :
    (kept.zip ys).lookup i = some y := by
  induction kept generalizing ys k with
  | nil => cases hk
  | cons a kept ih =>
    obtain ⟨hnot, hrest⟩ := nodup_cons.mp hnodup
    cases ys with
    | nil => cases hy
    | cons b ys =>
      rw [zip_cons_cons, lookup_cons]
      cases k with
      | zero =>
        obtain rfl := Option.some.inj hk
        obtain rfl := Option.some.inj hy
        simp
      | succ k =>
        have hmem : i ∈ kept := mem_of_getElem? hk
        have hne : (i == a) = false := by
          rw [beq_eq_false_iff_ne]
          rintro rfl
          exact hnot hmem
        rw [hne]
        exact ih hrest hk hy

omit [Dtypes D V] in
theorem mem_emptyIndices {j : Nat} {s : Spec D} (hs : fn.out.leaves[j]? = some s) :
    j ∈ emptyIndices fn.out ↔ 0 ∈ s.shape := by
  have hlt : j < fn.out.leaves.length := (List.getElem?_eq_some_iff.mp hs).1
  rw [emptyIndices, List.mem_filter, hs, and_iff_right (List.mem_range.mpr hlt)]
  show decide (s.shape.prod = 0) = true ↔ _
  rw [decide_eq_true_iff]
  exact List.prod_eq_zero_iff

omit [Dtypes D V] in
theorem nodup_keptIndices (out : PyTree U (Spec D)) : (keptIndices out).Nodup :=
  nodup_range.filter _

theorem rebuild_mapped {keptYs : List (Leaf D V)}
    (h : keptIndices fn.out = [] ∨ ∃ ys : Tree U D V, Mapped (keepNonempty fn) n xs ys ∧
      keptYs = ys.leaves) : Mapped fn n xs (rebuild n fn.out keptYs) := by
  refine ⟨rfl, fun j s hs => ?_⟩
  have hlt : j < fn.out.leaves.length := (List.getElem?_eq_some_iff.mp hs).1
  have hget : (rebuild n fn.out keptYs).leaves[j]? =
      some (if j ∈ emptyIndices fn.out then zeros n s
        else (((keptIndices fn.out).zip keptYs).lookup j).getD (zeros n s)) := by
    rw [rebuild, List.getElem?_mapIdx, hs]
    rfl
  rw [hget]
  by_cases hempty : j ∈ emptyIndices fn.out
  · rw [if_pos hempty]
    refine ⟨zeros n s, rfl, rfl, rfl, fun i _ => ?_⟩
    obtain ⟨v, hv, hshape, hdtype⟩ := apply_leaf hs (element xs i)
    refine ⟨v, hv, hdtype, NdArray.same_of_zero hshape.symm ?_⟩
    rw [hshape]
    exact (mem_emptyIndices hs).mp hempty
  · rw [if_neg hempty]
    have hmem : j ∈ keptIndices fn.out :=
      List.mem_filter.mpr ⟨List.mem_range.mpr hlt, decide_eq_true hempty⟩
    rcases h with hnil | ⟨ys, hmapped, rfl⟩
    · rw [hnil] at hmem
      exact absurd hmem List.not_mem_nil
    · obtain ⟨k, hk⟩ := List.mem_iff_getElem?.mp hmem
      have hselect : ∀ {α : Type} (flat : List α), flat.length = fn.out.leaves.length →
          (select (keptIndices fn.out) flat)[k]? = flat[j]? := by
        intro α flat hlen
        rw [getElem?_select (fun i hi => ?_), hk]
        · rfl
        · rw [hlen]
          exact List.mem_range.mp (List.mem_filter.mp hi).1
      obtain ⟨y, hy, hdtype, hshape, hrows⟩ := hmapped.leaf k s ((hselect _ rfl).trans hs)
      rw [lookup_zip (nodup_keptIndices _) hk hy]
      refine ⟨y, rfl, hdtype, hshape, fun i hi => ?_⟩
      obtain ⟨v, hv, hvdtype, hsame⟩ := hrows i hi
      have hlen : (fn.apply (element xs i)).leaves.length = fn.out.leaves.length := by
        have hleaves := congrArg (fun t => t.leaves.length) (fn.apply_spec (element xs i))
        rw [← hleaves]
        exact (List.length_map _).symm
      exact ⟨v, (hselect _ hlen).symm.trans hv, hvdtype, hsame⟩

variable [DecidableEq U]

/-- One element, no batch size, or a batch that holds every element: no chunks are made. -/
theorem chunkedMap_whole (h : IsBatch n xs) {batchSize : Option Int}
    (hwhole : ∀ b, batchSize = some b → (n : Int) ≤ b) :
    ∃ ys, chunkedMap fn xs batchSize = some ys ∧ Mapped fn n xs ys := by
  rw [chunkedMap, h.leadLength]
  dsimp only
  by_cases hone : n = 1
  · subst hone
    rw [if_pos rfl]
    exact applySize1_mapped h
  rw [if_neg hone]
  cases batchSize with
  | none => exact vmap_mapped h
  | some b =>
    dsimp only
    rw [if_pos (hwhole b rfl)]
    exact vmap_mapped h

theorem exists_chunk {batchSize : Option Int} (hb : ∀ b, batchSize = some b → 1 ≤ b)
    (h : ¬ ∀ b, batchSize = some b → (n : Int) ≤ b) :
    ∃ b, batchSize = some b ∧ 1 ≤ b ∧ b < n ∧ n ≠ 1 := by
  push Not at h
  obtain ⟨b, hbatch, hlt⟩ := h
  have hpos := hb b hbatch
  exact ⟨b, hbatch, hpos, hlt, by omega⟩

theorem chunkedMap_unsplit (h : IsBatch n xs) {batchSize : Option Int}
    (hb : ∀ b, batchSize = some b → 1 ≤ b) (hsplits : splits V fn.out = false) :
    ∃ ys, chunkedMap fn xs batchSize = some ys ∧ Mapped fn n xs ys := by
  by_cases hwhole : ∀ b, batchSize = some b → (n : Int) ≤ b
  · exact chunkedMap_whole h hwhole
  obtain ⟨b, rfl, hpos, hlt, hone⟩ := exists_chunk hb hwhole
  rw [chunkedMap, h.leadLength]
  dsimp only
  rw [if_neg hone, if_neg (not_le.mpr hlt), if_neg (by rw [hsplits]; exact Bool.false_ne_true)]
  exact chunkedMapBatches_mapped h hpos hlt

/-- **Mapping in chunks is mapping**: at position `i` of every leaf is the leaf of what the
function returns for the element `i`. -/
theorem chunkedMap_mapped (h : IsBatch n xs) {batchSize : Option Int}
    (hb : ∀ b, batchSize = some b → 1 ≤ b) :
    ∃ ys, chunkedMap fn xs batchSize = some ys ∧ Mapped fn n xs ys := by
  cases hsplits : splits V fn.out with
  | false => exact chunkedMap_unsplit h hb hsplits
  | true =>
    have hinner : splits V (keepNonempty fn).out = false := by
      rw [splits, emptyIndices_keepNonempty]
      rfl
    by_cases hwhole : ∀ b, batchSize = some b → (n : Int) ≤ b
    · exact chunkedMap_whole h hwhole
    obtain ⟨b, rfl, -, hlt, hone⟩ := exists_chunk hb hwhole
    rw [chunkedMap, h.leadLength]
    dsimp only
    rw [if_neg hone, if_neg (not_le.mpr hlt), if_pos hsplits]
    obtain ⟨ys, hys, hmapped⟩ : ∃ ys, chunkedMap (keepNonempty fn) xs (some b) = some ys ∧
        Mapped (keepNonempty fn) n xs ys := chunkedMap_unsplit h hb hinner
    rw [hys, chunkedMapWithoutZeroSize]
    by_cases hnil : keptIndices fn.out = []
    · rw [if_pos hnil]
      exact ⟨_, rfl, rebuild_mapped (.inl hnil)⟩
    · rw [if_neg hnil]
      exact ⟨_, rfl, rebuild_mapped (.inr ⟨ys, hmapped, rfl⟩)⟩

/-! ### Three elements in chunks of two -/

namespace Sample

/-- Lists of leaves, by their lengths. -/
instance : ListTreedef Nat where
  numLeaves n := n
  list n := n
  numLeaves_list _ := rfl

instance : Dtypes Unit Int where
  zero _ := 0
  isExtended _ := false

def elements : Tree Nat Unit Int :=
  PyTree.ofList [⟨(), { shape := [3], get := fun idx => idx.headD 0 }⟩]

def double : ElementFn (Tree Nat Unit Int) Nat Unit Int where
  out := PyTree.ofList [⟨[], ()⟩, ⟨[0], ()⟩]
  apply x := PyTree.ofList
    [⟨(), NdArray.full [] (2 * ((x.leaves.head?.map fun leaf => leaf.array.get []).getD 0))⟩,
      ⟨(), NdArray.full [0] 0⟩]
  apply_spec _ := rfl

theorem chunkedMap_elements : ∃ ys, chunkedMap double elements (some 2) = some ys ∧
    Mapped double 3 elements ys := by
  have hbatch : IsBatch 3 elements := ⟨List.cons_ne_nil _ _, by decide⟩
  exact chunkedMap_mapped hbatch fun b hb => Option.some.inj hb ▸ by decide

end Sample

end Xtrax.ChunkedMap
