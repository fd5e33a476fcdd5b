import Mathlib.Algebra.Order.Ring.Int
import Mathlib.Tactic.Linarith
import Xtrax.ExportComposition
import Xtrax.Results

/-!
# The exported callable against the plan's meaning

A function that returns at every element is run to the stack of its values by every executor, so
long as the elements can be divided into the batches that are asked for; one that raises at every
element makes every executor raise.  The stripped boundary decides which of the two the wrapped
function is: a stripped sink that is called with a position raises.
-/

namespace Xtrax.ExportComposition

open Except Results AxisBoundary List

/-! ### Selection by index -/

section Take

variable {α β : Type}

theorem take_map (f : α → β) (a : List α) (indices : List Nat) :
    take (a.map f) indices = (take a indices).map f := by
  unfold take
  rw [map_filterMap, length_map]
  simp only [getElem?_map]

theorem take_of_lt {a : List α} {indices : List Nat} (h : ∀ i ∈ indices, i < a.length) :
    take a indices = indices.filterMap fun i => a[i]? := by
  unfold take
  apply filterMap_congr
  intro i hi
  rw [Nat.min_eq_left (Nat.le_sub_one_of_lt (h i hi))]

theorem take_append {a b : List α} {indices : List Nat} (h : ∀ i ∈ indices, i < a.length) :
    take (a ++ b) indices = take a indices := by
  have hlong : ∀ i ∈ indices, i < (a ++ b).length := by
    intro i hi
    rw [length_append]
    exact Nat.lt_add_right _ (h i hi)
  rw [take_of_lt h, take_of_lt hlong]
  apply filterMap_congr
  intro i hi
  rw [getElem?_append_left (h i hi)]

theorem length_take {a : List α} {indices : List Nat} (h : ∀ i ∈ indices, i < a.length) :
    (take a indices).length = indices.length := by
  rw [take_of_lt h]
  induction indices with
  | nil => rfl
  | cons i indices ih =>
    have hi := h i mem_cons_self
    rw [filterMap_cons, getElem?_eq_getElem hi, length_cons, length_cons,
      ih fun j hj => h j (mem_cons_of_mem i hj)]

end Take

section

variable {ι : Type} {S : OutStruct ι} {X C V : Type}

/-! ### A function that returns at every element, and one that raises at every element -/

theorem mapM_raises {α β ε : Type} {f : α → Except ε β} {e : ε} {xs : List α} (hne : xs ≠ [])
    (h : ∀ x ∈ xs, f x = .error e) : xs.mapM f = .error e := by
  cases xs with
  | nil => exact absurd rfl hne
  | cons x xs =>
    rw [mapM_cons, h x mem_cons_self]
    rfl

section Returns

variable {fn : X → Except PyError S.Value} {f : X → S.Value} {xs : List X}

theorem vmap_returns (h : ∀ x ∈ xs, fn x = .ok (f x)) : vmap fn xs = .ok (stack (xs.map f)) := by
  unfold vmap
  rw [mapM_of_ok h]
  rfl

theorem laxMapBatched_returns {b : Int} (hb : 1 ≤ b) (h : ∀ x ∈ xs, fn x = .ok (f x)) :
    laxMapBatched fn xs b = .ok (stack (xs.map f)) := by
  unfold laxMapBatched
  rw [if_neg (not_lt.mpr hb), mapM_of_ok h]
  rfl

theorem chunkedMapBatches_returns {b : Int} (hb : 1 ≤ b) (h : ∀ x ∈ xs, fn x = .ok (f x)) :
    chunkedMapBatches fn xs b = .ok (stack (xs.map f)) := by
  unfold chunkedMapBatches
  split
  · exact vmap_returns h
  · split
    · cases xs using reverseRec with
      | nil => exact laxMapBatched_returns hb h
      | append_singleton xs last =>
        have hprefix : ∀ x ∈ xs, fn x = .ok (f x) :=
          fun x hx => h x (mem_append_left _ hx)
        rw [getLast?_concat, dropLast_concat]
        simp only [laxMapBatched_returns hb hprefix, applySize1,
          h last (mem_append_right _ mem_cons_self)]
        apply congrArg ok
        funext i
        simp [stack]
    · exact laxMapBatched_returns hb h

theorem chunkedMapBatches_raises {b : Int} (hb : b < 1) :
    chunkedMapBatches fn xs b = .error .zeroDivision := by
  unfold chunkedMapBatches
  rw [if_neg (by omega), if_neg (by omega)]
  unfold laxMapBatched
  exact if_pos hb

theorem evalShape_returns (h : ∀ x ∈ xs, fn x = .ok (f x)) : evalShape fn xs = .ok () := by
  cases xs with
  | nil => rfl
  | cons x xs => rw [evalShape, h x mem_cons_self]; rfl

theorem applySize1_returns {x : X} (h : fn x = .ok (f x)) :
    applySize1 fn x = .ok (stack ([x].map f)) := by
  unfold applySize1
  rw [h]
  rfl

theorem keepNonempty_returns (h : ∀ x ∈ xs, fn x = .ok (f x)) :
    ∀ x ∈ xs, keepNonempty fn x = .ok fun i => f x i.1 := by
  intro x hx
  unfold keepNonempty
  rw [h x hx]
  rfl

theorem stack_restrict (i : { i // S.zeroSize i = false }) :
    stack (S := S.restrict fun i => S.zeroSize i = false) (xs.map fun x i => f x i.1) i =
      stack (xs.map f) i.1 := by
  induction xs with
  | nil => rfl
  | cons x xs ih => exact congrArg (cons (f x i.1)) ih

theorem reassemble_stack {kept : (S.restrict fun i => S.zeroSize i = false).Stacked}
    (h : ∀ i, kept i = stack (xs.map f) i.1) :
    reassemble xs.length kept = stack (xs.map f) := by
  funext i
  unfold reassemble
  split
  · rename_i hi
    unfold stack
    rw [map_map, ← map_const']
    exact map_congr_left fun x _ => (S.zeros_unique i hi _).symm
  · exact h _

variable [Fintype ι]

theorem chunkedMapWithoutZeroSize_returns {b : Int}
    (hb : 1 ≤ b ∨ ∀ i, S.zeroSize i = true) (h : ∀ x ∈ xs, fn x = .ok (f x)) :
    chunkedMapWithoutZeroSize fn xs b = .ok (stack (xs.map f)) := by
  unfold chunkedMapWithoutZeroSize
  split
  · rename_i hkept
    have hb : 1 ≤ b := by
      refine hb.resolve_right fun hall => ?_
      obtain ⟨i, hi⟩ := hkept
      rw [hall i] at hi
      cases hi
    rw [chunkedMapBatches_returns hb (keepNonempty_returns h)]
    exact congrArg ok (reassemble_stack stack_restrict)
  · rename_i hkept
    refine congrArg ok (reassemble_stack fun i => ?_)
    exact absurd ⟨i.1, i.2⟩ hkept

theorem chunkedMapWithoutZeroSize_raises {b : Int} (hb : b < 1)
    (hkept : ∃ i, S.zeroSize i = false) :
    chunkedMapWithoutZeroSize fn xs b = .error .zeroDivision := by
  unfold chunkedMapWithoutZeroSize
  rw [if_pos hkept, chunkedMapBatches_raises hb]
  rfl

theorem chunkedMap_of_length_ne {b : Option Int} (hlen : xs.length ≠ 1) :
    chunkedMap fn xs b = chunkedMapMany fn xs b := by
  unfold chunkedMap
  split
  · exact absurd rfl hlen
  · rfl

theorem chunkedMap_none_returns (h : ∀ x ∈ xs, fn x = .ok (f x)) :
    chunkedMap fn xs none = .ok (stack (xs.map f)) := by
  by_cases hlen : xs.length = 1
  · obtain ⟨x, rfl⟩ := length_eq_one_iff.mp hlen
    exact applySize1_returns (h x mem_cons_self)
  · rw [chunkedMap_of_length_ne hlen]
    exact vmap_returns h

/-- Two elements or more are mapped to the stack of their values if they can be divided into
batches. -/
theorem chunkedMapMany_returns_or {b : Int} (hlen : 1 < xs.length)
    (h : ∀ x ∈ xs, fn x = .ok (f x)) :
    (Batchable S xs.length b ∧ chunkedMapMany fn xs (some b) = .ok (stack (xs.map f))) ∨
      (¬ Batchable S xs.length b ∧ chunkedMapMany fn xs (some b) = .error .zeroDivision) := by
  have hsplit : evalShape fn xs >>= (fun _ => chunkedMapSplit fn xs b) =
      chunkedMapSplit fn xs b := by
    rw [evalShape_returns h]
    rfl
  rw [chunkedMapMany, hsplit]
  by_cases hb : 1 ≤ b
  · refine .inl ⟨.inl hb, ?_⟩
    split
    · exact vmap_returns h
    · unfold chunkedMapSplit
      split
      · exact chunkedMapWithoutZeroSize_returns (.inl hb) h
      · exact chunkedMapBatches_returns hb h
  · -- no batch has an element, and only an output without entries is not divided
    have hbatch : Batchable S xs.length b ↔ splits S = true ∧ ∀ i, S.zeroSize i = true := by
      refine ⟨?_, fun h1 => .inr (.inr h1)⟩
      rintro (h1 | h1 | h1)
      · exact absurd h1 hb
      · omega
      · exact h1
    rw [hbatch, if_neg (by omega)]
    unfold chunkedMapSplit
    split
    · rename_i hs
      by_cases hall : ∀ i, S.zeroSize i = true
      · exact .inl ⟨⟨hs, hall⟩, chunkedMapWithoutZeroSize_returns (.inr hall) h⟩
      · have hkept : ∃ i, S.zeroSize i = false := by
          push Not at hall
          obtain ⟨i, hi⟩ := hall
          exact ⟨i, eq_false_of_ne_true hi⟩
        exact .inr ⟨fun h1 => hall h1.2, chunkedMapWithoutZeroSize_raises (by omega) hkept⟩
    · rename_i hs
      exact .inr ⟨fun h1 => hs h1.1, chunkedMapBatches_raises (by omega)⟩

theorem chunkedMap_returns_or {b : Int} (hne : xs ≠ []) (h : ∀ x ∈ xs, fn x = .ok (f x)) :
    (Batchable S xs.length b ∧ chunkedMap fn xs (some b) = .ok (stack (xs.map f))) ∨
      (¬ Batchable S xs.length b ∧ chunkedMap fn xs (some b) = .error .zeroDivision) := by
  by_cases hlen : xs.length = 1
  · obtain ⟨x, rfl⟩ := length_eq_one_iff.mp hlen
    exact .inl ⟨.inr (.inl rfl), applySize1_returns (h x mem_cons_self)⟩
  · have hpos : 0 < xs.length := length_pos_iff.mpr hne
    rw [chunkedMap_of_length_ne hlen]
    exact chunkedMapMany_returns_or (by omega) h

end Returns

section Raises

variable {fn : X → Except PyError S.Value} {e : PyError} {xs : List X}

theorem vmap_raises (hne : xs ≠ []) (h : ∀ x ∈ xs, fn x = .error e) : vmap fn xs = .error e := by
  unfold vmap
  rw [mapM_raises hne h]
  rfl

theorem chunkedMap_raises [Fintype ι] {b : Option Int} (hne : xs ≠ [])
    (h : ∀ x ∈ xs, fn x = .error e) : chunkedMap fn xs b = .error e := by
  cases xs with
  | nil => exact absurd rfl hne
  | cons x xs =>
    have hx := h x mem_cons_self
    by_cases hlen : (x :: xs).length = 1
    · obtain rfl : xs = [] := by simpa using hlen
      show applySize1 fn x = _
      unfold applySize1
      rw [hx]
      rfl
    · rw [chunkedMap_of_length_ne hlen]
      cases b with
      | none => exact vmap_raises hne h
      | some b =>
        rw [chunkedMapMany]
        split
        · exact vmap_raises hne h
        · rw [evalShape, hx]
          rfl

end Raises

/-! ### The scan -/

theorem laxScan_returns {Y : Type} {fn : C → Y → Except PyError (C × S.Value)}
    {t : C → X → C × S.Value} {elem : Y → X} {ys : List Y}
    (h : ∀ c, ∀ y ∈ ys, fn c y = .ok (t c (elem y))) (c : C) :
    ∃ final, laxScan fn c ys = .ok (final, scanYs t c (ys.map elem)) := by
  induction ys generalizing c with
  | nil => exact ⟨c, rfl⟩
  | cons y ys ih =>
    obtain ⟨final, hfinal⟩ :=
      ih (fun c' y' hy => h c' y' (mem_cons_of_mem y hy)) (t c (elem y)).1
    refine ⟨final, ?_⟩
    rw [laxScan, h c y mem_cons_self]
    simp only [bind, Except.bind, hfinal]
    rfl

/-! ### The validated boundary -/

theorem lookup_boundariesForExport (boundaries : Boundaries S V) (axis : String) :
    (boundariesForExport boundaries).lookup axis = (boundaries.lookup axis).map stripped := by
  unfold boundariesForExport
  induction boundaries with
  | nil => rfl
  | cons e boundaries ih =>
    rw [map_cons, lookup_cons, lookup_cons, ih]
    cases axis == e.1 <;> rfl

/-- What `validate_plan_topology` makes sure of. -/
structure Exportable (strategy : Strategy S X C) (boundary : AxisBoundary S V) : Prop where
  no_tap : boundary.tap = none
  declared : boundary.sink.isSome = true → boundary.materialize = true
  vmap_unordered : ∀ sink, strategy = .vmap → boundary.sink = some sink → sink.ordered = false

theorem checkExportBoundary_ok {axis : String} {boundary : AxisBoundary S V} {b : Bool}
    (h : checkExportBoundary axis (some boundary) = .ok b) :
    boundary.tap = none ∧ (boundary.sink.isSome = true → boundary.materialize = true) := by
  rw [checkExportBoundary] at h
  split_ifs at h with h1 h2 h3 h4
  refine ⟨by simpa using h1, fun hsink => ?_⟩
  by_contra hm
  exact h3 ⟨hsink, hm⟩

theorem checkVmapOrder_ok {d : AxisDecision S X C} {boundary : AxisBoundary S V}
    (h : checkVmapOrder d (some boundary) = .ok ()) :
    ∀ sink, d.strategy = .vmap → boundary.sink = some sink → sink.ordered = false := by
  intro sink hd hsink
  unfold checkVmapOrder at h
  simp only [hd, hsink] at h
  split_ifs at h with h1 h2
  simpa using h2

theorem exportable_of_valid {d : AxisDecision S X C} {boundaries : Boundaries S V}
    {boundary : AxisBoundary S V} (h : validatePlanTopology [d] boundaries true = .ok ())
    (hb : boundaries.lookup d.spec.name = some boundary) : Exportable d.strategy boundary := by
  unfold validatePlanTopology at h
  obtain ⟨flags, hflags, -⟩ := bind_eq_ok.mp h
  obtain ⟨flag, -, hflag⟩ :=
    exists_of_forall₂ (mapM_eq_ok.mp hflags) (mem_singleton_self d)
  unfold checkDecision at hflag
  obtain ⟨⟨⟩, -, hflag⟩ := bind_eq_ok.mp hflag
  obtain ⟨⟨⟩, hvmap, hflag⟩ := bind_eq_ok.mp hflag
  rw [if_pos rfl, hb] at hflag
  rw [hb] at hvmap
  obtain ⟨b, hexport, -⟩ := bind_eq_ok.mp hflag
  obtain ⟨htap, hdeclared⟩ := checkExportBoundary_ok hexport
  exact ⟨htap, hdeclared, checkVmapOrder_ok hvmap⟩

/-! ### The stripped boundary at one element -/

section Stripped

variable {strategy : Strategy S X C} {boundary : AxisBoundary S V}

theorem receivesIndex_stripped (boundary : Option (AxisBoundary S V)) :
    receivesIndex (boundary.map stripped) = receivesIndex boundary := by
  cases boundary with
  | none => rfl
  | some boundary =>
    unfold receivesIndex stripped
    simp

theorem hasOrderedOp_stripped (boundary : Option (AxisBoundary S V)) :
    hasOrderedOp (boundary.map stripped) = hasOrderedOp boundary := by
  have hordered : ∀ (m : Bool) (sink : Sink S),
      (if m then strippedSink sink.ordered else sink).ordered = sink.ordered := by
    intro m sink
    split <;> rfl
  cases boundary with
  | none => rfl
  | some boundary =>
    unfold hasOrderedOp stripped
    simp only [Option.map_some, Option.map_map, Function.comp_def, hordered]

theorem sink_stripped (h : Exportable strategy boundary) :
    boundary.stripped.sink = boundary.sink.map fun sink => strippedSink sink.ordered := by
  unfold stripped
  cases hsink : boundary.sink with
  | none => rfl
  | some sink =>
    have hm := h.declared (by rw [hsink]; rfl)
    rw [hm]
    rfl

theorem applyTap_stripped (h : Exportable strategy boundary) (y : S.Value) :
    boundary.stripped.applyTap y = y := by
  have htap : boundary.stripped.tap = none := h.no_tap
  unfold applyTap
  rw [htap]

theorem applyStepBoundary_returns (boundary : Option (AxisBoundary S V))
    (h : ∀ b ∈ boundary, Exportable strategy b) (y : S.Value) :
    applyStepBoundary y (boundary.map stripped) none = .ok y := by
  cases boundary with
  | none => rfl
  | some boundary =>
    have hb := h boundary rfl
    rw [Option.map_some, applyStepBoundary, applyTap_stripped hb]
    unfold emit
    rw [sink_stripped hb]
    cases boundary.sink <;> rfl

theorem applyStepBoundary_raises {boundary : Option (AxisBoundary S V)}
    (h : ∀ b ∈ boundary, Exportable strategy b) (hindex : receivesIndex boundary = true)
    (y : S.Value) (i : Nat) :
    applyStepBoundary y (boundary.map stripped) (some i) = .error .typeError := by
  cases boundary with
  | none => cases hindex
  | some boundary =>
    have hb := h boundary rfl
    rw [Option.map_some, applyStepBoundary, applyTap_stripped hb]
    unfold emit
    rw [sink_stripped hb]
    cases hsink : boundary.sink with
    | none =>
      rw [receivesIndex, hsink] at hindex
      cases hindex
    | some sink => rfl

end Stripped

theorem mappedXs_false (xs : List X) : mappedXs false xs = xs.map fun x => (x, none) := rfl

theorem map_fst_mappedXs (withIndex : Bool) (xs : List X) :
    (mappedXs withIndex xs).map Prod.fst = xs := by
  unfold mappedXs
  split
  · rw [map_map]
    exact zipIdx_map_fst 0 xs
  · rw [map_map]
    exact map_id xs

theorem index_of_mem_mappedXs {xs : List X} {x : X × Option Nat} (h : x ∈ mappedXs true xs) :
    ∃ i, x.2 = some i := by
  obtain ⟨e, -, rfl⟩ := mem_map.mp h
  exact ⟨e.2, rfl⟩

theorem applyFuse_eq (array : S.Stacked → V) (ys : S.Stacked)
    (boundary : Option (AxisBoundary S V)) :
    applyFuse array ys (boundary.map stripped) =
      match boundary.bind fuse with
      | some fuse => fuse ys
      | none => array ys := by
  cases boundary with
  | none => rfl
  | some boundary => rcases boundary with ⟨_ | fuse, _, _, _, _⟩ <;> rfl

/-! ### The executors at a stripped boundary -/

section Run

variable {strategy : Strategy S X C} {boundary : Option (AxisBoundary S V)} {xs : List X}

theorem wrapStep_returns (h : ∀ b ∈ boundary, Exportable strategy b)
    (hindex : receivesIndex boundary = false) (f : X → S.Value) (xs : List X) :
    ∀ x ∈ mappedXs (receivesIndex boundary) xs,
      wrapStep (fun x => .ok (f x)) (boundary.map stripped) x = .ok (f x.1) := by
  intro x hx
  rw [hindex, mappedXs_false] at hx
  obtain ⟨x, -, rfl⟩ := mem_map.mp hx
  exact applyStepBoundary_returns boundary h (f x)

theorem wrapStep_raises (h : ∀ b ∈ boundary, Exportable strategy b)
    (hindex : receivesIndex boundary = true) (f : X → S.Value) (xs : List X) :
    ∀ x ∈ mappedXs (receivesIndex boundary) xs,
      wrapStep (fun x => .ok (f x)) (boundary.map stripped) x = .error .typeError := by
  intro x hx
  rw [hindex] at hx
  obtain ⟨i, hi⟩ := index_of_mem_mappedXs hx
  unfold wrapStep
  rw [hi]
  exact applyStepBoundary_raises h hindex (f x.1) i

theorem mappedXs_ne_nil (hne : xs ≠ []) (withIndex : Bool) : mappedXs withIndex xs ≠ [] := by
  intro h
  have hmap := map_fst_mappedXs withIndex xs
  rw [h] at hmap
  exact hne hmap.symm

theorem map_mappedXs (withIndex : Bool) (f : X → S.Value) :
    (mappedXs withIndex xs).map (fun x => f x.1) = xs.map f := by
  rw [← map_fst_mappedXs withIndex xs, map_map, map_fst_mappedXs]
  rfl

theorem length_mappedXs (withIndex : Bool) : (mappedXs withIndex xs).length = xs.length := by
  rw [← length_map (f := Prod.fst), map_fst_mappedXs]

variable [Fintype ι]

/-- The executor of a map strategy can divide `n` elements as it does. -/
def MapStrategy.Divides (S : OutStruct ι) (strategy : MapStrategy) (ordered : Bool) (n : Nat) :
    Prop :=
  match strategy with
  | .vmap => True
  | .chunkedMap b => ordered = true ∨ Batchable S n b

section MapAxis

variable {Y : Type} {wrapped : Y → Except PyError S.Value} {ys : List Y} {ordered : Bool}
variable {strategy : MapStrategy}

theorem mapAxis_returns_or {f : Y → S.Value} (hne : ys ≠ [])
    (hvmap : strategy = .vmap → ordered = false) (h : ∀ y ∈ ys, wrapped y = .ok (f y)) :
    (strategy.Divides S ordered ys.length ∧
      mapAxis strategy wrapped ys ordered = .ok (stack (ys.map f))) ∨
    (¬ strategy.Divides S ordered ys.length ∧
      mapAxis strategy wrapped ys ordered = .error .zeroDivision) := by
  cases strategy with
  | vmap =>
    refine .inl ⟨trivial, ?_⟩
    rw [hvmap rfl]
    exact chunkedMap_none_returns h
  | chunkedMap b =>
    cases ordered with
    | true => exact .inl ⟨.inl rfl, vmap_returns h⟩
    | false =>
      rcases chunkedMap_returns_or hne h with ⟨hb, hys⟩ | ⟨hb, hys⟩
      · exact .inl ⟨.inr hb, hys⟩
      · exact .inr ⟨fun h1 => hb (h1.resolve_left nofun), hys⟩

theorem mapAxis_raises {e : PyError} (hne : ys ≠ []) (hvmap : strategy = .vmap → ordered = false)
    (h : ∀ y ∈ ys, wrapped y = .error e) : mapAxis strategy wrapped ys ordered = .error e := by
  cases strategy with
  | vmap =>
    rw [hvmap rfl]
    exact chunkedMap_raises (b := none) hne h
  | chunkedMap b =>
    cases ordered with
    | true => exact vmap_raises hne h
    | false => exact chunkedMap_raises hne h

end MapAxis

omit [Fintype ι] in
theorem applyFuse_stack (array : S.Stacked → V) (boundary : Option (AxisBoundary S V))
    (ys : List S.Value) :
    applyFuse array (stack ys) (boundary.map stripped) = meant array boundary ys :=
  applyFuse_eq array (stack ys) boundary

/-- **A map axis** means what the plan means exactly if its sink takes one argument and its
elements can be divided. -/
theorem executeMapAxis_iff (array : S.Stacked → V) (f : X → S.Value)
    (iteration : MapStrategy) (hne : xs ≠ []) (h : ∀ b ∈ boundary, Exportable strategy b)
    (hvmap : iteration = .vmap → hasOrderedOp boundary = false) :
    executeMapAxis array (fun x => .ok (f x)) xs iteration (boundary.map stripped) =
        .ok (meant array boundary (xs.map f)) ↔
      receivesIndex boundary = false ∧ iteration.Divides S (hasOrderedOp boundary) xs.length := by
  unfold executeMapAxis
  rw [receivesIndex_stripped, hasOrderedOp_stripped]
  have hne' := mappedXs_ne_nil hne (receivesIndex boundary)
  cases hindex : receivesIndex boundary with
  | false =>
    have hsteps := wrapStep_returns h hindex f xs
    rw [hindex] at hsteps hne'
    rcases mapAxis_returns_or hne' hvmap hsteps with ⟨hd, hys⟩ | ⟨hd, hys⟩
    · rw [length_mappedXs] at hd
      refine iff_of_true ?_ ⟨rfl, hd⟩
      rw [hys, map_mappedXs]
      exact congrArg ok (applyFuse_stack array boundary (xs.map f))
    · rw [length_mappedXs] at hd
      refine iff_of_false ?_ fun h1 => hd h1.2
      rw [hys]
      exact nofun
  | true =>
    have hsteps := wrapStep_raises h hindex f xs
    rw [hindex] at hsteps hne'
    refine iff_of_false ?_ fun h1 => nomatch h1.1
    rw [mapAxis_raises hne' hvmap hsteps]
    exact nofun

/-! ### The scan axis -/

omit [Fintype ι] in
/-- **A scan axis** means what the plan means exactly if its sink takes one argument. -/
theorem executeScanAxis_iff (array : S.Stacked → V) (t : C → X → C × S.Value) (carry : C)
    (hne : xs ≠ []) (h : ∀ b ∈ boundary, Exportable strategy b) :
    Prod.snd <$> executeScanAxis array (fun c x => .ok (t c x)) carry xs
          (boundary.map AxisBoundary.stripped) =
        .ok (meant array boundary (scanYs t carry xs)) ↔
      receivesIndex boundary = false := by
  unfold executeScanAxis safeScan
  rw [receivesIndex_stripped, if_neg (mappedXs_ne_nil hne _)]
  cases hindex : receivesIndex boundary with
  | false =>
    have hsteps : ∀ c, ∀ y ∈ mappedXs false xs,
        wrappedTransition (fun c x => .ok (t c x)) (boundary.map AxisBoundary.stripped) c y =
          .ok (t c y.1) := by
      intro c y hy
      rw [mappedXs_false] at hy
      obtain ⟨x, -, rfl⟩ := mem_map.mp hy
      unfold wrappedTransition
      simp only [bind, Except.bind, applyStepBoundary_returns boundary h]
      rfl
    obtain ⟨final, hfinal⟩ := laxScan_returns hsteps carry
    rw [map_fst_mappedXs] at hfinal
    refine iff_of_true ?_ rfl
    rw [hfinal]
    exact congrArg Except.ok (applyFuse_stack array boundary _)
  | true =>
    refine iff_of_false ?_ nofun
    cases hxs : mappedXs true xs with
    | nil => exact absurd hxs (mappedXs_ne_nil hne true)
    | cons y ys =>
      obtain ⟨i, hi⟩ := index_of_mem_mappedXs (hxs ▸ mem_cons_self : y ∈ mappedXs true xs)
      have hstep : wrappedTransition (fun c x => .ok (t c x)) (boundary.map AxisBoundary.stripped)
          carry y = .error .typeError := by
        unfold wrappedTransition
        simp only [bind, Except.bind, hi, applyStepBoundary_raises h hindex]
      rw [laxScan, hstep]
      exact nofun

/-! ### The dedup axis -/

omit [Fintype ι] in
theorem take_defaultGatherFn {ys : List S.Value} {indices : List Nat} :
    defaultGatherFn (stack ys) indices = stack (take ys indices) := by
  funext i
  exact take_map (fun y : S.Value => y i) ys indices

theorem dispatchDedup_returns {spec : DedupSpec S X} {dedup : DedupGather S X}
    (hspec : spec.toDedupGather = .ok dedup) (hfits : spec.Fits xs) (f : X → S.Value) :
    dispatchDedup dedup (fun x => .ok (f x)) xs = .ok (stack (xs.map f)) := by
  obtain ⟨kBucket, hk, hdedup⟩ := bind_eq_ok.mp hspec
  obtain rfl := ok.inj hdedup
  have hselect : ∀ a indices, (spec.dedupFn.getD take) a indices = take a indices := by
    cases hf : spec.dedupFn with
    | none => exact fun _ _ => rfl
    | some f => exact hfits.dedup f hf
  have hgather : ∀ a indices,
      (spec.gatherFn.getD defaultGatherFn) a indices = defaultGatherFn a indices := by
    cases hf : spec.gatherFn with
    | none => exact fun _ _ => rfl
    | some f => exact hfits.gather f hf
  -- the padding selects more rows behind the unique ones, and no slot refers to them
  have hrows : take (take xs (padEdge spec.uniqueIndices (kBucket - spec.k))) spec.indexMap = xs := by
    have hsplit : take xs (padEdge spec.uniqueIndices (kBucket - spec.k)) =
        take xs spec.uniqueIndices ++
          take xs (replicate (kBucket - spec.k) (spec.uniqueIndices.getLast?.getD 0)) :=
      filterMap_append
    rw [hsplit, take_append, hfits.rows]
    intro j hj
    rw [length_take hfits.unique_lt, spec.length_unique]
    exact spec.slot_lt j hj
  unfold dispatchDedup
  simp only [hselect, hgather]
  rw [chunkedMap_none_returns (f := f) fun _ _ => rfl]
  refine congrArg ok ?_
  rw [take_defaultGatherFn, take_map, hrows]

/-- **The DedupGather axis** means what the plan means exactly if its fuse, which is left out, does
not change the stack. -/
theorem dispatchDedup_iff (array : S.Stacked → V) {spec : DedupSpec S X}
    {dedup : DedupGather S X} (hspec : spec.toDedupGather = .ok dedup) (hfits : spec.Fits xs)
    (f : X → S.Value) :
    array <$> dispatchDedup dedup (fun x => .ok (f x)) xs = .ok (meant array boundary (xs.map f)) ↔
      ∀ fuse, boundary.bind AxisBoundary.fuse = some fuse →
        fuse (stack (xs.map f)) = array (stack (xs.map f)) := by
  rw [dispatchDedup_returns hspec hfits f]
  unfold meant
  cases boundary.bind AxisBoundary.fuse with
  | none => exact iff_of_true rfl nofun
  | some fuse =>
    constructor
    · intro h fuse' hfuse
      obtain rfl := Option.some.inj hfuse
      exact (Except.ok.inj h).symm
    · intro h
      exact congrArg Except.ok (h fuse rfl).symm

end Run

/-! ### The whole export -/

variable [Fintype ι]

theorem exported_one (array : S.Stacked → V)
    (composeVmapOfScan : AxisDecision S X C → AxisDecision S X C →
      Except PyError (List X → Except PyError V))
    (d : AxisDecision S X C) (boundaries : Boundaries S V) (fn : StepFn S X C)
    (scanInit : Option C) (xs : List X) :
    exported array composeVmapOfScan fn [d] boundaries scanInit xs =
      composeSingleAxis array fn d ((boundaries.lookup d.spec.name).map stripped)
        scanInit >>= fun run => run xs := by
  rw [← lookup_boundariesForExport]
  rfl

/-- **The exported callable** returns the plan's meaning exactly when the boundary survives the
export: a materializing sink that is called takes one argument, and a fuse that is left out leaves
the stack as it is. -/
theorem exported_means (array : S.Stacked → V)
    (composeVmapOfScan : AxisDecision S X C → AxisDecision S X C →
      Except PyError (List X → Except PyError V))
    (d : AxisDecision S X C) (boundaries : Boundaries S V) (fn : StepFn S X C)
    (scanInit : Option C) (xs : List X) (ys : List S.Value) (hne : xs ≠ [])
    (hvalid : validatePlanTopology [d] boundaries true = .ok ())
    (hys : outputs d.strategy fn scanInit xs = some ys)
    (hdedup : ∀ dedup, d.strategy = .dedupGather dedup →
      ∃ spec : DedupSpec S X, spec.toDedupGather = .ok dedup ∧ spec.Fits xs) :
    exported array composeVmapOfScan fn [d] boundaries scanInit xs =
        .ok (meant array (boundaries.lookup d.spec.name) ys) ↔
      Survives array d.strategy (boundaries.lookup d.spec.name) xs ys := by
  have hexport : ∀ b ∈ boundaries.lookup d.spec.name, Exportable d.strategy b :=
    fun b hb => exportable_of_valid hvalid hb
  rw [exported_one]
  generalize boundaries.lookup d.spec.name = boundary at hexport ⊢
  unfold composeSingleAxis Survives
  cases hd : d.strategy with
  | vmap =>
    rw [hd] at hys hexport
    cases fn with
    | transition t => cases hys
    | element f =>
      obtain rfl := Option.some.inj hys
      have hvmap : hasOrderedOp boundary = false := by
        cases boundary with
        | none => rfl
        | some b =>
          have hb := hexport b rfl
          rw [hasOrderedOp, hb.no_tap]
          cases hsink : b.sink with
          | none => rfl
          | some sink => exact hb.vmap_unordered sink rfl hsink
      have hiff := executeMapAxis_iff array f .vmap hne hexport fun _ => hvmap
      exact hiff.trans ⟨And.left, fun h => ⟨h, trivial⟩⟩
  | chunkedMap b =>
    rw [hd] at hys hexport
    cases fn with
    | transition t => cases hys
    | element f =>
      obtain rfl := Option.some.inj hys
      exact executeMapAxis_iff array f (.chunkedMap b) hne hexport nofun
  | scan init =>
    rw [hd] at hys hexport
    cases fn with
    | element f => cases hys
    | transition t =>
      obtain ⟨carry, hcarry, rfl⟩ := Option.map_eq_some_iff.mp hys
      simp only [hcarry]
      exact executeScanAxis_iff array t carry hne hexport
  | dedupGather dedup =>
    obtain ⟨spec, hspec, hfits⟩ := hdedup dedup hd
    rw [hd] at hys
    cases fn with
    | transition t => cases hys
    | element f =>
      obtain rfl := Option.some.inj hys
      exact dispatchDedup_iff array hspec hfits f
  | bucket bounds => rw [hd] at hys; cases fn <;> cases hys
  | whileCarry => rw [hd] at hys; cases fn <;> cases hys

end

/-! ### Two plans of one axis -/

/-- One leaf of numbers. -/
def oneLeaf : OutStruct Unit where
  Leaf := fun _ => Nat
  zeroSize := fun _ => false
  extended := fun _ => false
  zeros := nofun
  zeros_unique := nofun

def quietSink (ordered : Bool) : Sink oneLeaf where
  ordered := ordered
  call := fun _ => .ok ()

/-- A decision for the axis `i`. -/
def oneAxis (strategy : Strategy oneLeaf Nat Nat) : AxisDecision oneLeaf Nat Nat where
  spec := { name := "i" }
  strategy := strategy

/-- A materializing sink on `i`, which is called with the position or not. -/
def materializing (ordered receivesIndex : Bool) : Boundaries oneLeaf (List Nat) :=
  [("i", { sink := some (quietSink ordered), materialize := true,
            sinkReceivesIndex := receivesIndex })]

/-- The sink that receives the position does not survive the export: the stripped sink is called
with two arguments. -/
theorem indexed_sink_raises :
    validatePlanTopology [oneAxis .vmap] (materializing false true) true = .ok () ∧
      exported (V := List Nat) (fun ys => ys ()) (fun _ _ => .error .multiAxis)
        (.element fun x _ => x + 1) [oneAxis .vmap] (materializing false true) none [4, 5] =
        .error .typeError :=
  ⟨rfl, rfl⟩

/-- An ordered sink without the position survives it, in batches that do not divide the input. -/
theorem ordered_sink_survives :
    exported (V := List Nat) (fun ys => ys ()) (fun _ _ => .error .multiAxis)
      (.element fun x _ => x + 1) [oneAxis (.chunkedMap 2)] (materializing true false) none
      [4, 5, 6] = .ok [5, 6, 7] :=
  (exported_means (V := List Nat) (fun ys => ys ()) (fun _ _ => .error .multiAxis)
    (oneAxis (.chunkedMap 2)) (materializing true false) (.element fun x _ => x + 1) none
    [4, 5, 6] ([4, 5, 6].map fun x _ => x + 1) (by decide) rfl rfl nofun).mpr
    ⟨rfl, .inl rfl⟩

end Xtrax.ExportComposition
