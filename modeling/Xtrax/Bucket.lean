import Xtrax.NdArray

/-!
# Length buckets

A batch of rows is trimmed to a rung of a ladder, the smallest one that covers the span of its
mask, and padded back.  The span is computed from the entries of the mask that are greater than
zero, while the entries that are not zero are the valid ones.  So no valid position is lost just
when the rungs that cover the positive entries cover the others as well (`rung_sound_iff`).

The mask is of any type with a zero and an order: integers, floats (with NaN, which is not zero
and not greater than zero) or booleans.
-/

namespace Xtrax.Bucket

open List

inductive BucketError
  | negativeLength (length : Int)
  | noBoundaries
  | exceedsLargest (length largest : Int)
  | negativeCap (cap : Int)
  | negativeTrim (n : Int)
  | negativePad (n : Int)
  | cannotPad (axis : Int) (current : Nat) (n : Int)
  | axisOutOfRange (op : String) (axis : Int) (ndim : Nat)
  deriving DecidableEq

/-! ### Rungs -/

/-- The loop of `bisect_left`; the interval shrinks in every round. -/
def bisectLoop (a : List Int) (x : Int) : Nat → Nat → Nat → Nat
  | 0, lo, _ => lo
  | fuel + 1, lo, hi =>
    if lo < hi then
      let mid := (lo + hi) / 2
      if a.getD mid 0 < x then bisectLoop a x fuel (mid + 1) hi else bisectLoop a x fuel lo mid
    else lo

def bisectLeft (a : List Int) (x : Int) : Nat := bisectLoop a x a.length 0 a.length

def selectBucket (length : Int) (boundaries : List Int) : Except BucketError Int :=
  if length < 0 then .error (.negativeLength length)
  else if boundaries.length = 0 then .error .noBoundaries
  else
    let idx := bisectLeft boundaries length
    if boundaries.length ≤ idx then .error (.exceedsLargest length (boundaries.getLastD 0))
    else .ok (boundaries.getD idx 0)

def selectRung (span cap : Int) (ladder : List Int) : Except BucketError Int :=
  if cap < 0 then .error (.negativeCap cap) else (selectBucket span ladder).map (min · cap)

/-- What the loop keeps: before `lo` the numbers are smaller than `x`, from `hi` on they are not. -/
theorem bisectLoop_spec {a : List Int} {x : Int} (hsorted : a.Pairwise (· < ·)) :
    ∀ fuel lo hi, hi - lo ≤ fuel → lo ≤ hi → hi ≤ a.length → (∀ j < lo, a.getD j 0 < x) →
      (∀ j, hi ≤ j → j < a.length → x ≤ a.getD j 0) →
      (∀ j < bisectLoop a x fuel lo hi, a.getD j 0 < x) ∧
        ∀ j, bisectLoop a x fuel lo hi ≤ j → j < a.length → x ≤ a.getD j 0 := by
  have hmono : ∀ i j, i < j → j < a.length → a.getD i 0 < a.getD j 0 := by
    intro i j hij hj
    rw [getD_eq_getElem _ _ (hij.trans hj), getD_eq_getElem _ _ hj]
    exact pairwise_iff_getElem.mp hsorted i j (hij.trans hj) hj hij
  intro fuel
  induction fuel with
  | zero =>
    intro lo hi hfuel hle _ hbefore hafter
    obtain rfl : lo = hi := by omega
    exact ⟨hbefore, hafter⟩
  | succ fuel ih =>
    intro lo hi hfuel hle hlen hbefore hafter
    rw [bisectLoop]
    by_cases hlt : lo < hi
    · rw [if_pos hlt]
      dsimp only
      have hmid : lo ≤ (lo + hi) / 2 ∧ (lo + hi) / 2 < hi := by omega
      by_cases hx : a.getD ((lo + hi) / 2) 0 < x
      · rw [if_pos hx]
        refine ih _ _ (by omega) (by omega) hlen (fun j hj => ?_) hafter
        rcases Nat.lt_succ_iff_lt_or_eq.mp hj with hj | rfl
        · exact (hmono _ _ hj (by omega)).trans hx
        · exact hx
      · rw [if_neg hx]
        refine ih _ _ (by omega) hmid.1 (by omega) hbefore fun j hj hjlen => ?_
        rcases Nat.eq_or_lt_of_le hj with rfl | hj
        · exact not_lt.mp hx
        · exact (not_lt.mp hx).trans (hmono _ _ hj hjlen).le
    · rw [if_neg hlt]
      obtain rfl : lo = hi := by omega
      exact ⟨hbefore, hafter⟩

theorem bisectLeft_spec {a : List Int} {x : Int} (hsorted : a.Pairwise (· < ·)) :
    (∀ j < bisectLeft a x, a.getD j 0 < x) ∧
      ∀ j, bisectLeft a x ≤ j → j < a.length → x ≤ a.getD j 0 :=
  bisectLoop_spec hsorted _ _ _ (Nat.sub_le _ _) (Nat.zero_le _) le_rfl
    (fun _ hj => absurd hj (Nat.not_lt_zero _)) fun _ hj hjlen => absurd hjlen (not_lt.mpr hj)

/-- **The bucket is the smallest boundary that is large enough.** -/
theorem selectBucket_ok {length b : Int} {boundaries : List Int}
    (hsorted : boundaries.Pairwise (· < ·)) (h : selectBucket length boundaries = .ok b) :
    0 ≤ length ∧ b ∈ boundaries ∧ length ≤ b ∧ ∀ c ∈ boundaries, length ≤ c → b ≤ c := by
  obtain ⟨hbefore, hafter⟩ := bisectLeft_spec (x := length) hsorted
  unfold selectBucket at h
  by_cases hneg : length < 0
  · rw [if_pos hneg] at h
    cases h
  by_cases hempty : boundaries.length = 0
  · rw [if_neg hneg, if_pos hempty] at h
    cases h
  rw [if_neg hneg, if_neg hempty] at h
  dsimp only at h
  by_cases hidx : boundaries.length ≤ bisectLeft boundaries length
  · rw [if_pos hidx] at h
    cases h
  rw [if_neg hidx] at h
  obtain rfl := Except.ok.inj h
  have hlt : bisectLeft boundaries length < boundaries.length := not_le.mp hidx
  refine ⟨not_lt.mp hneg, ?_, hafter _ le_rfl hlt, fun c hc hle => ?_⟩
  · rw [getD_eq_getElem _ _ hlt]
    exact getElem_mem hlt
  · obtain ⟨j, hj, rfl⟩ := mem_iff_getElem.mp hc
    rcases Nat.lt_trichotomy j (bisectLeft boundaries length) with hjlt | rfl | hjgt
    · -- a boundary before that index is too small
      have hsmall := hbefore j hjlt
      rw [getD_eq_getElem _ _ hj] at hsmall
      omega
    · rw [getD_eq_getElem _ _ hlt]
    · rw [getD_eq_getElem _ _ hlt]
      exact (pairwise_iff_getElem.mp hsorted _ _ hlt hj hjgt).le

theorem selectRung_ok {span cap r : Int} {ladder : List Int} (hsorted : ladder.Pairwise (· < ·))
    (hcap : span ≤ cap) (h : selectRung span cap ladder = .ok r) :
    0 ≤ span ∧ span ≤ r ∧ r ≤ cap ∧ (r = cap ∨ r ∈ ladder) ∧
      ∀ c ∈ cap :: ladder, span ≤ c → r ≤ c := by
  unfold selectRung at h
  by_cases hneg : cap < 0
  · rw [if_pos hneg] at h
    cases h
  rw [if_neg hneg] at h
  cases hbucket : selectBucket span ladder with
  | error e =>
    rw [hbucket] at h
    cases h
  | ok b =>
    rw [hbucket] at h
    obtain rfl := Except.ok.inj h
    obtain ⟨hspan, hmem, hle, hleast⟩ := selectBucket_ok hsorted hbucket
    refine ⟨hspan, le_min hle hcap, min_le_right _ _, ?_, fun c hc hspanc => ?_⟩
    · rcases min_choice b cap with hmin | hmin
      · show min b cap = cap ∨ min b cap ∈ ladder
        rw [hmin]
        exact .inr hmem
      · exact .inl hmin
    · rcases mem_cons.mp hc with rfl | hc
      · exact min_le_right _ _
      · exact (min_le_left _ _).trans (hleast c hc hspanc)

/-! ### Spans -/

section Span

variable {V : Type} [Zero V] [LT V] [DecidableLT V]

/-- `np.argmax` of booleans: where the first `true` is. -/
def argmax (row : List Bool) : Nat := if row.any id then row.findIdx id else 0

/-- `mask_np.reshape(-1, length)`: one row for each index of the leading axes. -/
def rows (mask : NdArray V) : List (List V) :=
  (NdArray.indices mask.shape.dropLast).map fun lead =>
    (List.range (mask.shape.getLastD 0)).map fun i => mask.get (lead ++ [i])

/-- The span of one row: past its last `true`. -/
def rowSpan (row : List Bool) : Nat := if row.any id then row.length - argmax row.reverse else 0

def validSpan (mask : NdArray V) : Nat :=
  if mask.shape.length = 0 ∨ mask.size = 0 ∨ mask.shape.getLastD 0 = 0 then 0
  else
    let valid := (rows mask).map fun row => row.map fun v => decide (0 < v)
    if valid.any (·.any id) then (valid.map rowSpan).foldl max 0 else 0

theorem rowSpan_le_iff {row : List Bool} {c : Nat} :
    rowSpan row ≤ c ↔ ∀ i, row[i]? = some true → i < c := by
  unfold rowSpan
  by_cases hany : row.any id = true
  · have hrev : row.reverse.any id = true := by rwa [List.any_reverse]
    rw [if_pos hany, argmax, if_pos hrev]
    -- the first `true` of the reversed row is the last one of the row
    have hlt : row.reverse.findIdx id < row.reverse.length := by
      obtain ⟨b, hb, htrue⟩ := List.any_eq_true.mp hrev
      exact List.findIdx_lt_length.mpr ⟨b, hb, htrue⟩
    have hlast : id row.reverse[row.reverse.findIdx id] = true := List.findIdx_getElem
    rw [id_eq, List.getElem_reverse] at hlast
    rw [List.length_reverse] at hlt
    constructor
    · intro hle i hi
      obtain ⟨hilen, htrue⟩ := List.getElem?_eq_some_iff.mp hi
      by_contra hc
      have hbefore : row.length - 1 - i < row.reverse.findIdx id := by omega
      have hfalse := List.not_of_lt_findIdx hbefore
      rw [List.getElem_reverse] at hfalse
      have hi' : row.length - 1 - (row.length - 1 - i) = i := by omega
      simp only [hi', htrue] at hfalse
      cases hfalse
    · intro h
      have hc := h _ (List.getElem?_eq_some_iff.mpr ⟨_, hlast⟩)
      omega
  · rw [if_neg hany]
    refine ⟨fun _ i hi => absurd (List.any_eq_true.mpr ⟨true, ?_, rfl⟩) hany, fun _ => Nat.zero_le c⟩
    exact List.mem_of_getElem? hi

theorem foldl_max_le_iff {l : List Nat} {a c : Nat} :
    l.foldl max a ≤ c ↔ a ≤ c ∧ ∀ b ∈ l, b ≤ c := by
  induction l generalizing a with
  | nil => simp
  | cons b l ih => rw [foldl_cons, ih, max_le_iff, forall_mem_cons, and_assoc]

omit [LT V] [DecidableLT V] [Zero V] in
theorem mem_rows {mask : NdArray V} {lead : List Nat} {length : Nat}
    (hshape : mask.shape = lead ++ [length]) {row : List V} : row ∈ rows mask ↔
      ∃ init, NdArray.Below lead init ∧
        row = (range length).map fun i => mask.get (init ++ [i]) := by
  rw [rows, hshape, dropLast_concat, getLastD_concat, mem_map]
  constructor
  · rintro ⟨init, hinit, rfl⟩
    exact ⟨init, NdArray.mem_indices.mp hinit, rfl⟩
  · rintro ⟨init, hinit, rfl⟩
    exact ⟨init, NdArray.mem_indices.mpr hinit, rfl⟩

/-- **The span covers just the positive entries.** -/
theorem validSpan_le_iff {mask : NdArray V} (hrank : mask.shape ≠ []) {c : Nat} :
    validSpan mask ≤ c ↔
      ∀ idx, NdArray.Below mask.shape idx → 0 < mask.get idx → idx.getLastD 0 < c := by
  obtain ⟨lead, length, hshape⟩ : ∃ lead length, mask.shape = lead ++ [length] :=
    ⟨_, _, (List.dropLast_append_getLast hrank).symm⟩
  unfold validSpan
  by_cases hempty : mask.shape.length = 0 ∨ mask.size = 0 ∨ mask.shape.getLastD 0 = 0
  · rw [if_pos hempty]
    have hzero : 0 ∈ mask.shape := by
      rcases hempty with hlen | hsize | hlast
      · exact absurd (List.length_eq_zero_iff.mp hlen) hrank
      · exact (List.prod_eq_zero_iff (l := mask.shape)).mp hsize
      · rw [hshape, List.getLastD_concat] at hlast
        rw [hshape, hlast]
        exact List.mem_append_right _ (List.mem_singleton_self 0)
    exact ⟨fun _ idx hidx => absurd hidx (NdArray.not_below_of_zero hzero), fun _ => Nat.zero_le c⟩
  · rw [if_neg hempty]
    dsimp only
    -- with or without the test for a positive entry, the spans of the rows decide
    have hspans : (if ((rows mask).map fun row => row.map fun v => decide (0 < v)).any (·.any id)
          then (((rows mask).map fun row => row.map fun v => decide (0 < v)).map rowSpan).foldl max 0
          else 0) ≤ c ↔
        ∀ row ∈ rows mask, rowSpan (row.map fun v => decide (0 < v)) ≤ c := by
      by_cases hany : ((rows mask).map fun row => row.map fun v => decide (0 < v)).any
          (·.any id) = true
      · rw [if_pos hany, foldl_max_le_iff]
        simp
      · rw [if_neg hany]
        refine ⟨fun _ row hrow => ?_, fun _ => Nat.zero_le c⟩
        have hrowNone : (row.map fun v => decide (0 < v)).any id ≠ true := fun h =>
          hany (List.any_eq_true.mpr ⟨_, List.mem_map_of_mem hrow, h⟩)
        rw [rowSpan, if_neg hrowNone]
        exact Nat.zero_le c
    rw [hspans]
    constructor
    · intro h idx hidx hpos
      rw [hshape] at hidx
      obtain ⟨init, i, rfl, hinit, hi⟩ := NdArray.below_append_singleton.mp hidx
      have hrow := rowSpan_le_iff.mp (h _ ((mem_rows hshape).mpr ⟨init, hinit, rfl⟩))
      rw [List.getLastD_concat]
      refine hrow i ?_
      simp [hi, hpos]
    · intro h row hrow
      obtain ⟨init, hinit, rfl⟩ := (mem_rows hshape).mp hrow
      refine rowSpan_le_iff.mpr fun i hi => ?_
      simp only [List.map_map, List.getElem?_map, Option.map_eq_some_iff, Function.comp_apply,
        decide_eq_true_eq] at hi
      obtain ⟨j, hj, hpos⟩ := hi
      obtain ⟨hlt, rfl⟩ := List.getElem?_eq_some_iff.mp hj
      rw [List.length_range] at hlt
      rw [List.getElem_range] at hpos
      have hidx : NdArray.Below mask.shape (init ++ [i]) := by
        rw [hshape]
        exact NdArray.below_append_singleton.mpr ⟨init, i, rfl, hinit, hlt⟩
      have hlast := h _ hidx hpos
      rwa [List.getLastD_concat] at hlast

end Span

/-! ### Axes -/

section Axes

variable {W : Type}

def normalizeAxis (axis : Int) (ndim : Nat) (op : String) : Except BucketError Nat :=
  let axisNorm := if 0 ≤ axis then axis else ndim + axis
  if axisNorm < 0 ∨ ndim ≤ axisNorm then .error (.axisOutOfRange op axis ndim)
  else .ok axisNorm.toNat

/-- `arr[..., 0:n, ...]` at an axis. -/
def sliceAxis (arr : NdArray W) (n k : Nat) : NdArray W where
  shape := arr.shape.set k (min n (arr.shape.getD k 0))
  get := arr.get

/-- `np.pad` at the end of an axis. -/
def extendAxis (arr : NdArray W) (n k : Nat) (fill : W) : NdArray W where
  shape := arr.shape.set k n
  get := fun idx => if idx.getD k 0 < arr.shape.getD k 0 then arr.get idx else fill

/-- `trim_axis`.  `None` passes through. -/
def trimAxis (arr : Option (NdArray W)) (n axis : Int) : Except BucketError (Option (NdArray W)) :=
  match arr with
  | none => .ok none
  | some arr =>
    if n < 0 then .error (.negativeTrim n)
    else (normalizeAxis axis arr.shape.length "trim_axis").map fun k =>
      some (sliceAxis arr n.toNat k)

/-- `pad_axis`.  `None` passes through. -/
def padAxis (arr : Option (NdArray W)) (n axis : Int) (fill : W) :
    Except BucketError (Option (NdArray W)) :=
  match arr with
  | none => .ok none
  | some arr =>
    if n < 0 then .error (.negativePad n)
    else
      match normalizeAxis axis arr.shape.length "pad_axis" with
      | .error e => .error e
      | .ok k =>
        let current := arr.shape.getD k 0
        if (current : Int) = n then .ok (some arr)
        else if n < current then .error (.cannotPad axis current n)
        else .ok (some (extendAxis arr n.toNat k fill))

/-- The axis by its number, or by its number from the end. -/
def IsAxis (axis : Int) (ndim k : Nat) : Prop := k < ndim ∧ (axis = k ∨ axis = (k : Int) - ndim)

theorem normalizeAxis_ok {axis : Int} {ndim k : Nat} (h : IsAxis axis ndim k) (op : String) :
    normalizeAxis axis ndim op = .ok k := by
  obtain ⟨hk, haxis⟩ := h
  have hnorm : (if 0 ≤ axis then axis else ndim + axis) = (k : Int) := by
    rcases haxis with rfl | rfl
    · rw [if_pos (Int.natCast_nonneg k)]
    · rw [if_neg (by omega)]
      omega
  rw [normalizeAxis, hnorm, if_neg (by omega), Int.toNat_natCast]

/-- **Trimming and padding back** leave what is below the length that was trimmed to. -/
theorem padAxis_trimAxis {arr : NdArray W} {axis : Int} {k length n : Nat} (fill : W)
    (haxis : IsAxis axis arr.shape.length k) (hlength : arr.shape.getD k 0 = length)
    (hn : n ≤ length) : ∃ trimmed padded, trimAxis (some arr) n axis = .ok (some trimmed) ∧
      padAxis (some trimmed) length axis fill = .ok (some padded) ∧
        padded.shape = arr.shape ∧ ∀ idx, idx.getD k 0 < n → padded.get idx = arr.get idx := by
  have hk : k < arr.shape.length := haxis.1
  have hset : arr.shape.set k length = arr.shape := by
    rw [getD_eq_getElem _ _ hk] at hlength
    rw [← hlength, set_getElem_self]
  have htrim : trimAxis (some arr) n axis = .ok (some (sliceAxis arr n k)) := by
    rw [trimAxis, if_neg (by omega), normalizeAxis_ok haxis, Int.toNat_natCast]
    rfl
  have hcurrent : (sliceAxis arr n k).shape.getD k 0 = n := by
    rw [sliceAxis, hlength, min_eq_left hn, getD_eq_getElem _ _ (by simpa using hk),
      getElem_set_self]
  have hndim : (sliceAxis arr n k).shape.length = arr.shape.length := length_set ..
  refine ⟨_, if n = length then sliceAxis arr n k else extendAxis (sliceAxis arr n k) length k fill,
    htrim, ?_, ?_⟩
  · rw [padAxis]
    dsimp only
    rw [if_neg (by omega), hndim, normalizeAxis_ok haxis]
    dsimp only
    rw [hcurrent]
    by_cases heq : n = length
    · rw [if_pos (by omega), if_pos heq]
    · rw [if_neg (by omega), if_neg (by omega), if_neg heq, Int.toNat_natCast]
  · by_cases heq : n = length
    · rw [if_pos heq]
      refine ⟨?_, fun idx _ => rfl⟩
      rw [sliceAxis, hlength, heq, min_self, hset]
    · rw [if_neg heq]
      refine ⟨?_, fun idx hidx => ?_⟩
      · rw [extendAxis, sliceAxis, set_set, hset]
      · rw [extendAxis]
        dsimp only
        rw [hcurrent, if_pos hidx]
        rfl

end Axes

/-! ### What bucketing keeps -/

section Sound

variable {V : Type} [Zero V]

/-- The length is past each entry that is in `p`. -/
def Covers (p : V → Prop) (mask : NdArray V) (c : Int) : Prop :=
  ∀ idx, NdArray.Below mask.shape idx → p (mask.get idx) → (idx.getLastD 0 : Int) < c

/-- A position of the length axis with a valid entry in some row. -/
def ValidAt (mask : NdArray V) (i : Nat) : Prop :=
  ∃ idx, NdArray.Below mask.shape idx ∧ mask.get idx ≠ 0 ∧ idx.getLastD 0 = i

/-- The rung is the least length that covers the valid entries, and nothing valid is lost when an
array is trimmed to it at an axis and padded back.  A negative number is no length. -/
structure RungSound (mask : NdArray V) (ladder : List Int) (r : Int) : Prop where
  le_length : r ≤ mask.shape.getLastD 0
  mem : r = mask.shape.getLastD 0 ∨ r ∈ ladder
  covers : Covers (· ≠ 0) mask r
  least : ∀ c ∈ (mask.shape.getLastD 0 : Int) :: ladder, 0 ≤ c → Covers (· ≠ 0) mask c → r ≤ c
  restores : ∀ (W : Type) (arr : NdArray W) (axis : Int) (k : Nat) (fill : W),
    IsAxis axis arr.shape.length k → arr.shape.getD k 0 = mask.shape.getLastD 0 →
      ∃ trimmed padded, trimAxis (some arr) r axis = .ok (some trimmed) ∧
        padAxis (some trimmed) (mask.shape.getLastD 0) axis fill = .ok (some padded) ∧
          padded.shape = arr.shape ∧
            ∀ idx, NdArray.Below arr.shape idx → ValidAt mask (idx.getD k 0) →
              padded.get idx = arr.get idx

variable [LT V] [DecidableLT V]

theorem validSpan_le_length {mask : NdArray V} (hrank : mask.shape ≠ []) :
    validSpan mask ≤ mask.shape.getLastD 0 := by
  refine (validSpan_le_iff hrank).mpr fun idx hidx _ => ?_
  obtain ⟨lead, length, hshape⟩ : ∃ lead length, mask.shape = lead ++ [length] :=
    ⟨_, _, (dropLast_append_getLast hrank).symm⟩
  rw [hshape] at hidx ⊢
  obtain ⟨init, i, rfl, -, hi⟩ := NdArray.below_append_singleton.mp hidx
  rwa [getLastD_concat, getLastD_concat]

theorem covers_positive_iff {mask : NdArray V} (hrank : mask.shape ≠ []) {c : Int} (hc : 0 ≤ c) :
    Covers (0 < ·) mask c ↔ (validSpan mask : Int) ≤ c := by
  obtain ⟨n, rfl⟩ := Int.eq_ofNat_of_zero_le hc
  rw [Int.ofNat_le, validSpan_le_iff hrank]
  exact forall₃_congr fun idx _ _ => Int.ofNat_lt

/-- **Bucketing loses no valid position** just when every length of the ladder, and that of the
mask, that covers the positive entries covers the entries that are not zero. -/
theorem rung_sound_iff (hzero : ¬ (0 : V) < 0) {mask : NdArray V} (hrank : mask.shape ≠ [])
    {ladder : List Int} (hsorted : ladder.Pairwise (· < ·)) {r : Int}
    (hr : selectRung (validSpan mask) (mask.shape.getLastD 0) ladder = .ok r) :
    RungSound mask ladder r ↔
      ∀ c ∈ (mask.shape.getLastD 0 : Int) :: ladder, 0 ≤ c →
        Covers (0 < ·) mask c → Covers (· ≠ 0) mask c := by
  obtain ⟨-, hspan, hle, hmem, hleast⟩ :=
    selectRung_ok hsorted (Int.ofNat_le.mpr (validSpan_le_length hrank)) hr
  have hnonneg : 0 ≤ r := le_trans (Int.natCast_nonneg _) hspan
  constructor
  · intro h c hc hc0 hpos idx hidx hvalid
    have hrc : r ≤ c := hleast c hc ((covers_positive_iff hrank hc0).mp hpos)
    exact lt_of_lt_of_le (h.covers idx hidx hvalid) hrc
  · intro h
    have hcovers : Covers (· ≠ 0) mask r := by
      refine h r ?_ hnonneg ((covers_positive_iff hrank hnonneg).mpr hspan)
      rcases hmem with rfl | hmem
      · exact List.mem_cons_self
      · exact List.mem_cons_of_mem _ hmem
    refine ⟨hle, hmem, hcovers, fun c hc hc0 hcov => ?_, fun W arr axis k fill haxis hlen => ?_⟩
    · refine hleast c hc ((covers_positive_iff hrank hc0).mp fun idx hidx hpos => ?_)
      refine hcov idx hidx fun heq => ?_
      rw [heq] at hpos
      exact hzero hpos
    · obtain ⟨n, rfl⟩ := Int.eq_ofNat_of_zero_le hnonneg
      obtain ⟨trimmed, padded, htrim, hpad, hshape, hget⟩ :=
        padAxis_trimAxis fill haxis hlen (Int.ofNat_le.mp hle)
      refine ⟨trimmed, padded, htrim, hpad, hshape, fun idx _ hvalid => hget idx ?_⟩
      obtain ⟨midx, hmidx, hne, hlast⟩ := hvalid
      have hlt := hcovers midx hmidx hne
      rw [hlast] at hlt
      exact Int.ofNat_lt.mp hlt

end Sound

/-! ### Masks of integers -/

/-- Two rows of three positions, of which the first two are valid. -/
def sampleMask : NdArray Int where
  shape := [2, 3]
  get idx := if idx.getLastD 0 < 2 then 1 else 0

theorem rung_sound_sample : RungSound sampleMask [1, 2, 4] 2 := by
  refine (rung_sound_iff (by decide) (by decide) (by decide) (by decide)).mpr ?_
  intro c _ _ hpos idx hidx hne
  refine hpos idx hidx ?_
  unfold sampleMask at hne ⊢
  dsimp only at hne ⊢
  split at hne
  · rw [if_pos ‹_›]
    decide
  · exact absurd rfl hne

/-- The last position is valid and negative. -/
def signedMask : NdArray Int where
  shape := [3]
  get idx := [1, 0, -1].getD (idx.getLastD 0) 0

theorem not_rung_sound : selectRung (validSpan signedMask) 3 [1, 2, 4] = .ok 1 ∧
    ¬ RungSound signedMask [1, 2, 4] 1 := by
  refine ⟨by decide, fun h => ?_⟩
  have hlast : (2 : Int) < 1 := h.covers [2] (.cons (by decide) .nil) (by decide)
  exact absurd hlast (by decide)

end Xtrax.Bucket
