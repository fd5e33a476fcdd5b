import Mathlib.Data.Prod.Lex
import Mathlib.Data.List.Sort
import Mathlib.MeasureTheory.Measure.Lebesgue.Basic

/-! # The busy time of a trace

The spans of a trace's device events are merged in one pass over the spans sorted by their start.  The
pass keeps a current interval and the length of what lies before it: all spans still to come start
within or after the current interval, so the two never count a moment twice.  The result is the
Lebesgue measure of the union of the spans, and from that follow its bounds and that the order of the
events does not matter.  Times are exact rationals.
-/
namespace Xtrax.Trace

open MeasureTheory Set

/-- A value in a trace event. -/
inductive Value
  | str (s : String)
  | bool (b : Bool)
  | number (q : ℚ)
  | nonFinite
  | dict (entries : List (String × Value))
  | other

abbrev Event := List (String × Value)

/-- The span of a complete event of a device, if the loop does not pass it over.  No truth value
is a number (`_is_finite_number`). -/
def spanOf (event : Event) : Option (ℚ × ℚ) :=
  match event.lookup "ph", event.lookup "args", event.lookup "ts", event.lookup "dur" with
  | some (.str ph), some (.dict args), some (.number ts), some (.number dur) =>
    if ph = "X" ∧ "hlo_op" ∈ args.map Prod.fst ∧ ¬dur ≤ 0 then some (ts, ts + dur) else none
  | _, _, _, _ => none

/-- The loop over the sorted spans. -/
def mergeSpans (totalUs curStart curEnd : ℚ) : List (ℚ × ℚ) → ℚ
  | [] => totalUs + (curEnd - curStart)
  | (start, stop) :: spans =>
    if start > curEnd then mergeSpans (totalUs + (curEnd - curStart)) start stop spans
    else if stop > curEnd then mergeSpans totalUs curStart stop spans
    else mergeSpans totalUs curStart curEnd spans

def intervalUnionSeconds (traceEvents : List Event) : ℚ :=
  match (traceEvents.filterMap spanOf).mergeSort fun a b => toLex a ≤ toLex b with
  | [] => 0
  | (curStart, curEnd) :: spans => mergeSpans 0 curStart curEnd spans / 1000000

/-! ## Merging sorted spans -/

/-- The moments that some span covers. -/
def covered (spans : List (ℚ × ℚ)) : Set ℝ := {t | ∃ s ∈ spans, (s.1 : ℝ) ≤ t ∧ t ≤ s.2}

@[simp] theorem covered_nil : covered [] = ∅ := by simp [covered]

theorem covered_cons (s : ℚ × ℚ) (spans : List (ℚ × ℚ)) :
    covered (s :: spans) = Icc (s.1 : ℝ) s.2 ∪ covered spans := by
  ext t
  simp [covered]

theorem covered_congr {spans spans' : List (ℚ × ℚ)} (h : ∀ s, s ∈ spans ↔ s ∈ spans') :
    covered spans = covered spans' := by
  simp only [covered, h]

theorem measurableSet_covered (spans : List (ℚ × ℚ)) : MeasurableSet (covered spans) := by
  induction spans with
  | nil => simp
  | cons s spans ih =>
    rw [covered_cons]
    exact measurableSet_Icc.union ih

theorem volume_span (s : ℚ × ℚ) : volume (Icc (s.1 : ℝ) s.2) = ENNReal.ofReal (s.2 - s.1 : ℚ) := by
  rw [Real.volume_Icc, Rat.cast_sub]

/-- Spans as the loop meets them: each ends after its start, and the starts increase. -/
structure Sorted (spans : List (ℚ × ℚ)) : Prop where
  le : ∀ s ∈ spans, s.1 ≤ s.2
  pairwise : spans.Pairwise fun a b => a.1 ≤ b.1

theorem Sorted.tail {s : ℚ × ℚ} {spans : List (ℚ × ℚ)} (h : Sorted (s :: spans)) : Sorted spans :=
  ⟨fun s' hs' => h.le s' (List.mem_cons_of_mem _ hs'), h.pairwise.tail⟩

theorem Sorted.head_le {s s' : ℚ × ℚ} {spans : List (ℚ × ℚ)} (h : Sorted (s :: spans))
    (hs' : s' ∈ spans) : s.1 ≤ s'.1 :=
  List.rel_of_pairwise_cons h.pairwise hs'

/-- The loop's invariant: what is covered from the current interval on and the total before it add
up to the result. -/
theorem volume_mergeSpans {spans : List (ℚ × ℚ)} :
    ∀ {totalUs curStart curEnd : ℚ}, 0 ≤ totalUs → Sorted ((curStart, curEnd) :: spans) →
      ENNReal.ofReal totalUs + volume (covered ((curStart, curEnd) :: spans)) =
        ENNReal.ofReal (mergeSpans totalUs curStart curEnd spans) ∧
      0 ≤ mergeSpans totalUs curStart curEnd spans := by
  induction spans with
  | nil =>
    intro totalUs curStart curEnd htotal hsorted
    have hle : 0 ≤ curEnd - curStart := sub_nonneg.mpr (hsorted.le _ List.mem_cons_self)
    refine ⟨?_, add_nonneg htotal hle⟩
    rw [covered_cons, covered_nil, union_empty, volume_span,
      ← ENNReal.ofReal_add (mod_cast htotal) (mod_cast hle), mergeSpans, ← Rat.cast_add]
  | cons span spans ih =>
    intro totalUs curStart curEnd htotal hsorted
    obtain ⟨start, stop⟩ := span
    have hcur : curStart ≤ curEnd := hsorted.le _ List.mem_cons_self
    have hspan : start ≤ stop := hsorted.tail.le _ List.mem_cons_self
    have hstart : curStart ≤ start := hsorted.head_le List.mem_cons_self
    rw [mergeSpans]
    by_cases hgap : start > curEnd
    · -- nothing that is still to come reaches back into the current interval
      have hdisjoint : Disjoint (Icc (curStart : ℝ) curEnd) (covered ((start, stop) :: spans)) := by
        rw [disjoint_left]
        rintro t ⟨-, ht⟩ ⟨s, hs, hst, -⟩
        have hle : start ≤ s.1 := by
          cases hs with
          | head => exact le_rfl
          | tail _ hs => exact hsorted.tail.head_le hs
        have hlt : (curEnd : ℝ) < s.1 := mod_cast lt_of_lt_of_le hgap hle
        exact absurd (hst.trans ht) (not_le.mpr hlt)
      have hlength : 0 ≤ curEnd - curStart := sub_nonneg.mpr hcur
      rw [if_pos hgap, covered_cons, measure_union hdisjoint (measurableSet_covered _),
        volume_span (curStart, curEnd), ← add_assoc,
        ← ENNReal.ofReal_add (mod_cast htotal) (mod_cast hlength), ← Rat.cast_add]
      exact ih (add_nonneg htotal hlength) hsorted.tail
    · rw [if_neg hgap]
      have hgap : start ≤ curEnd := not_lt.mp hgap
      have hsorted' (curEnd' : ℚ) (hle : curStart ≤ curEnd') :
          Sorted ((curStart, curEnd') :: spans) := by
        refine ⟨?_, List.pairwise_cons.mpr ⟨fun s hs => ?_, hsorted.tail.pairwise.tail⟩⟩
        · rintro s (_ | ⟨_, hs⟩)
          · exact hle
          · exact hsorted.tail.tail.le s hs
        · exact hsorted.head_le (List.mem_cons_of_mem _ hs)
      by_cases hlonger : stop > curEnd
      · rw [if_pos hlonger, covered_cons, covered_cons, ← union_assoc,
          Icc_union_Icc' (mod_cast hgap) (mod_cast hcur.trans hlonger.le),
          min_eq_left (mod_cast hstart), max_eq_right (mod_cast hlonger.le),
          ← covered_cons (curStart, stop)]
        exact ih htotal (hsorted' stop (hcur.trans hlonger.le))
      · have hnested : Icc (start : ℝ) stop ⊆ Icc (curStart : ℝ) curEnd :=
          Icc_subset_Icc (mod_cast hstart) (mod_cast not_lt.mp hlonger)
        rw [if_neg hlonger, covered_cons, covered_cons, ← union_assoc, union_eq_left.mpr hnested,
          ← covered_cons (curStart, curEnd)]
        exact ih htotal (hsorted' curEnd hcur)

/-! ## Busy time -/

/-- An event of a device that runs from `ts` on for `dur`. -/
def Qualifies (event : Event) (ts dur : ℚ) : Prop :=
  event.lookup "ph" = some (.str "X") ∧
  (∃ args, event.lookup "args" = some (.dict args) ∧ "hlo_op" ∈ args.map Prod.fst) ∧
  event.lookup "ts" = some (.number ts) ∧ event.lookup "dur" = some (.number dur) ∧ 0 < dur

theorem spanOf_eq_some {event : Event} {s : ℚ × ℚ} :
    spanOf event = some s ↔ ∃ ts dur, Qualifies event ts dur ∧ s = (ts, ts + dur) := by
  constructor
  · intro h
    unfold spanOf at h
    split at h
    case h_1 ph args ts dur hph hargs hts hdur =>
      split_ifs at h with hcond
      obtain ⟨rfl, hop, hpos⟩ := hcond
      exact ⟨ts, dur, ⟨hph, ⟨args, hargs, hop⟩, hts, hdur, not_le.mp hpos⟩, (Option.some.inj h).symm⟩
    case h_2 => cases h
  · rintro ⟨ts, dur, ⟨hph, ⟨args, hargs, hop⟩, hts, hdur, hpos⟩, rfl⟩
    simp only [spanOf, hph, hargs, hts, hdur]
    exact if_pos ⟨trivial, hop, not_le.mpr hpos⟩

/-- The moments at which some device event runs. -/
def busy (traceEvents : List Event) : Set ℝ :=
  {t | ∃ event ∈ traceEvents, ∃ ts dur : ℚ, Qualifies event ts dur ∧ t ∈ Icc (ts : ℝ) (ts + dur)}

theorem covered_spans (traceEvents : List Event) :
    covered (traceEvents.filterMap spanOf) = busy traceEvents := by
  ext t
  constructor
  · rintro ⟨s, hs, ht⟩
    obtain ⟨event, hevent, hs⟩ := List.mem_filterMap.mp hs
    obtain ⟨ts, dur, hq, rfl⟩ := spanOf_eq_some.mp hs
    exact ⟨event, hevent, ts, dur, hq, by simpa using ht⟩
  · rintro ⟨event, hevent, ts, dur, hq, ht⟩
    refine ⟨(ts, ts + dur), ?_, by simpa using ht⟩
    exact List.mem_filterMap.mpr ⟨event, hevent, spanOf_eq_some.mpr ⟨ts, dur, hq, rfl⟩⟩

theorem span_le {traceEvents : List Event} {s : ℚ × ℚ} (hs : s ∈ traceEvents.filterMap spanOf) :
    s.1 ≤ s.2 := by
  obtain ⟨event, -, hs⟩ := List.mem_filterMap.mp hs
  obtain ⟨ts, dur, ⟨-, -, -, -, hdur⟩, rfl⟩ := spanOf_eq_some.mp hs
  exact le_add_of_nonneg_right hdur.le

theorem volume_busy (traceEvents : List Event) :
    volume (busy traceEvents) = ENNReal.ofReal (intervalUnionSeconds traceEvents * 1000000) ∧
      0 ≤ intervalUnionSeconds traceEvents := by
  rw [← covered_spans, intervalUnionSeconds]
  have hperm := List.mergeSort_perm (traceEvents.filterMap spanOf) fun a b => toLex a ≤ toLex b
  have hsorted := List.pairwise_mergeSort' (fun a b : ℚ × ℚ => toLex a ≤ toLex b)
    (traceEvents.filterMap spanOf)
  rw [← covered_congr fun s => hperm.mem_iff]
  cases hspans : (traceEvents.filterMap spanOf).mergeSort fun a b => toLex a ≤ toLex b with
  | nil => simp
  | cons span spans =>
    rw [hspans] at hperm hsorted
    have hloop : Sorted (span :: spans) :=
      ⟨fun s hs => span_le (hperm.mem_iff.mp hs), hsorted.imp fun h => Prod.Lex.monotone_fst _ _ h⟩
    obtain ⟨hvolume, hnonneg⟩ := volume_mergeSpans le_rfl hloop
    refine ⟨?_, div_nonneg hnonneg (by norm_num)⟩
    rw [Rat.cast_zero, ENNReal.ofReal_zero, zero_add] at hvolume
    rw [hvolume]
    congr 1
    push_cast
    ring

theorem volume_covered_le (spans : List (ℚ × ℚ)) :
    (∀ s ∈ spans, s.1 ≤ s.2) →
      volume (covered spans) ≤ ENNReal.ofReal ((spans.map fun s => s.2 - s.1).sum : ℚ) ∧
      0 ≤ (spans.map fun s => s.2 - s.1).sum := by
  induction spans with
  | nil => simp
  | cons s spans ih =>
    intro hle
    obtain ⟨hvolume, hnonneg⟩ := ih fun s' hs' => hle s' (List.mem_cons_of_mem _ hs')
    have hs : 0 ≤ s.2 - s.1 := sub_nonneg.mpr (hle s List.mem_cons_self)
    rw [List.map_cons, List.sum_cons]
    refine ⟨?_, add_nonneg hs hnonneg⟩
    rw [covered_cons, Rat.cast_add, ENNReal.ofReal_add (mod_cast hs) (mod_cast hnonneg), ← volume_span]
    exact (measure_union_le _ _).trans (add_le_add_right hvolume _)

theorem seconds_le {traceEvents : List Event} {q : ℚ} (hq : 0 ≤ q)
    (h : volume (busy traceEvents) ≤ ENNReal.ofReal q) :
    intervalUnionSeconds traceEvents * 1000000 ≤ q := by
  rw [(volume_busy traceEvents).1, ENNReal.ofReal_le_ofReal_iff (mod_cast hq)] at h
  exact_mod_cast h

/-- **Busy time is the measure of the union of the device events' spans.**  It does not depend on the
order of the events, it is at most the sum of their durations, and at most the time from the first
start to the last end. -/
theorem interval_union_measure (traceEvents : List Event) :
    (volume (busy traceEvents) = ENNReal.ofReal (intervalUnionSeconds traceEvents * 1000000) ∧
      0 ≤ intervalUnionSeconds traceEvents) ∧
    (∀ traceEvents' : List Event, traceEvents'.Perm traceEvents →
      intervalUnionSeconds traceEvents' = intervalUnionSeconds traceEvents) ∧
    intervalUnionSeconds traceEvents * 1000000 ≤
      ((traceEvents.filterMap spanOf).map fun s => s.2 - s.1).sum ∧
    ∀ first last : ℚ, first ≤ last →
      (∀ event ∈ traceEvents, ∀ ts dur, Qualifies event ts dur → first ≤ ts ∧ ts + dur ≤ last) →
      intervalUnionSeconds traceEvents * 1000000 ≤ last - first := by
  refine ⟨volume_busy traceEvents, ?_, ?_, ?_⟩
  · intro traceEvents' hperm
    have hbusy : busy traceEvents' = busy traceEvents := by simp only [busy, hperm.mem_iff]
    obtain ⟨hvolume, hnonneg⟩ := volume_busy traceEvents
    obtain ⟨hvolume', hnonneg'⟩ := volume_busy traceEvents'
    rw [hbusy, hvolume, ENNReal.ofReal_eq_ofReal_iff (by positivity) (by positivity)] at hvolume'
    have heq := mul_right_cancel₀ (by norm_num) hvolume'
    exact_mod_cast heq.symm
  · obtain ⟨hvolume, hnonneg⟩ := volume_covered_le (traceEvents.filterMap spanOf) fun _ => span_le
    rw [covered_spans] at hvolume
    exact seconds_le hnonneg hvolume
  · intro first last hle hwithin
    refine seconds_le (sub_nonneg.mpr hle) ?_
    rw [← volume_span (first, last)]
    refine measure_mono ?_
    rintro t ⟨event, hevent, ts, dur, hq, hts, ht⟩
    obtain ⟨hfirst, hlast⟩ := hwithin event hevent ts dur hq
    have hlast : (ts : ℝ) + dur ≤ last := mod_cast hlast
    exact ⟨le_trans (mod_cast hfirst) hts, ht.trans hlast⟩

end Xtrax.Trace
