import Xtrax.BatchPlannerBudget
import Xtrax.IntentPosthoc

/-!
# Scans around whiles in a resolved plan

On a backend with the hazard, a plan that is resolved without overrides leaves no chunked map
around a static while: what a hazard rule sees of the sites below is what the plan gives them
(`preview_static`).  The rule does not look at conditional loops, nor at what a site runs on its
diff path; `nested_pairs` says what that leaves for the check of the compiled program.
-/

namespace Xtrax.Intent

open Except List

open BatchPlanner (AxisSpec AxisDecision MemoryBudget)
open Results

section

variable {jax : Jax} {records : List SiteRecord} {ctx : Context} {mode : DiffMode} {plan : Plan}
  {record other : SiteRecord} {d d' : SiteDecision}

/-! ### Decisions without overrides -/

/-- A decision that no override made: loops scan exactly where static whiles are forbidden, and
maps run one strategy on both paths. -/
structure Plain (ctx : Context) (d : SiteDecision) : Prop where
  scan : d.primal.isScan = true → forbidsStaticWhile ctx = true
  static : d.primal.isStaticWhile = true → forbidsStaticWhile ctx = false
  map : d.kind = .map → d.diff = some d.primal

theorem Plain.same (h : Plain ctx d) (hsame : SameStrategies d d') : Plain ctx d' where
  scan := by rw [hsame.primal]; exact h.scan
  static := by rw [hsame.primal]; exact h.static
  map := by rw [hsame.kind, hsame.diff, hsame.primal]; exact h.map

theorem Plain.movedBack (hmoved : MovedBack d d') : Plain ctx d' where
  scan := by rw [hmoved.primal]; exact nofun
  static := by rw [hmoved.primal]; exact nofun
  map := by rw [hmoved.primal, hmoved.diff]; exact fun _ => rfl

theorem Automatic.plain (h : Automatic record ctx mode d) : Plain ctx d := by
  cases h with
  | op hkind h =>
    unfold opDecision at h
    split at h
    · cases h
    · obtain rfl := ok.inj h
      exact ⟨by simp [Strategy.isScan], by simp [Strategy.isStaticWhile], by simp⟩
  | loop hkind =>
    obtain ⟨hprimal, -⟩ := loopChoice_spec record ctx mode
    refine ⟨fun h => ?_, fun h => ?_, fun hmap => ?_⟩
    · change (loopChoice record ctx mode).1.isScan = true at h
      rw [hprimal] at h
      cases hlength : record.length <;> cases hforbids : forbidsStaticWhile ctx <;>
        simp [hlength, hforbids, Strategy.isScan] at h ⊢
    · change (loopChoice record ctx mode).1.isStaticWhile = true at h
      rw [hprimal] at h
      cases hlength : record.length <;> cases hforbids : forbidsStaticWhile ctx <;>
        simp [hlength, hforbids, Strategy.isStaticWhile] at h ⊢
    · cases hkind.symm.trans hmap
  | @map strategy _ _ hkind hstrategy =>
    refine ⟨fun h => ?_, fun h => ?_, fun _ => rfl⟩
    · change strategy.isScan = true at h
      cases strategy with
      | scan => cases hstrategy
      | _ => cases h
    · change strategy.isStaticWhile = true at h
      cases strategy with
      | staticWhile => cases hstrategy
      | _ => cases h

theorem noTwinDecision_not_chunked (h : noTwinDecision record ctx mode = .ok d) :
    d.primal.isChunkedMap = false := by
  unfold noTwinDecision at h
  split at h
  · unfold opDecision at h
    split at h
    · exact nomatch h
    · obtain rfl := ok.inj h
      rfl
  · obtain rfl := ok.inj h
    rfl
  · obtain rfl := ok.inj h
    obtain ⟨hprimal, -⟩ := loopChoice_spec record ctx mode
    show (loopChoice record ctx mode).1.isChunkedMap = false
    rw [hprimal]
    cases record.length with
    | none => rfl
    | some length => cases forbidsStaticWhile ctx <;> rfl

/-- Where a decision of the plan comes from: it is final, a copy of a final one, or that of a
site without twin. -/
theorem Resolved.decision_cases {overrides : Overrides}
    (R : Resolved jax records ctx overrides mode plan)
    (h : finalDecision R.final ctx mode record = .ok d) :
    (isPrimalChain record.key = true ∧ R.final record.key = some d) ∨
      (isPrimalChain record.key = false ∧ ∃ twin, R.final (canonical record.key) = some twin ∧
        SameStrategies { twin with key := d.key } d) ∨
      (isPrimalChain record.key = false ∧ R.final (canonical record.key) = none ∧
        noTwinDecision record ctx mode = .ok d) := by
  unfold finalDecision at h
  split at h
  · rename_i hprimal
    split at h
    · exact nomatch h
    · rename_i hsome
      obtain rfl := ok.inj h
      exact .inl ⟨hprimal, hsome⟩
  · rename_i hprimal
    have hprimal := Bool.eq_false_iff.mpr hprimal
    unfold diffVisit at h
    split at h
    · rename_i hnone
      obtain ⟨d₁, hd₁, h⟩ := bind_eq_ok.mp h
      obtain ⟨⟨⟩, -, h⟩ := bind_eq_ok.mp h
      obtain rfl := ok.inj h
      exact .inr (.inr ⟨hprimal, hnone, hd₁⟩)
    · rename_i twin htwin
      obtain rfl := ok.inj h
      exact .inr (.inl ⟨hprimal, twin, htwin, rfl, rfl, rfl, rfl⟩)

section Plan
variable (R : Resolved jax records ctx [] mode plan) (hkeys : (records.map (·.key)).Nodup)
include R hkeys

theorem Resolved.chosen_plain (hrecord : record ∈ records) (h : R.chosen record.key = some d) :
    Plain ctx d := by
  obtain ⟨automatic, hautomatic, heq⟩ := bind_eq_ok.mp (R.chosen_of_key hkeys hrecord h).2
  obtain rfl := ok.inj heq
  exact (automaticDecision_automatic hautomatic).plain

theorem Resolved.final_plain (hrecord : record ∈ records) (h : R.final record.key = some d) :
    Plain ctx d := by
  obtain ⟨d₀, hchosen, -, -, hsame | hmoved, -⟩ := R.final_of_key hkeys hrecord h
  · exact (R.chosen_plain hkeys hrecord hchosen).same hsame
  · exact Plain.movedBack hmoved

theorem Resolved.decision_plain (hrecord : record ∈ records)
    (h : finalDecision R.final ctx mode record = .ok d) : Plain ctx d := by
  rcases R.decision_cases h with
    ⟨-, hfinal⟩ | ⟨-, twin, htwin, hsame⟩ | ⟨-, -, hnoTwin⟩
  · exact R.final_plain hkeys hrecord hfinal
  · obtain ⟨r, hr, hkey, -⟩ := (hazardLoop_spec R.final_eq).sound _ _ htwin
    rw [← hkey] at htwin
    have hplain := R.final_plain hkeys hr htwin
    have hcopy : Plain ctx { twin with key := d.key } := ⟨hplain.scan, hplain.static, hplain.map⟩
    exact hcopy.same hsame
  · exact (noTwinDecision_automatic hnoTwin).plain

/-! ### What a hazard rule sees -/

theorem Resolved.chosen_static (hrecord : record ∈ records)
    (h : R.final record.key = some d) (hstatic : d.primal.isStaticWhile = true) :
    ∃ d₀, R.chosen record.key = some d₀ ∧ d₀.primal.isStaticWhile = true := by
  obtain ⟨d₀, hchosen, -, -, hsame | hmoved, -⟩ := R.final_of_key hkeys hrecord h
  · exact ⟨d₀, hchosen, hsame.primal ▸ hstatic⟩
  · rw [hmoved.primal] at hstatic
    exact nomatch hstatic

/-- **What a hazard rule sees of a static while of the plan is one.** -/
theorem Resolved.preview_static (hother : other ∈ records)
    (h : finalDecision R.final ctx mode other = .ok d) (hstatic : d.primal.isStaticWhile = true) :
    ∃ seen, preview other R.chosen ctx mode = .ok seen ∧ seen.primal.isStaticWhile = true := by
  unfold preview
  rcases R.decision_cases h with
    ⟨-, hfinal⟩ | ⟨hdiff, twin, htwin, hsame⟩ | ⟨hdiff, hnone, hnoTwin⟩
  · obtain ⟨d₀, hchosen, hstatic₀⟩ := R.chosen_static hkeys hother hfinal hstatic
    rw [hchosen]
    exact ⟨d₀, rfl, hstatic₀⟩
  · have hunchosen : R.chosen other.key = none := by
      cases hchosen : R.chosen other.key with
      | none => rfl
      | some d₀ =>
        obtain ⟨-, -, -, hprimal, -⟩ := (chooseAll_spec R.chosen_eq).sound _ _ hchosen
        rw [hdiff] at hprimal
        exact nomatch hprimal
    obtain ⟨r, hr, hkey, -⟩ := (hazardLoop_spec R.final_eq).sound _ _ htwin
    rw [← hkey] at htwin
    rw [hsame.primal] at hstatic
    obtain ⟨d₀, hchosen, hstatic₀⟩ := R.chosen_static hkeys hr htwin hstatic
    rw [hunchosen, ← hkey, hchosen]
    exact ⟨d₀, rfl, hstatic₀⟩
  · -- no primal-chain record has the key, so nothing was chosen for it either
    have hunchosen : ∀ key, canonical key = canonical other.key → R.chosen key = none := by
      intro key hkey
      cases hchosen : R.chosen key with
      | none => rfl
      | some d₀ =>
        obtain ⟨r, hr, rfl, hprimal, -⟩ := (chooseAll_spec R.chosen_eq).sound _ _ hchosen
        obtain ⟨d₁, hd₁⟩ := (hazardLoop_spec R.final_eq).complete r hr hprimal
        rw [← hkey, isPrimalChain_iff.mp hprimal, hd₁] at hnone
        exact nomatch hnone
    rw [hunchosen other.key rfl, hunchosen (canonical other.key) (canonical_canonical _)]
    exact ⟨d, hnoTwin, hstatic⟩

/-- **No chunked map is left around a static while.** -/
theorem Resolved.not_chunked_around_static
    (hbackend : isScanAroundWhileBackend (ctx.resolvedBackend jax.defaultBackend) = true)
    (hrecord : record ∈ records) (hfinal : R.final record.key = some d)
    (hother : other ∈ records) (h : finalDecision R.final ctx mode other = .ok d')
    (hne : other.key ≠ record.key) (hbelow : record.key ∈ ancestorKeys other.key)
    (hstatic : d'.primal.isStaticWhile = true) : d.primal.isChunkedMap = false := by
  obtain ⟨-, -, -, -, -, working, hmade⟩ := R.final_of_key hkeys hrecord hfinal
  obtain ⟨d₀, views, -, hviews, ⟨hsame, hunseen⟩ | ⟨hmoved, -⟩⟩ := withHazards_spec hmade
  · cases hchunked : d.primal.isChunkedMap with
    | false => rfl
    | true =>
      rw [hsame.primal] at hchunked
      have hrule := hunseen rfl hchunked
      obtain ⟨seen, hpreview, hseen⟩ := R.preview_static hkeys hother h hstatic
      -- the rule looks at this very site
      obtain ⟨r, -, hkey, hprimal, -⟩ := (hazardLoop_spec R.final_eq).sound _ _ hfinal
      have hsubtree : other ∈ subtree record records := by
        refine mem_filter.mpr ⟨hother, ?_⟩
        rw [isPrimalChain_iff.mp hprimal]
        simp [hne, hbelow]
      obtain ⟨below, hmap, hviews⟩ := bind_eq_ok.mp hviews
      obtain rfl := ok.inj hviews
      obtain ⟨seen', hmem, hpreview'⟩ := exists_of_forall₂ (mapM_eq_ok.mp hmap) hsubtree
      obtain rfl := ok.inj (hpreview.symm.trans hpreview')
      have hfires : scanAroundWhile (ctx.resolvedBackend jax.defaultBackend) d₀
          (below.map HazardView.decision ++ [HazardView.record record]) = true := by
        unfold scanAroundWhile
        rw [hbackend, hchunked, Bool.true_or, Bool.true_and, Bool.true_and]
        exact any_eq_true.mpr ⟨_, mem_append_left _ (mem_map_of_mem hmem), hseen⟩
      rw [hrule] at hfires
      exact nomatch hfires
  · rw [hmoved.primal]
    rfl

end Plan

/-! ### The program of the plan -/

mutual

theorem iterEqn_trans {a b : Eqn} (hab : a ∈ iterJaxprEqns b.subs) :
    ∀ top : Eqn, b ∈ iterEqn top → a ∈ iterEqn top
  | .mk primitive origin subs, hb => by
    rcases mem_iterEqn.mp hb with rfl | hb
    · exact mem_iterEqn.mpr (.inr hab)
    · exact mem_iterEqn.mpr (.inr (iterJaxprEqns_trans hab subs hb))

theorem iterJaxprEqns_trans {a b : Eqn} (hab : a ∈ iterJaxprEqns b.subs) :
    ∀ eqns : List Eqn, b ∈ iterJaxprEqns eqns → a ∈ iterJaxprEqns eqns
  | [], hb => nomatch hb
  | eqn :: eqns, hb => by
    rw [iterJaxprEqns, mem_append] at hb ⊢
    rcases hb with hb | hb
    · exact .inl (iterEqn_trans hab eqn hb)
    · exact .inr (iterJaxprEqns_trans hab eqns hb)

end

theorem length_parents_canonical (key : SiteKey) :
    (parents (canonical key)).length = (parents key).length := by
  induction key with
  | root => rfl
  | child parent path label ordinal ih => rw [canonical, parents, parents, length_cons,
      length_cons, ih]

theorem length_parents_lt {a b : SiteKey} (h : a ∈ parents b) :
    (parents a).length < (parents b).length := by
  induction b with
  | root => exact nomatch h
  | child parent path label ordinal ih =>
    rw [parents, length_cons]
    rcases mem_cons.mp h with rfl | h
    · exact Nat.lt_succ_self _
    · exact Nat.lt_succ_of_lt (ih h)

theorem ne_canonical_of_below {a b : SiteKey} (h : a ∈ parents b) : b ≠ canonical a := by
  intro heq
  have hlt := length_parents_lt h
  rw [heq, length_parents_canonical] at hlt
  exact Nat.lt_irrefl _ hlt

/-- **A site that runs a scan on its primal path, or a map on either, has no static while below
it.** -/
theorem Resolved.not_scan_around_static (R : Resolved jax records ctx [] mode plan)
    (hkeys : (records.map (·.key)).Nodup)
    (hbackend : isScanAroundWhileBackend (ctx.resolvedBackend jax.defaultBackend) = true)
    (hrecord : record ∈ records) (h : finalDecision R.final ctx mode record = .ok d)
    (hother : other ∈ records) (h' : finalDecision R.final ctx mode other = .ok d')
    (hbelow : record.key ∈ parents other.key) (hstatic : d'.primal.isStaticWhile = true) :
    d.primal.isChunkedMap = false ∧ d.primal.isScan = false := by
  constructor
  · have hancestor : canonical record.key ∈ ancestorKeys other.key := mem_map_of_mem hbelow
    have hne := ne_canonical_of_below hbelow
    rcases R.decision_cases h with
      ⟨hprimal, hfinal⟩ | ⟨-, twin, htwin, hsame⟩ | ⟨-, -, hnoTwin⟩
    · rw [isPrimalChain_iff.mp hprimal] at hancestor hne
      exact R.not_chunked_around_static hkeys hbackend hrecord hfinal hother h' hne hancestor hstatic
    · obtain ⟨r, hr, hkey, -⟩ := (hazardLoop_spec R.final_eq).sound _ _ htwin
      rw [← hkey] at htwin hancestor hne
      rw [hsame.primal]
      show twin.primal.isChunkedMap = false
      exact R.not_chunked_around_static hkeys hbackend hr htwin hother h' hne hancestor hstatic
    · -- without a twin a map is mapped
      cases hchunked : d.primal.isChunkedMap with
      | false => rfl
      | true =>
        exact absurd hchunked (by
          rw [noTwinDecision_not_chunked hnoTwin]
          decide)
  · cases hscan : d.primal.isScan with
    | false => rfl
    | true =>
      have hforbids := (R.decision_plain hkeys hrecord h).scan hscan
      rw [(R.decision_plain hkeys hother h').static hstatic] at hforbids
      exact nomatch hforbids

theorem Resolved.record_of_byKey {overrides : Overrides}
    (R : Resolved jax records ctx overrides mode plan) (hkeys : (records.map (·.key)).Nodup)
    {key : SiteKey} (h : plan.byKey key = some d) :
    ∃ r ∈ records, r.key = key ∧ finalDecision R.final ctx mode r = .ok d := by
  obtain ⟨hmem, hkey⟩ := mem_of_byKey h
  obtain ⟨r, hr, hmade⟩ := exists_of_forall₂ R.decisions.flip hmem
  exact ⟨r, hr, (R.key_of_decision hkeys hr hmade).symm.trans hkey, hmade⟩

def CondWhile (plan : Plan) (e : Eqn) : Prop :=
  ∃ run d, e.origin = some run ∧ plan.byKey run.key = some d ∧ d.primal.isWhileCarry = true

def LoopDerivative (plan : Plan) (e : Eqn) : Prop :=
  ∃ key d, e.origin = some ⟨key, .diff⟩ ∧ plan.byKey key = some d ∧ d.kind = .loop

def OnlySites (program : List Eqn) : Prop :=
  ∀ e ∈ iterJaxprEqns program, e.origin = none → e.primitive = .other

/-- What a site scans on its primal path, or a map on either, it scans as its primal. -/
theorem scans_of_lowered {run : Run} (hd : Plain ctx d)
    (h : d.lowered run.path = .scan) (hloop : ¬ (run.path = .diff ∧ d.kind = .loop)) :
    d.primal.isChunkedMap = true ∨ d.primal.isScan = true := by
  cases hpath : run.path with
  | primal =>
    rw [hpath] at h
    exact Strategy.isScan_of_lowered h
  | diff =>
    rw [hpath] at h
    unfold SiteDecision.lowered at h
    dsimp only at h
    cases hkind : d.kind with
    | loop => exact absurd ⟨hpath, hkind⟩ hloop
    | map =>
      rw [hkind, hd.map hkind] at h
      exact Strategy.isScan_of_lowered h
    | op =>
      rw [hkind] at h
      exact nomatch h

/-- **Which scans are around which whiles** when there were no overrides: the while is that of a
conditional loop, or the scan is the derivative of a loop. -/
theorem nested_pairs (hkeys : (records.map (·.key)).Nodup)
    (hbackend : isScanAroundWhileBackend (ctx.resolvedBackend jax.defaultBackend) = true)
    (R : Resolved jax records ctx [] mode plan) {program : List Eqn}
    (htraced : TracedProgram plan program) {e e' : Eqn} (he : e ∈ iterJaxprEqns program)
    (he' : e' ∈ iterJaxprEqns e.subs) (hscan : e.primitive = .scan) (hwhile : e'.primitive = .while)
    {run run' : Run} (horigin : e.origin = some run) (horigin' : e'.origin = some run') :
    CondWhile plan e' ∨ LoopDerivative plan e := by
  obtain ⟨hbelow, ⟨d, hd⟩, d', hd'⟩ := nested_siteEqns htraced he he' horigin horigin'
  obtain ⟨r, hr, hkey, hmade⟩ := R.record_of_byKey hkeys hd.decision
  obtain ⟨r', hr', hkey', hmade'⟩ := R.record_of_byKey hkeys hd'.decision
  rcases hd'.runnable.isWhile_of_lowered (hd'.primitive.symm.trans hwhile) with hstatic | hcarry
  · refine .inr ?_
    by_contra hloop
    have hnot : ¬ (run.path = .diff ∧ d.kind = .loop) := by
      rintro ⟨hpath, hkind⟩
      exact hloop ⟨run.key, d, by rw [horigin, ← hpath], hd.decision, hkind⟩
    have hplain := R.decision_plain hkeys hr hmade
    rw [← hkey, ← hkey'] at hbelow
    obtain ⟨hchunked, hscans⟩ :=
      R.not_scan_around_static hkeys hbackend hr hmade hr' hmade' hbelow hstatic
    rcases scans_of_lowered hplain (hd.primitive.symm.trans hscan) hnot with h | h
    · rw [hchunked] at h
      exact nomatch h
    · rw [hscans] at h
      exact nomatch h
  · exact .inl ⟨run', d', horigin', hd'.decision, hcarry⟩

end

/-- **The compiled program of a resolved plan.**  Without overrides every while in a scan is that
of a conditional loop, or in a loop's derivative; where there is neither, the program is
accepted. -/
theorem resolved_program_accepted {jax : Jax} {records : List SiteRecord} {ctx : Context}
    {mode : DiffMode} {plan : Plan} {program : List Eqn} (hkeys : (records.map (·.key)).Nodup)
    (hbackend : isScanAroundWhileBackend (ctx.resolvedBackend jax.defaultBackend) = true)
    (h : resolve jax records ctx [] mode = .ok plan) (htraced : TracedProgram plan program)
    (hsites : OnlySites program) :
    (∀ e ∈ iterJaxprEqns program, ∀ e' ∈ iterJaxprEqns e.subs, e.primitive = .scan →
        e'.primitive = .while → CondWhile plan e' ∨ LoopDerivative plan e) ∧
      ((∀ e ∈ scansAroundWhile program, ¬ LoopDerivative plan e ∧
          ∀ e' ∈ iterJaxprEqns e.subs, ¬ CondWhile plan e') →
        posthoc (ctx.resolvedBackend jax.defaultBackend) plan program = true) := by
  obtain ⟨R⟩ := resolve_ok h
  have hpairs : ∀ e ∈ iterJaxprEqns program, ∀ e' ∈ iterJaxprEqns e.subs, e.primitive = .scan →
      e'.primitive = .while → CondWhile plan e' ∨ LoopDerivative plan e := by
    intro e he e' he' hscan hwhile
    have horigin : e.origin ≠ none := fun hnone => by
      rw [hsites e he hnone] at hscan
      exact nomatch hscan
    have horigin' : e'.origin ≠ none := fun hnone => by
      rw [hsites e' (iterJaxprEqns_trans he' program he) hnone] at hwhile
      exact nomatch hwhile
    obtain ⟨run, horigin⟩ := Option.ne_none_iff_exists'.mp horigin
    obtain ⟨run', horigin'⟩ := Option.ne_none_iff_exists'.mp horigin'
    exact nested_pairs hkeys hbackend R htraced he he' hscan hwhile horigin horigin'
  refine ⟨hpairs, fun hnone => (posthoc_iff hbackend).mpr (.inr ?_)⟩
  refine List.eq_nil_iff_forall_not_mem.mpr fun e he => ?_
  obtain ⟨hmem, hscan, e', he', hwhile⟩ := mem_scansAroundWhile.mp he
  obtain ⟨hderivative, hcond⟩ := hnone e he
  rcases hpairs e hmem e' he' hscan hwhile with h | h
  · exact hcond e' he' h
  · exact hderivative h

/-! ### A map over many rows around a loop -/

namespace ChunkedRows

def jax : Jax := ⟨"cuda", fun _ _ => none⟩

def ctx : Context :=
  { memoryBudget := some (.budget BatchPlanner.TwoAxes.budget), chunkSize := 4 }

def outer : SiteKey := .root .primal "outer" 0

def inner : SiteKey := .child outer .primal "inner" 0

/-- A map over sixteen rows, and a loop in it: of a fixed length or conditional. -/
def records (length : Option Nat) : List SiteRecord :=
  [{ key := outer, kind := .map, avals := [[16, 4]], length := none },
    { key := inner, kind := .loop, avals := [[4]], length := length }]

def nested (primitive : Primitive) : List Eqn :=
  [.mk primitive (some ⟨outer, .primal⟩) [.mk .while (some ⟨inner, .primal⟩) []]]

theorem runnable_loop {d : SiteDecision} (hkind : d.kind = .loop)
    (hwhile : d.primal.lowered = .while) : Runnable d := by
  refine ⟨(fun h => nomatch hkind.symm.trans h), fun _ => ?_,
    (fun h => nomatch hkind.symm.trans h)⟩
  exact (Strategy.isWhile_of_lowered hwhile).imp_right .inr

theorem traced_pair {plan : Plan} {r s : Run} {d d' : SiteDecision}
    (houter : enclosing r.key = none) (hinner : enclosing s.key = some r)
    (hd : plan.byKey r.key = some d) (hrunnable : Runnable d)
    (hd' : plan.byKey s.key = some d') (hrunnable' : Runnable d') :
    TracedProgram plan
      [.mk (d.lowered r.path) (some r) [.mk (d'.lowered s.path) (some s) []]] := by
  intro e he
  obtain rfl := mem_singleton.mp he
  refine houter ▸ .site hd hrunnable fun e he => ?_
  obtain rfl := mem_singleton.mp he
  exact hinner ▸ .site hd' hrunnable' fun e he => nomatch he

theorem traced_nested {plan : Plan} {d d' : SiteDecision} {strategy loop : Strategy}
    (hd : plan.byKey outer = some d) (hd' : plan.byKey inner = some d')
    (hsite : (d.kind, d.primal, d.diff) = (.map, strategy, some strategy))
    (hmap : strategy.isMap = true) (hloop : (d'.kind, d'.primal) = (.loop, loop))
    (hwhile : loop.lowered = .while) : TracedProgram plan (nested strategy.lowered) := by
  obtain ⟨hkind, hstrategies⟩ := Prod.mk.inj hsite
  obtain ⟨rfl, hdiff⟩ := Prod.mk.inj hstrategies
  obtain ⟨hkind', rfl⟩ := Prod.mk.inj hloop
  have hrunnable : Runnable d := by
    refine ⟨fun _ => ⟨hmap, fun s hs => ?_⟩, (fun h => nomatch hkind.symm.trans h),
      (fun h => nomatch hkind.symm.trans h)⟩
    rw [hdiff] at hs
    exact Option.some.inj hs ▸ hmap
  have hpair := traced_pair (r := ⟨outer, .primal⟩) (s := ⟨inner, .primal⟩) rfl rfl hd
    hrunnable hd' (runnable_loop hkind' hwhile)
  rwa [show d'.lowered .primal = .while from hwhile] at hpair

theorem onlySites_nested (primitive : Primitive) : OnlySites (nested primitive) := by
  intro e he horigin
  simp only [nested, iterJaxprEqns, iterEqn, append_nil, mem_cons, not_mem_nil, or_false] at he
  rcases he with rfl | rfl <;> cases horigin

/-- What the plan says of the two sites, and whether it is exempt. -/
def outline (plan : Plan) :
    Option (Kind × Strategy × Option Strategy) × Option (Kind × Strategy) × Bool :=
  ((plan.byKey outer).map fun d => (d.kind, d.primal, d.diff),
    (plan.byKey inner).map fun d => (d.kind, d.primal), patternIsExempt plan)

end ChunkedRows

open ChunkedRows in
/-- A fixed loop, without a budget: the map is mapped. -/
theorem resolved_program_accepted_fixed :
    ∃ plan, resolve jax (records (some 3)) { chunkSize := 4 } [] {} = .ok plan ∧
      TracedProgram plan (nested .other) ∧ posthoc "cuda" plan (nested .other) = true := by
  have hplan : (resolve jax (records (some 3)) { chunkSize := 4 } [] {}).map outline =
      .ok (some (.map, .vmap, some .vmap), some (.loop, .staticWhile 3), false) := by
    decide
  obtain ⟨plan, hresolve, hplan⟩ := map_eq_ok.mp hplan
  obtain ⟨houter, hrest⟩ := Prod.mk.inj hplan
  obtain ⟨d, hd, hsite⟩ := Option.map_eq_some_iff.mp houter
  obtain ⟨d', hd', hloop⟩ := Option.map_eq_some_iff.mp (Prod.mk.inj hrest).1
  have htraced : TracedProgram plan (nested .other) := traced_nested hd hd' hsite rfl hloop rfl
  refine ⟨plan, hresolve, htraced, ?_⟩
  have hnone : scansAroundWhile (nested .other) = [] := by decide
  refine (resolved_program_accepted (by decide) rfl hresolve htraced (onlySites_nested _)).2 ?_
  rw [hnone]
  exact fun e he => nomatch he

open ChunkedRows in
/-- A conditional loop: the plan chunks the map around it, and its program is refused. -/
theorem resolved_program_refused :
    ((records none).map (·.key)).Nodup ∧
      ∃ plan, resolve jax (records none) ctx [] {} = .ok plan ∧
        TracedProgram plan (nested .scan) ∧ OnlySites (nested .scan) ∧
        posthoc "cuda" plan (nested .scan) = false := by
  refine ⟨by decide, ?_⟩
  have hplan : (resolve jax (records none) ctx [] {}).map outline =
      .ok (some (.map, .chunkedMap 4, some (.chunkedMap 4)), some (.loop, .whileCarry), false) := by
    decide
  obtain ⟨plan, hresolve, hplan⟩ := map_eq_ok.mp hplan
  obtain ⟨houter, hrest⟩ := Prod.mk.inj hplan
  obtain ⟨hinner, hexempt⟩ := Prod.mk.inj hrest
  obtain ⟨d, hd, hsite⟩ := Option.map_eq_some_iff.mp houter
  obtain ⟨d', hd', hloop⟩ := Option.map_eq_some_iff.mp hinner
  refine ⟨plan, hresolve, traced_nested hd hd' hsite rfl hloop rfl, onlySites_nested _, ?_⟩
  unfold posthoc
  rw [hexempt]
  decide

/-! ### A loop in the derivative of a loop -/

namespace DerivedLoop

open ChunkedRows

def derived : SiteKey := .child outer .diff "inner" 0

/-- A loop of three rounds, and one of two that its derivative meets. -/
def records : List SiteRecord :=
  [{ key := outer, kind := .loop, avals := [[4]], length := some 3 },
    { key := derived, kind := .loop, avals := [[4]], length := some 2 }]

/-- The scan of the derivative, around the while of the other loop. -/
def derivative : List Eqn :=
  [.mk .scan (some ⟨outer, .diff⟩) [.mk .while (some ⟨derived, .primal⟩) []]]

def outline (plan : Plan) : Option (Kind × Strategy) × Option (Kind × Strategy) × Bool :=
  ((plan.byKey outer).map fun d => (d.kind, d.primal),
    (plan.byKey derived).map fun d => (d.kind, d.primal), patternIsExempt plan)

/-- **The derivative of a loop** is refused as well. -/
theorem derivative_program_refused : ∃ plan, resolve jax records {} [] {} = .ok plan ∧
    TracedProgram plan derivative ∧ OnlySites derivative ∧
      posthoc "cuda" plan derivative = false := by
  have hplan : (resolve jax records {} [] {}).map outline =
      .ok (some (.loop, .staticWhile 3), some (.loop, .staticWhile 2), false) := by
    decide
  obtain ⟨plan, hresolve, hplan⟩ := map_eq_ok.mp hplan
  obtain ⟨houter, hrest⟩ := Prod.mk.inj hplan
  obtain ⟨hderived, hexempt⟩ := Prod.mk.inj hrest
  obtain ⟨d, hd, hsite⟩ := Option.map_eq_some_iff.mp houter
  obtain ⟨d', hd', hloop⟩ := Option.map_eq_some_iff.mp hderived
  obtain ⟨hkind, hprimal⟩ := Prod.mk.inj hsite
  obtain ⟨hkind', hprimal'⟩ := Prod.mk.inj hloop
  refine ⟨plan, hresolve, ?_, ?_, ?_⟩
  · have hpair := traced_pair (r := ⟨outer, .diff⟩) (s := ⟨derived, .primal⟩) rfl rfl hd
      (runnable_loop hkind (congrArg Strategy.lowered hprimal)) hd'
      (runnable_loop hkind' (congrArg Strategy.lowered hprimal'))
    have hscan : d.lowered .diff = .scan := by rw [SiteDecision.lowered, hkind, hprimal]; rfl
    have hwhile : d'.lowered .primal = .while := congrArg Strategy.lowered hprimal'
    rwa [hscan, hwhile] at hpair
  · intro e he horigin
    simp only [derivative, iterJaxprEqns, iterEqn, append_nil, mem_cons, not_mem_nil,
      or_false] at he
    rcases he with rfl | rfl <;> cases horigin
  · unfold posthoc
    rw [hexempt]
    decide

end DerivedLoop

end Xtrax.Intent
