import Mathlib.Data.List.Induction
import Xtrax.ModelJit

/-!
# Where calls through a jit are transparent

`wrapper` answers for `fn` when no two calls of the sequence meet in a table though their
arguments differ (`Unmixed`).  The invariant (`Recorded`) says of each item of `out_static` which
call wrote it last, and that every trace with its key was made no later.
-/

namespace Xtrax.ModelJit

open List Option

namespace Tree

variable {A B L : Type}

mutual

theorem combine_partition : ∀ t : Tree A L, t.selected.combine t.rest = t
  | .none => rfl
  | .array _ => rfl
  | .leaf _ => rfl
  | .node kind children => congrArg (Tree.node kind) (combineList_partition children)

theorem combineList_partition : ∀ ts : List (Tree A L),
    combineList (substList .array (fun _ => .none) ts) (substList (fun _ => .none) .leaf ts) = ts
  | [] => rfl
  | t :: ts => congrArg₂ cons (combine_partition t) (combineList_partition ts)

end

mutual

theorem combine_withAvals (aval : A → B) : ∀ t : Tree A L,
    (t.selected.withAvals aval).combine t.rest = t.withAvals aval
  | .none => rfl
  | .array _ => rfl
  | .leaf _ => rfl
  | .node kind children => congrArg (Tree.node kind) (combineList_withAvals aval children)

theorem combineList_withAvals (aval : A → B) : ∀ ts : List (Tree A L),
    combineList (substList (fun a => .array (aval a)) .leaf
      (substList .array (fun _ => .none) ts)) (substList (fun _ => .none) .leaf ts) =
        substList (fun a => .array (aval a)) .leaf ts
  | [] => rfl
  | t :: ts => congrArg₂ cons (combine_withAvals aval t) (combineList_withAvals aval ts)

end

mutual

theorem rest_withAvals (aval : A → B) : ∀ t : Tree A L, (t.withAvals aval).rest = t.rest
  | .none => rfl
  | .array _ => rfl
  | .leaf _ => rfl
  | .node kind children => congrArg (Tree.node kind) (restList_withAvals aval children)

theorem restList_withAvals (aval : A → B) : ∀ ts : List (Tree A L),
    substList (fun _ => .none) .leaf (substList (fun a => .array (aval a)) .leaf ts) =
      (substList (fun _ => .none) .leaf ts : List (Tree Empty L))
  | [] => rfl
  | t :: ts => congrArg₂ cons (rest_withAvals aval t) (restList_withAvals aval ts)

end

mutual

theorem selected_withAvals (aval : A → B) : ∀ t : Tree A L,
    (t.withAvals aval).selected = t.selected.withAvals aval
  | .none => rfl
  | .array _ => rfl
  | .leaf _ => rfl
  | .node kind children => congrArg (Tree.node kind) (selectedList_withAvals aval children)

theorem selectedList_withAvals (aval : A → B) : ∀ ts : List (Tree A L),
    substList .array (fun _ => .none) (substList (fun a => .array (aval a)) .leaf ts) =
      substList (fun a => .array (aval a)) .leaf
        (substList .array (fun _ => .none) ts : List (Tree A Empty))
  | [] => rfl
  | t :: ts => congrArg₂ cons (selected_withAvals aval t) (selectedList_withAvals aval ts)

end

mutual

theorem arrays_withAvals (aval : A → B) : ∀ t : Tree A L,
    (t.withAvals aval).arrays = t.arrays.map aval
  | .none => rfl
  | .array _ => rfl
  | .leaf _ => rfl
  | .node _ children => arraysList_withAvals aval children

theorem arraysList_withAvals (aval : A → B) : ∀ ts : List (Tree A L),
    arraysList (substList (fun a => .array (aval a)) .leaf ts) = (arraysList ts).map aval
  | [] => rfl
  | t :: ts => by
    rw [substList, arraysList, arraysList, map_append, ← arraysList_withAvals aval ts]
    exact congrArg (· ++ _) (arrays_withAvals aval t)

end

theorem withAvals_eq_iff {aval : A → B} {t u : Tree A L} :
    t.withAvals aval = u.withAvals aval ↔
      t.selected.withAvals aval = u.selected.withAvals aval ∧ t.rest = u.rest := by
  constructor
  · intro h
    rw [← selected_withAvals, ← selected_withAvals, ← rest_withAvals aval t,
      ← rest_withAvals aval u, h]
    exact ⟨rfl, rfl⟩
  · rintro ⟨harrays, hrest⟩
    rw [← combine_withAvals aval t, ← combine_withAvals aval u, harrays, hrest]

section

variable {eqArray : A → A → Bool} {eqLeaf : L → L → Bool}

mutual

theorem eqBy_refl (harray : ∀ a, eqArray a a = true) (hleaf : ∀ l, eqLeaf l l = true) :
    ∀ t : Tree A L, t.eqBy eqArray eqLeaf t = true
  | .none => rfl
  | .array a => harray a
  | .leaf l => hleaf l
  | .node kind children => by
    rw [eqBy, decide_eq_true rfl, Bool.true_and]
    exact eqByList_refl harray hleaf children

theorem eqByList_refl (harray : ∀ a, eqArray a a = true) (hleaf : ∀ l, eqLeaf l l = true) :
    ∀ ts : List (Tree A L), eqByList eqArray eqLeaf ts ts = true
  | [] => rfl
  | t :: ts => by
    rw [eqByList, eqBy_refl harray hleaf t, Bool.true_and]
    exact eqByList_refl harray hleaf ts

end

mutual

theorem eqBy_symm (harray : ∀ a b, eqArray a b = true → eqArray b a = true)
    (hleaf : ∀ l m, eqLeaf l m = true → eqLeaf m l = true) :
    ∀ t u : Tree A L, t.eqBy eqArray eqLeaf u = true → u.eqBy eqArray eqLeaf t = true
  | .none, .none, _ => rfl
  | .array _, .array _, h => harray _ _ h
  | .leaf _, .leaf _, h => hleaf _ _ h
  | .node kind children, .node kind' children', h => by
    rw [eqBy, Bool.and_eq_true, decide_eq_true_iff] at h ⊢
    exact ⟨h.1.symm, eqByList_symm harray hleaf children children' h.2⟩

theorem eqByList_symm (harray : ∀ a b, eqArray a b = true → eqArray b a = true)
    (hleaf : ∀ l m, eqLeaf l m = true → eqLeaf m l = true) :
    ∀ ts us : List (Tree A L), eqByList eqArray eqLeaf ts us = true →
      eqByList eqArray eqLeaf us ts = true
  | [], [], _ => rfl
  | t :: ts, u :: us, h => by
    rw [eqByList, Bool.and_eq_true] at h ⊢
    exact ⟨eqBy_symm harray hleaf t u h.1, eqByList_symm harray hleaf ts us h.2⟩

end

mutual

theorem eqBy_trans (harray : ∀ a b c, eqArray a b = true → eqArray b c = true → eqArray a c = true)
    (hleaf : ∀ l m n, eqLeaf l m = true → eqLeaf m n = true → eqLeaf l n = true) :
    ∀ t u v : Tree A L, t.eqBy eqArray eqLeaf u = true → u.eqBy eqArray eqLeaf v = true →
      t.eqBy eqArray eqLeaf v = true
  | .none, .none, .none, _, _ => rfl
  | .array _, .array _, .array _, h, h' => harray _ _ _ h h'
  | .leaf _, .leaf _, .leaf _, h, h' => hleaf _ _ _ h h'
  | .node _ ts, .node _ us, .node _ vs, h, h' => by
    rw [eqBy, Bool.and_eq_true, decide_eq_true_iff] at h h' ⊢
    exact ⟨h.1.trans h'.1, eqByList_trans harray hleaf ts us vs h.2 h'.2⟩

theorem eqByList_trans
    (harray : ∀ a b c, eqArray a b = true → eqArray b c = true → eqArray a c = true)
    (hleaf : ∀ l m n, eqLeaf l m = true → eqLeaf m n = true → eqLeaf l n = true) :
    ∀ ts us vs : List (Tree A L), eqByList eqArray eqLeaf ts us = true →
      eqByList eqArray eqLeaf us vs = true → eqByList eqArray eqLeaf ts vs = true
  | [], [], [], _, _ => rfl
  | t :: ts, u :: us, v :: vs, h, h' => by
    rw [eqByList, Bool.and_eq_true] at h h' ⊢
    exact ⟨eqBy_trans harray hleaf t u v h.1 h'.1, eqByList_trans harray hleaf ts us vs h.2 h'.2⟩

end

mutual

theorem eq_of_eqBy (harray : ∀ a b, eqArray a b = true → a = b)
    (hleaf : ∀ l m, eqLeaf l m = true → l = m) :
    ∀ t u : Tree A L, t.eqBy eqArray eqLeaf u = true → t = u
  | .none, .none, _ => rfl
  | .array _, .array _, h => congrArg Tree.array (harray _ _ h)
  | .leaf _, .leaf _, h => congrArg Tree.leaf (hleaf _ _ h)
  | .node _ ts, .node _ us, h => by
    rw [eqBy, Bool.and_eq_true, decide_eq_true_iff] at h
    rw [h.1, eq_of_eqByList harray hleaf ts us h.2]

theorem eq_of_eqByList (harray : ∀ a b, eqArray a b = true → a = b)
    (hleaf : ∀ l m, eqLeaf l m = true → l = m) :
    ∀ ts us : List (Tree A L), eqByList eqArray eqLeaf ts us = true → ts = us
  | [], [], _ => rfl
  | t :: ts, u :: us, h => by
    rw [eqByList, Bool.and_eq_true] at h
    rw [eq_of_eqBy harray hleaf t u h.1, eq_of_eqByList harray hleaf ts us h.2]

end

end

end Tree

/-! ### Keys -/

section

variable {A X L : Type} [DecidableEq X] [PyEq L] {aval : A → X} {t u c : Tree A L}

theorem staticEq_refl (r : Tree Empty L) : staticEq r r = true :=
  Tree.eqBy_refl (fun a => a.elim) PyEq.refl r

theorem staticEq_symm {r r' : Tree Empty L} (h : staticEq r r' = true) : staticEq r' r = true :=
  Tree.eqBy_symm (fun a => a.elim) (fun _ _ => PyEq.symm) r r' h

theorem staticEq_trans {r r' r'' : Tree Empty L} (h : staticEq r r' = true)
    (h' : staticEq r' r'' = true) : staticEq r r'' = true :=
  @Tree.eqBy_trans Empty L (fun a _ => a.elim) PyEq.pyEq (fun a => a.elim)
    (fun _ _ _ => PyEq.trans) r r' r'' h h'

variable (aval) in
/-- Two calls with one key in `out_static`. -/
def SameKey (t u : Tree A L) : Prop :=
  staticEq t.rest u.rest = true ∧ avalKey aval t.selected = avalKey aval u.selected

variable (aval) in
/-- No two calls of the sequence meet in a table though their arguments differ: not in the jit's,
for equal statics that are not the same, and not in `out_static`. -/
structure Unmixed (calls : List (Tree A L)) : Prop where
  statics : ∀ t u, [t, u].Sublist calls →
    t.selected.withAvals aval = u.selected.withAvals aval → staticEq t.rest u.rest = true →
      t.rest = u.rest
  places : ∀ t u c, [t, u, c].Sublist calls → SameKey aval t u → SameKey aval u c →
    t.withAvals aval = c.withAvals aval → u.withAvals aval = c.withAvals aval

variable (aval) in
/-- What a function returns besides arrays depends on the structure, the shapes and dtypes and the
other leaves only. -/
def Traceable (fn : Tree A L → Option (Tree A L)) : Prop :=
  ∀ t u, t.withAvals aval = u.withAvals aval → (fn t).map Tree.rest = (fn u).map Tree.rest

/-- The trace is one that the call makes. -/
def Trace.MadeBy (aval : A → X) (trace : Trace X L) (t : Tree A L) : Prop :=
  trace.avals = t.selected.withAvals aval ∧ trace.static = t.rest

/-- The item has the key of the call. -/
def OutStatic.KeyOf (aval : A → X) (item : OutStatic X L) (t : Tree A L) : Prop :=
  item.hasKey t.rest (avalKey aval t.selected) = true

theorem OutStatic.keyOf_iff {item : OutStatic X L} : item.KeyOf aval t ↔
    staticEq item.static t.rest = true ∧ item.avals = avalKey aval t.selected := by
  unfold OutStatic.KeyOf OutStatic.hasKey
  rw [Bool.and_eq_true, decide_eq_true_iff]

theorem sameKey_of_keyOf {item : OutStatic X L} (h : item.KeyOf aval t) (h' : item.KeyOf aval u) :
    SameKey aval t u := by
  rw [OutStatic.keyOf_iff] at h h'
  exact ⟨staticEq_trans (staticEq_symm h.1) h'.1, h.2.symm.trans h'.2⟩

omit [DecidableEq X] in
theorem SameKey.symm (h : SameKey aval t u) : SameKey aval u t := ⟨staticEq_symm h.1, h.2.symm⟩

omit [DecidableEq X] in
theorem SameKey.trans (h : SameKey aval t u) (h' : SameKey aval u c) : SameKey aval t c :=
  ⟨staticEq_trans h.1 h'.1, h.2.trans h'.2⟩

theorem OutStatic.KeyOf.congr {item : OutStatic X L} (h : item.KeyOf aval t)
    (hsame : SameKey aval t u) : item.KeyOf aval u := by
  rw [OutStatic.keyOf_iff] at h ⊢
  exact ⟨staticEq_trans h.1 hsame.1, h.2.trans hsame.2⟩

theorem reused_iff {trace : Trace X L} :
    trace.reused (t.selected.withAvals aval) t.rest = true ↔
      trace.avals = t.selected.withAvals aval ∧ staticEq trace.static t.rest = true := by
  unfold Trace.reused
  rw [Bool.and_eq_true]
  refine and_congr_left fun _ => ⟨fun h => ?_, fun h => ?_⟩
  · exact Tree.eq_of_eqBy (fun _ _ h => of_decide_eq_true h) (fun l => l.elim) _ _ h
  · rw [h]
    exact Tree.eqBy_refl (fun (x : X) => decide_eq_true (rfl : x = x)) (fun l => l.elim) _

theorem sameKey_of_reused {trace : Trace X L} (hmade : trace.MadeBy aval t)
    (h : trace.reused (u.selected.withAvals aval) u.rest = true) :
    SameKey aval t u ∧ t.selected.withAvals aval = u.selected.withAvals aval := by
  obtain ⟨havals, hstatic⟩ := reused_iff.mp h
  rw [hmade.1] at havals
  rw [hmade.2] at hstatic
  refine ⟨⟨hstatic, ?_⟩, havals⟩
  unfold avalKey
  rw [← Tree.arrays_withAvals, ← Tree.arrays_withAvals, havals]

/-! ### The items -/

variable {items : List (OutStatic X L)} {item : OutStatic X L} {out : Tree Empty L}

/-- An item after a call has recorded what it returns is the call's or was there before, with
another key. -/
theorem mem_record (aval : A → X) (t : Tree A L) (items : List (OutStatic X L))
    (out : Tree Empty L) (h : item ∈ record items t.rest (avalKey aval t.selected) out) :
    (item.KeyOf aval t ∧ item.out = out) ∨ (item ∈ items ∧ ¬item.KeyOf aval t) := by
  unfold record at h
  rcases mem_append.mp (mem_of_mem_drop h) with h | h
  · obtain ⟨hmem, hnot⟩ := mem_filter.mp h
    rw [Bool.not_eq_true'] at hnot
    exact .inr ⟨hmem, ne_true_of_eq_false hnot⟩
  · obtain rfl := mem_singleton.mp h
    refine .inl ⟨OutStatic.keyOf_iff.mpr ⟨?_, rfl⟩, rfl⟩
    cases hfind : items.find? fun item => item.hasKey t.rest (avalKey aval t.selected) with
    | none => exact staticEq_refl t.rest
    | some found =>
      have hkey : found.hasKey t.rest (avalKey aval t.selected) = true := by
        simpa using find?_some hfind
      exact (OutStatic.keyOf_iff.mp hkey).1

theorem exists_record (items : List (OutStatic X L)) (t : Tree A L) (out : Tree Empty L) :
    ∃ item ∈ record items t.rest (avalKey aval t.selected) out, item.KeyOf aval t := by
  let kept := ((items.find? fun item => item.hasKey t.rest (avalKey aval t.selected)).map
    (·.static)).getD t.rest
  have hmem : (⟨kept, avalKey aval t.selected, out⟩ : OutStatic X L) ∈
      record items t.rest (avalKey aval t.selected) out := by
    unfold record
    rw [drop_append_of_le_length]
    · exact mem_append_right _ (mem_singleton_self _)
    · rw [length_append, length_singleton, modelJitOutStaticMax]
      omega
  refine ⟨_, hmem, ?_⟩
  rcases mem_record aval t items out hmem with ⟨hkey, -⟩ | ⟨hold, hkey⟩
  · exact hkey
  · refine absurd (OutStatic.keyOf_iff.mpr ⟨?_, rfl⟩) hkey
    cases hfind : items.find? fun item => item.hasKey t.rest (avalKey aval t.selected) with
    | none =>
      simp only [kept, hfind]
      exact staticEq_refl t.rest
    | some found =>
      simp only [kept, hfind]
      have hfound : found.hasKey t.rest (avalKey aval t.selected) = true := by
        simpa using find?_some hfind
      exact (OutStatic.keyOf_iff.mp hfound).1

theorem mem_moveToEnd : item ∈ moveToEnd items t.rest (avalKey aval t.selected) ↔ item ∈ items := by
  unfold moveToEnd
  rw [mem_append, mem_filter, mem_filter, ← and_or_left]
  refine and_iff_left ?_
  cases item.hasKey t.rest (avalKey aval t.selected) <;> simp

/-! ### The invariant -/

variable {fn : Tree A L → Option (Tree A L)} {calls past : List (Tree A L)} {s s' : Tables X L}

/-- The item was last written by a call of the past, and every trace with its key was made no
later. -/
def Written (aval : A → X) (fn : Tree A L → Option (Tree A L)) (past : List (Tree A L))
    (traces : List (Trace X L)) (item : OutStatic X L) : Prop :=
  ∃ before t after, past = before ++ t :: after ∧ item.KeyOf aval t ∧
    (fn t).map Tree.rest = some item.out ∧
    ∀ trace ∈ traces, ∀ u, trace.MadeBy aval u → item.KeyOf aval u →
      ∃ u', (u' ∈ before ∨ u' = t) ∧ trace.MadeBy aval u'

/-- What holds of the tables after the calls. -/
structure Recorded (aval : A → X) (fn : Tree A L → Option (Tree A L)) (past : List (Tree A L))
    (s : Tables X L) : Prop where
  traces : ∀ trace ∈ s.traces, ∃ u ∈ past, trace.MadeBy aval u
  items : ∀ item ∈ s.outStatic, Written aval fn past s.traces item

theorem Written.snoc {traces : List (Trace X L)} (h : Written aval fn past traces item) :
    Written aval fn (past ++ [c]) traces item := by
  obtain ⟨before, t, after, rfl, hrest⟩ := h
  exact ⟨before, t, after ++ [c], by simp, hrest⟩

theorem written_last {traces : List (Trace X L)} (hkey : item.KeyOf aval c)
    (hout : (fn c).map Tree.rest = some item.out)
    (htraces : ∀ trace ∈ traces, ∃ u ∈ past ++ [c], trace.MadeBy aval u) :
    Written aval fn (past ++ [c]) traces item := by
  refine ⟨past, c, [], rfl, hkey, hout, fun trace htrace u _ _ => ?_⟩
  obtain ⟨u', hu', hmade⟩ := htraces trace htrace
  rw [mem_append, mem_singleton] at hu'
  exact ⟨u', hu', hmade⟩

theorem Written.cons {traces : List (Trace X L)} {trace : Trace X L}
    (h : Written aval fn past traces item) (hmade : trace.MadeBy aval c)
    (hkey : ¬item.KeyOf aval c) : Written aval fn past (trace :: traces) item := by
  obtain ⟨before, t, after, hpast, hkeyOf, hout, htraces⟩ := h
  refine ⟨before, t, after, hpast, hkeyOf, hout, fun other hother u hu hkeyU => ?_⟩
  rcases mem_cons.mp hother with rfl | hother
  · refine absurd (hkeyU.congr ⟨?_, ?_⟩) hkey
    · rw [← hu.2, ← hmade.2]
      exact staticEq_refl _
    · unfold avalKey
      rw [← Tree.arrays_withAvals, ← Tree.arrays_withAvals, ← hu.1, ← hmade.1]
  · exact htraces other hother u hu hkeyU

/-! ### A call -/

theorem run_eq {ran : Tree A Empty × List (OutStatic X L)}
    (h : run aval fn items c.selected c.rest = some ran) :
    ∃ out, fn c = some out ∧
      ran = (out.selected, record items c.rest (avalKey aval c.selected) out.rest) := by
  unfold run at h
  rw [Tree.combine_partition] at h
  obtain ⟨out, hout, rfl⟩ := map_eq_some_iff.mp h
  exact ⟨out, hout, rfl⟩

theorem Recorded.record (h : Recorded aval fn past s) {traces : List (Trace X L)}
    (htraces : ∀ trace ∈ traces, ∃ u ∈ past ++ [c], trace.MadeBy aval u)
    (hmore : ∀ item, ¬item.KeyOf aval c → Written aval fn past s.traces item →
      Written aval fn past traces item)
    {result : Tree A L} (hresult : fn c = some result) :
    Recorded aval fn (past ++ [c])
      ⟨traces, ModelJit.record s.outStatic c.rest (avalKey aval c.selected) result.rest⟩ where
  traces := htraces
  items item hitem := by
    rcases mem_record aval c s.outStatic result.rest hitem with ⟨hkey, hout⟩ | ⟨hmem, hkey⟩
    · refine written_last hkey ?_ htraces
      rw [hresult, hout]
      rfl
    · exact (hmore item hkey (h.items item hmem)).snoc

theorem Recorded.snoc (h : Recorded aval fn past s) : Recorded aval fn (past ++ [c]) s where
  traces trace htrace := by
    obtain ⟨u, hu, hmade⟩ := h.traces trace htrace
    exact ⟨u, mem_append_left _ hu, hmade⟩
  items item hitem := (h.items item hitem).snoc

/-- What `jitted` does: a trace of a call of the past is reused, or a new one is made. -/
theorem jitted_spec (h : Recorded aval fn past s) {outArrays : Tree A Empty}
    (hcall : jitted aval fn s c.selected c.rest = some (outArrays, s')) :
    (∃ trace ∈ s.traces, trace.reused (c.selected.withAvals aval) c.rest = true ∧
      s' = s ∧ (fn (c.selected.combine trace.static)).map Tree.selected = some outArrays) ∨
    (Recorded aval fn (past ++ [c]) s' ∧ (fn c).map Tree.selected = some outArrays ∧
      (∃ item ∈ s'.outStatic, item.KeyOf aval c) ∧
      ∀ item ∈ s'.outStatic, item.KeyOf aval c → (fn c).map Tree.rest = some item.out) := by
  unfold jitted at hcall
  cases hfind : s.traces.find? fun trace => trace.reused (c.selected.withAvals aval) c.rest with
  | some trace =>
    simp only [hfind] at hcall
    obtain ⟨out, hout, heq⟩ := map_eq_some_iff.mp hcall
    obtain ⟨rfl, rfl⟩ := Prod.mk.inj heq
    refine .inl ⟨trace, mem_of_find?_eq_some hfind, by simpa using find?_some hfind, rfl, ?_⟩
    rw [hout]
    rfl
  | none =>
    simp only [hfind] at hcall
    obtain ⟨ran, hran, heq⟩ := map_eq_some_iff.mp hcall
    obtain ⟨out, hout, rfl⟩ := run_eq hran
    obtain ⟨rfl, rfl⟩ := Prod.mk.inj heq
    let made : Trace X L := ⟨c.selected.withAvals aval, c.rest⟩
    have hmade : made.MadeBy aval c := ⟨rfl, rfl⟩
    refine .inr ⟨h.record (fun trace htrace => ?_) (fun item hkey hwritten => ?_) hout, ?_,
      exists_record s.outStatic c out.rest, ?_⟩
    · rcases mem_cons.mp htrace with rfl | htrace
      · exact ⟨c, mem_append_right _ (mem_singleton_self c), hmade⟩
      · obtain ⟨u, hu, hmadeU⟩ := h.traces trace htrace
        exact ⟨u, mem_append_left _ hu, hmadeU⟩
    · exact hwritten.cons hmade hkey
    · rw [hout]
      rfl
    · intro item hitem hkey
      rcases mem_record aval c s.outStatic out.rest hitem with ⟨-, hitemOut⟩ | ⟨-, hnot⟩
      · rw [hout, hitemOut]
        rfl
      · exact absurd hkey hnot

/-- What is returned besides arrays, by an item of the call's key, when the call reuses a trace. -/
theorem out_of_reused (hunmixed : Unmixed aval (past ++ [c])) (htraceable : Traceable aval fn)
    (h : Recorded aval fn past s) {trace : Trace X L} (htrace : trace ∈ s.traces)
    (hreused : trace.reused (c.selected.withAvals aval) c.rest = true)
    (hitem : item ∈ s.outStatic) (hkey : item.KeyOf aval c) :
    (fn c).map Tree.rest = some item.out := by
  obtain ⟨before, t, after, hpast, hkeyT, hout, htraces⟩ := h.items item hitem
  obtain ⟨w, -, hmadeW⟩ := h.traces trace htrace
  have hkeyW : item.KeyOf aval w := hkey.congr (sameKey_of_reused hmadeW hreused).1.symm
  obtain ⟨u, hu, hmade⟩ := htraces trace htrace w hmadeW hkeyW
  obtain ⟨hsameKey, havals⟩ := sameKey_of_reused hmade hreused
  have hsame : u.withAvals aval = c.withAvals aval := by
    refine Tree.withAvals_eq_iff.mpr ⟨havals, ?_⟩
    have hin : u ∈ past := by
      rw [hpast, mem_append, mem_cons]
      exact hu.imp_right .inl
    refine hunmixed.statics u c ?_ havals hsameKey.1
    exact (singleton_sublist.mpr hin).append (List.Sublist.refl [c])
  have hlast : t.withAvals aval = c.withAvals aval := by
    rcases hu with hu | rfl
    · refine hunmixed.places u t c ?_ ?_ ?_ hsame
      · rw [hpast, append_assoc]
        refine (singleton_sublist.mpr hu).append ?_
        exact (List.Sublist.cons_cons t (sublist_append_right after [c]))
      · exact hsameKey.trans (sameKey_of_keyOf hkey hkeyT)
      · exact sameKey_of_keyOf hkeyT hkey
    · exact hsame
  rw [← htraceable t c hlast]
  exact hout

/-- One call: what it returns is what the function returns, and the tables are in order after
it. -/
theorem wrapper_spec (hunmixed : Unmixed aval (past ++ [c])) (htraceable : Traceable aval fn)
    (h : Recorded aval fn past s) {result : Tree A L}
    (hcall : wrapper aval fn s c = some (result, s')) :
    fn c = some result ∧ Recorded aval fn (past ++ [c]) s' := by
  obtain ⟨⟨outArrays, s₁⟩, hjitted, hcall⟩ := bind_eq_some_iff.mp hcall
  obtain ⟨s₂, hensured, hcall⟩ := bind_eq_some_iff.mp hcall
  obtain ⟨item, hfind, hcall⟩ := bind_eq_some_iff.mp hcall
  cases hcall
  have hitem : item ∈ s₂.outStatic := mem_moveToEnd.mp (mem_of_find?_eq_some hfind)
  have hkey : item.hasKey c.rest (avalKey aval c.selected) = true := by simpa using find?_some hfind
  suffices hafter : (fn c).map Tree.selected = some outArrays ∧
      (fn c).map Tree.rest = some item.out ∧ Recorded aval fn (past ++ [c]) s₂ by
    obtain ⟨harrays, hrest, htraces, hitems⟩ := hafter
    obtain ⟨out, hout, rfl⟩ := map_eq_some_iff.mp harrays
    rw [hout] at hrest
    refine ⟨?_, htraces, fun other hother => hitems other (mem_moveToEnd.mp hother)⟩
    rw [hout, ← some.inj hrest, Tree.combine_partition]
  rcases jitted_spec h hjitted with ⟨trace, htrace, hreused, rfl, harrays⟩ |
    ⟨hafter, harrays, ⟨found, hfound, hfoundKey⟩, hout⟩
  · have hstatic : c.selected.combine trace.static = c := by
      obtain ⟨u, hu, hmade⟩ := h.traces trace htrace
      obtain ⟨hsameKey, havals⟩ := sameKey_of_reused hmade hreused
      rw [hmade.2, hunmixed.statics u c ((singleton_sublist.mpr hu).append
        (List.Sublist.refl [c])) havals hsameKey.1, Tree.combine_partition]
    rw [hstatic] at harrays
    refine ⟨harrays, ?_⟩
    unfold ensured at hensured
    split_ifs at hensured with hany
    · obtain rfl := some.inj hensured
      exact ⟨out_of_reused hunmixed htraceable h htrace hreused hitem hkey, h.snoc⟩
    · obtain ⟨ran, hran, rfl⟩ := map_eq_some_iff.mp hensured
      obtain ⟨out, hout, rfl⟩ := run_eq hran
      have htraces := (h.snoc (c := c)).traces
      refine ⟨?_, h.record htraces (fun _ _ hwritten => hwritten) hout⟩
      rcases mem_record aval c s₁.outStatic out.rest hitem with ⟨-, hitemOut⟩ | ⟨-, hnot⟩
      · rw [hout, hitemOut]
        rfl
      · exact absurd hkey hnot
  · unfold ensured at hensured
    split_ifs at hensured with hany
    · obtain rfl := some.inj hensured
      exact ⟨harrays, hout item hitem hkey, hafter⟩
    · have hfoundKey : found.hasKey c.rest (avalKey aval c.selected) = true := hfoundKey
      exact absurd (any_eq_true.mpr ⟨found, hfound, hfoundKey⟩) hany

omit [DecidableEq X] in
theorem Unmixed.prefix {more : List (Tree A L)} (h : Unmixed aval (calls ++ more)) :
    Unmixed aval calls where
  statics t u hsub := h.statics t u (hsub.trans (sublist_append_left calls more))
  places t u c hsub := h.places t u c (hsub.trans (sublist_append_left calls more))

theorem afterCalls_snoc (calls : List (Tree A L)) (c : Tree A L) :
    afterCalls aval fn (calls ++ [c]) =
      ((wrapper aval fn (afterCalls aval fn calls) c).map (·.2)).getD (afterCalls aval fn calls) := by
  unfold afterCalls
  rw [foldl_append]
  rfl

theorem recorded_afterCalls (htraceable : Traceable aval fn) (hunmixed : Unmixed aval calls) :
    Recorded aval fn calls (afterCalls aval fn calls) := by
  induction calls using reverseRecOn with
  | nil =>
    exact ⟨fun _ h => absurd h not_mem_nil, fun _ h => absurd h not_mem_nil⟩
  | append_singleton calls c ih =>
    have hbefore := ih hunmixed.prefix
    rw [afterCalls_snoc]
    cases hcall : wrapper aval fn (afterCalls aval fn calls) c with
    | none => exact hbefore.snoc
    | some answer => exact (wrapper_spec hunmixed htraceable hbefore hcall).2

variable (aval fn) in
/-- **`model_jit` is transparent** for calls that do not mix: each one that returns gives what the
function gives. -/
theorem model_jit_transparent (htraceable : Traceable aval fn) (calls : List (Tree A L))
    (hunmixed : Unmixed aval calls) (before after : List (Tree A L)) (c : Tree A L)
    (hcalls : calls = before ++ c :: after) (result : Tree A L) (s' : Tables X L)
    (hcall : wrapper aval fn (afterCalls aval fn before) c = some (result, s')) :
    fn c = some result := by
  have hsplit : calls = (before ++ [c]) ++ after := by simp [hcalls]
  rw [hsplit] at hunmixed
  have hupTo := hunmixed.prefix
  exact (wrapper_spec hupTo htraceable (recorded_afterCalls htraceable hupTo.prefix) hcall).1

end

/-! ### Calls that mix -/

/-- Numbers and truth values. -/
inductive Scalar
  | int (n : Int)
  | bool (b : Bool)
  deriving DecidableEq

/-- `True == 1`. -/
def Scalar.value : Scalar → Int
  | .int n => n
  | .bool true => 1
  | .bool false => 0

instance : PyEq Scalar where
  pyEq l m := l.value = m.value
  refl _ := decide_eq_true rfl
  symm h := decide_eq_true (of_decide_eq_true h).symm
  trans h h' := decide_eq_true ((of_decide_eq_true h).trans (of_decide_eq_true h'))

theorem returned_ne {answer : Option (Tree Unit Scalar × Tables Unit Scalar)}
    {t : Tree Unit Scalar} (h : (answer.map fun answer =>
      answer.1.eqBy (fun a b => a = b) (fun l m => l = m) t) = some false) :
    ∃ result s', answer = some (result, s') ∧ result ≠ t := by
  obtain ⟨⟨result, s'⟩, rfl, hne⟩ := map_eq_some_iff.mp h
  refine ⟨result, s', rfl, ?_⟩
  rintro rfl
  have heq : result.eqBy (fun a b => a = b) (fun l m => l = m) result = true :=
    Tree.eqBy_refl (fun (a : Unit) => decide_eq_true (rfl : a = a))
      (fun (l : Scalar) => decide_eq_true (rfl : l = l)) result
  exact absurd heq (ne_true_of_eq_false hne)

/-- Which of its two arguments is the array. -/
def whichArray : Tree Unit Scalar → Option (Tree Unit Scalar)
  | .node _ [.array _, .none] => some (.leaf (.int 0))
  | _ => some (.leaf (.int 1))

def arrayFirst : Tree Unit Scalar := .node "tuple" [.array (), .none]

def arraySecond : Tree Unit Scalar := .node "tuple" [.none, .array ()]

/-- After `f(1)` the call `f(True)` gives 1, and after `f(x, None)` and `f(None, x)` the call
`f(x, None)` gives what the second gave. -/
theorem calls_mixed :
    (∃ result s', wrapper id some (afterCalls id some [.leaf (.int 1)]) (.leaf (.bool true)) =
        some (result, s') ∧ result ≠ (.leaf (.bool true) : Tree Unit Scalar)) ∧
      ∃ result s', wrapper id whichArray (afterCalls id whichArray [arrayFirst, arraySecond])
        arrayFirst = some (result, s') ∧ result ≠ .leaf (.int 0) :=
  ⟨returned_ne (by decide +kernel), returned_ne (by decide +kernel)⟩

/-! ### Calls that reuse a trace -/

/-- The arrays are negated, the rest is returned as it is. -/
def negated (t : Tree (List Int) Scalar) : Option (Tree (List Int) Scalar) :=
  some (t.withAvals (List.map fun n => -n))

def call (a b : Int) : Tree (List Int) Scalar := .node "tuple" [.array [a, b], .leaf (.int 3)]

theorem traceable_negated : Traceable List.length negated := by
  intro t u h
  refine congrArg some ?_
  rw [Tree.rest_withAvals, Tree.rest_withAvals]
  exact (Tree.withAvals_eq_iff.mp h).2

theorem unmixed_calls (a b c d : Int) : Unmixed List.length [call a b, call c d] := by
  constructor
  · intro t u hsub _ _
    obtain ⟨rfl, hrest⟩ := List.cons.inj (hsub.eq_of_length rfl)
    obtain ⟨rfl, -⟩ := List.cons.inj hrest
    rfl
  · intro t u c hsub
    exact absurd hsub.length_le (Nat.not_le.mpr (Nat.lt_succ_self 2))

/-- The second call has the trace of the first. -/
theorem transparent_call : ∃ result s',
    wrapper List.length negated (afterCalls List.length negated [call 1 2]) (call 4 5) =
      some (result, s') ∧ s'.traces.length = 1 ∧ negated (call 4 5) = some result := by
  have hcall : (wrapper List.length negated (afterCalls List.length negated [call 1 2])
      (call 4 5)).map (·.2.traces.length) = some 1 := by
    decide +kernel
  obtain ⟨⟨result, s'⟩, hcall, htraces⟩ := map_eq_some_iff.mp hcall
  exact ⟨result, s', hcall, htraces, model_jit_transparent List.length negated traceable_negated _
    (unmixed_calls 1 2 4 5) [call 1 2] [] (call 4 5) rfl result s' hcall⟩

end Xtrax.ModelJit
