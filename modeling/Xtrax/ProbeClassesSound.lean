import Xtrax.ProbeClasses
import Xtrax.Results

/-!
# Every divergence is traced to a cause

`classify_probes` raises when the declared graph is no graph on the probes, has a cycle, or a
budget is missing, and may when a declared chain is too long for the interpreter; else it returns
the report of each probe (`classifyProbes_spec`).  A probe
beyond its budget is a cause itself, or has a predecessor beyond its budget: the induction goes
along the topological order.
-/

namespace Xtrax.Probes

open List TopologicalOrder Results

/-! ### The order -/

section

variable {names : List String} {probeDeps : Deps}

theorem checkDeclared_eq_ok {entries : List (String × List String)} :
    checkDeclared names entries = .ok () ↔
      ∀ entry ∈ entries, entry.1 ∈ names ∧ ∀ pred ∈ entry.2, pred ∈ names := by
  induction entries with
  | nil => exact ⟨fun _ _ h => absurd h not_mem_nil, fun _ => rfl⟩
  | cons entry rest ih =>
    obtain ⟨probe, preds⟩ := entry
    rw [forall_mem_cons, ← ih, checkDeclared]
    by_cases hprobe : probe ∈ names
    · rw [if_neg (not_not.mpr hprobe)]
      cases hfind : preds.find? fun pred => pred ∉ names with
      | some pred =>
        have hnot : pred ∉ names := by simpa using find?_some hfind
        refine ⟨fun h => (nomatch h), fun h => ?_⟩
        exact absurd (h.1.2 pred (mem_of_find?_eq_some hfind)) hnot
      | none =>
        have hall : ∀ pred ∈ preds, pred ∈ names := by
          intro pred hpred
          have hnone := find?_eq_none.mp hfind pred hpred
          exact not_not.mp (of_decide_eq_false (Bool.eq_false_iff.mpr hnone))
        exact ⟨fun h => ⟨⟨hprobe, hall⟩, h⟩, fun h => h.2⟩
    · rw [if_pos hprobe]
      exact ⟨fun h => (nomatch h), fun h => absurd h.1.1 hprobe⟩

theorem not_undeclared_iff : ¬Undeclared names probeDeps ↔
    checkDeclared names probeDeps.entries = .ok () := by
  rw [checkDeclared_eq_ok]
  unfold Undeclared
  push Not
  rfl

theorem mem_entries_of_edge {a b : String} (h : Edge (predecessors probeDeps) a b) :
    ∃ preds, (a, preds) ∈ probeDeps.entries ∧ b ∈ preds := by
  unfold Edge predecessors at h
  cases hget : probeDeps.get? a with
  | none =>
    rw [hget] at h
    exact absurd h not_mem_nil
  | some preds =>
    rw [hget] at h
    exact ⟨preds, Dict.get?_eq_some_iff.mp hget, h⟩

theorem declared_of_edge (h : checkDeclared names probeDeps.entries = .ok ()) {a b : String}
    (hab : Edge (predecessors probeDeps) a b) : a ∈ names ∧ b ∈ names := by
  obtain ⟨preds, hentry, hb⟩ := mem_entries_of_edge hab
  have hdeclared := checkDeclared_eq_ok.mp h _ hentry
  exact ⟨hdeclared.1, hdeclared.2 b hb⟩

/-- A chain of more than `depth` probes is declared. -/
def TooDeep (depth : Nat) (probeDeps : Deps) : Prop := Deep (predecessors probeDeps) depth

/-- `_topological_order` sorts the probes, or the declared graph is at fault or too deep. -/
theorem probeOrder_spec (depth : Nat) (names : List String) (probeDeps : Deps) :
    (∃ order, probeOrder depth names probeDeps = .ok order ∧
      Sorted (predecessors probeDeps) order ∧ (∀ a, a ∈ order ↔ a ∈ names) ∧
      ¬Undeclared names probeDeps ∧ ¬Cyclic probeDeps) ∨
    ∃ e, probeOrder depth names probeDeps = .error e ∧ (Undeclared names probeDeps ∨
      Cyclic probeDeps ∨ e = .recursionError ∧ TooDeep depth probeDeps) := by
  unfold probeOrder
  cases hcheck : checkDeclared names probeDeps.entries with
  | error e =>
    refine .inr ⟨e, rfl, .inl ?_⟩
    by_contra hnot
    exact nomatch hcheck.symm.trans (not_undeclared_iff.mp hnot)
  | ok u =>
    have hclosed : ∀ a ∈ names, ∀ b ∈ predecessors probeDeps a, b ∈ names :=
      fun a _ b hb => (declared_of_edge hcheck (a := a) hb).2
    rcases topologicalOrder_spec depth hclosed with ⟨order, horder, hsorted, hmem⟩ | ⟨e, he, hfault⟩
    · refine .inl ⟨order, by simp only [horder], hsorted, hmem, not_undeclared_iff.mpr hcheck, ?_⟩
      rintro ⟨a, hcycle⟩
      obtain ⟨b, hab, -⟩ := Relation.TransGen.head'_iff.mp hcycle
      exact hsorted.acyclic ((hmem a).mpr (declared_of_edge hcheck hab).1) hcycle
    · simp only [he]
      cases e with
      | cycle a => exact .inr ⟨_, rfl, .inr (.inl ⟨a, hfault⟩)⟩
      | depth => exact .inr ⟨_, rfl, .inr (hfault.symm.imp id fun hdeep => ⟨rfl, hdeep⟩)⟩

end

/-! ### The reports -/

section

variable {R : Type} {floats : Floats R} {probes : Compared R} {probeDeps : Deps}
variable {budgets : Budgets R} {name : String}

theorem resolveLeafSeverity_ok {leaf : LeafDivergence R}
    (h : ¬(leafNeedsBudget leaf = true ∧ budgets (budgetKey name leaf.path) = none)) :
    resolveLeafSeverity floats budgets name leaf = .ok (resolved floats budgets name leaf) := by
  unfold resolveLeafSeverity resolved
  by_cases hneeds : leafNeedsBudget leaf = true
  · cases hbudget : budgets (budgetKey name leaf.path) with
    | none => exact absurd ⟨hneeds, hbudget⟩ h
    | some budget => simp only [if_pos hneeds]
  · rw [if_neg hneeds, if_neg hneeds]

theorem resolveLeaves_ok {leaves : Leaves R} (h : ¬Unbudgeted budgets name leaves) :
    leaves.mapM (resolveLeafSeverity floats budgets name) =
      .ok (leaves.map (resolved floats budgets name)) :=
  mapM_of_ok fun leaf hleaf => resolveLeafSeverity_ok fun hmissing => h ⟨leaf, hleaf, hmissing⟩

theorem not_unbudgeted_of_ok {leaves leaves' : Leaves R}
    (h : leaves.mapM (resolveLeafSeverity floats budgets name) = .ok leaves') :
    ¬Unbudgeted budgets name leaves := by
  rintro ⟨leaf, hleaf, hneeds, hmissing⟩
  obtain ⟨leaf', -, hok⟩ := exists_of_forall₂ (mapM_eq_ok.mp h) hleaf
  unfold resolveLeafSeverity at hok
  rw [if_pos hneeds, hmissing] at hok
  exact nomatch hok

/-- The reports made so far are right. -/
def Filed (floats : Floats R) (probes : Compared R) (probeDeps : Deps) (budgets : Budgets R)
    (done : List String) (reports : List (String × ProbeReport R)) : Prop :=
  ∀ name ∈ done, reports.lookup name = some (reportOf floats probes probeDeps budgets name)

theorem findReport_ok {done : List String} {reports : List (String × ProbeReport R)}
    (h : Filed floats probes probeDeps budgets done reports) (hname : name ∈ done) :
    findReport reports name = .ok (reportOf floats probes probeDeps budgets name) := by
  rw [findReport, h name hname]

theorem classifyProbe_ok {done : List String} {reports : List (String × ProbeReport R)}
    {leaves : Leaves R} (h : Filed floats probes probeDeps budgets done reports)
    (hleaves : probes.get? name = some leaves) (hbudgets : ¬Unbudgeted budgets name leaves)
    (hpreds : ∀ pred ∈ predecessors probeDeps name, pred ∈ done) :
    ∃ reports', classifyProbe floats probes probeDeps budgets reports name = .ok reports' ∧
      Filed floats probes probeDeps budgets (name :: done) reports' := by
  have hreports := mapM_of_ok fun pred hpred => findReport_ok h (hpreds pred hpred)
  have hresolved : resolvedLeaves floats probes budgets name =
      leaves.map (resolved floats budgets name) := by
    rw [resolvedLeaves, hleaves, Option.getD_some]
  have hseverities : ((predecessors probeDeps name).map
      (reportOf floats probes probeDeps budgets)).map (·.severity) =
        (predecessors probeDeps name).map (severityOf floats probes budgets) := by
    rw [map_map]
    rfl
  refine ⟨(name, reportOf floats probes probeDeps budgets name) :: reports, ?_, ?_⟩
  · have hfound : findLeaves probes name = .ok leaves := by rw [findLeaves, hleaves]
    simp only [classifyProbe, hfound, resolveLeaves_ok hbudgets, hreports, bind, Except.bind,
      hseverities]
    rw [reportOf, hresolved]
    rfl
  · intro other hother
    rw [lookup_cons]
    by_cases heq : other = name
    · subst heq
      rw [beq_self_eq_true]
    · rw [beq_false_of_ne heq]
      exact h other ((mem_cons.mp hother).resolve_left heq)

theorem classifyLoop_ok (floats : Floats R) {order : List String} (hsorted : Sorted (predecessors probeDeps) order)
    (hbudgets : ∀ name ∈ order, ∃ leaves, probes.get? name = some leaves ∧
      ¬Unbudgeted budgets name leaves) :
    ∃ reports, order.foldlM (classifyProbe floats probes probeDeps budgets) [] = .ok reports ∧
      Filed floats probes probeDeps budgets order reports := by
  suffices hrest : ∀ rest done reports, order = done ++ rest →
      Filed floats probes probeDeps budgets done reports →
      ∃ reports', rest.foldlM (classifyProbe floats probes probeDeps budgets) reports =
          .ok reports' ∧ Filed floats probes probeDeps budgets order reports' from
    hrest order [] [] rfl fun _ h => absurd h not_mem_nil
  intro rest
  induction rest with
  | nil =>
    intro done reports heq h
    rw [append_nil] at heq
    exact ⟨reports, rfl, heq ▸ h⟩
  | cons name rest ih =>
    intro done reports heq h
    have hname : name ∈ order := heq ▸ mem_append_right _ (mem_cons_self ..)
    obtain ⟨leaves, hleaves, hbudget⟩ := hbudgets name hname
    obtain ⟨reports', hreports', hfiled⟩ :=
      classifyProbe_ok h hleaves hbudget (hsorted.closed done name rest heq)
    have hfiled' : Filed floats probes probeDeps budgets (done ++ [name]) reports' := by
      intro other hother
      refine hfiled other ?_
      rw [mem_append, mem_singleton] at hother
      exact mem_cons.mpr hother.symm
    obtain ⟨reports'', hreports'', hdone⟩ := ih (done ++ [name]) reports' (by simp [heq]) hfiled'
    refine ⟨reports'', ?_, hdone⟩
    rw [foldlM_cons, hreports']
    exact hreports''

theorem budgets_of_classifyProbe {reports reports' : List (String × ProbeReport R)}
    (h : classifyProbe floats probes probeDeps budgets reports name = .ok reports') :
    ∀ leaves, probes.get? name = some leaves → ¬Unbudgeted budgets name leaves := by
  intro leaves hleaves
  have hfound : findLeaves probes name = .ok leaves := by rw [findLeaves, hleaves]
  obtain ⟨compared, hcompared, h⟩ := bind_eq_ok.mp h
  obtain rfl := Except.ok.inj (hfound.symm.trans hcompared)
  obtain ⟨leaves', hleaves', -⟩ := bind_eq_ok.mp h
  exact not_unbudgeted_of_ok hleaves'

theorem budgets_of_loop {order : List String} {reports reports' : List (String × ProbeReport R)}
    (h : order.foldlM (classifyProbe floats probes probeDeps budgets) reports = .ok reports') :
    ∀ name ∈ order, ∀ leaves, probes.get? name = some leaves → ¬Unbudgeted budgets name leaves := by
  induction order generalizing reports with
  | nil => exact fun _ hname => absurd hname not_mem_nil
  | cons first rest ih =>
    rw [foldlM_cons, bind_eq_ok] at h
    obtain ⟨next, hfirst, hrest⟩ := h
    intro name hname
    rcases mem_cons.mp hname with rfl | hname
    · exact budgets_of_classifyProbe hfirst
    · exact ih hrest name hname

theorem exists_leaves (hname : name ∈ probeNames probes) :
    ∃ leaves, (name, leaves) ∈ probes.entries ∧ probes.get? name = some leaves := by
  obtain ⟨⟨key, leaves⟩, hentry, rfl⟩ := mem_map.mp hname
  exact ⟨leaves, hentry, Dict.get?_eq_some_iff.mpr hentry⟩

theorem mem_probeNames {leaves : Leaves R} (h : (name, leaves) ∈ probes.entries) :
    name ∈ probeNames probes :=
  mem_map_of_mem (f := (·.1)) h

/-- What makes `classify_probes` raise. -/
def Faulty (probes : Compared R) (probeDeps : Deps) (budgets : Budgets R) : Prop :=
  Cyclic probeDeps ∨ Undeclared (probeNames probes) probeDeps ∨
    ∃ entry ∈ probes.entries, Unbudgeted budgets entry.1 entry.2

/-- **`classify_probes`** raises if the input is at fault, else it returns the report of each
probe or finds a chain that is too long. -/
theorem classifyProbes_spec (floats : Floats R) (depth : Nat) (probes : Compared R)
    (probeDeps : Deps) (budgets : Budgets R) :
    (¬Faulty probes probeDeps budgets ∧ classifyProbes floats depth probes probeDeps budgets =
      .ok ((probeNames probes).map (reportOf floats probes probeDeps budgets))) ∨
    ∃ e, classifyProbes floats depth probes probeDeps budgets = .error e ∧
      (Faulty probes probeDeps budgets ∨ e = .recursionError ∧ TooDeep depth probeDeps) := by
  unfold classifyProbes
  rcases probeOrder_spec depth (probeNames probes) probeDeps with
    ⟨order, horder, hsorted, hmem, hdeclared, hacyclic⟩ | ⟨e, he, hfault⟩
  · rw [horder]
    by_cases hbudget : ∃ entry ∈ probes.entries, Unbudgeted budgets entry.1 entry.2
    · cases hloop : order.foldlM (classifyProbe floats probes probeDeps budgets) [] with
      | error e => exact .inr ⟨e, by simp only [bind, Except.bind, hloop], .inl (.inr (.inr hbudget))⟩
      | ok reports =>
        obtain ⟨⟨name, leaves⟩, hentry, hmissing⟩ := hbudget
        have hname : name ∈ order := (hmem name).mpr (mem_probeNames hentry)
        exact absurd hmissing
          (budgets_of_loop hloop name hname leaves (Dict.get?_eq_some_iff.mpr hentry))
    · refine .inl ⟨fun hfaulty => ?_, ?_⟩
      · rcases hfaulty with h | h | h
        · exact hacyclic h
        · exact hdeclared h
        · exact hbudget h
      · have hleaves : ∀ name ∈ order, ∃ leaves, probes.get? name = some leaves ∧
            ¬Unbudgeted budgets name leaves := by
          intro name hname
          obtain ⟨leaves, hentry, hget⟩ := exists_leaves ((hmem name).mp hname)
          exact ⟨leaves, hget, fun h => hbudget ⟨(name, leaves), hentry, h⟩⟩
        obtain ⟨reports, hreports, hfiled⟩ := classifyLoop_ok floats hsorted hleaves
        simp only [bind, Except.bind, hreports]
        exact mapM_of_ok fun name hname => findReport_ok hfiled ((hmem name).mpr hname)
  · refine .inr ⟨e, by rw [he]; rfl, ?_⟩
    rcases hfault with h | h | h
    · exact .inl (.inr (.inl h))
    · exact .inl (.inl h)
    · exact .inr h

end

/-! ### The order of the declarations -/

section

variable {R : Type} {floats : Floats R} {probes probes' : Compared R} {probeDeps probeDeps' : Deps}
variable {budgets : Budgets R}

/-- The declarations are the same but for their order. -/
structure SameDeps (probeDeps probeDeps' : Deps) : Prop where
  keys : (probeDeps.entries.map (·.1)).Perm (probeDeps'.entries.map (·.1))
  preds : ∀ name, (predecessors probeDeps name).Perm (predecessors probeDeps' name)

theorem SameDeps.symm (h : SameDeps probeDeps probeDeps') : SameDeps probeDeps' probeDeps :=
  ⟨h.keys.symm, fun name => (h.preds name).symm⟩

theorem SameDeps.edge (h : SameDeps probeDeps probeDeps') {a b : String} :
    Edge (predecessors probeDeps) a b ↔ Edge (predecessors probeDeps') a b :=
  (h.preds a).mem_iff

theorem SameDeps.cyclic (h : SameDeps probeDeps probeDeps') (hcyclic : Cyclic probeDeps) :
    Cyclic probeDeps' := by
  obtain ⟨name, hname⟩ := hcyclic
  exact ⟨name, hname.lift id fun _ _ hab => h.edge.mp hab⟩

theorem SameDeps.tooDeep {depth : Nat} (h : SameDeps probeDeps probeDeps')
    (hdeep : TooDeep depth probeDeps) : TooDeep depth probeDeps' :=
  hdeep.mono fun _ _ => h.edge.mp

theorem predecessors_of_entry {entry : String × List String} (h : entry ∈ probeDeps.entries) :
    predecessors probeDeps entry.1 = entry.2 := by
  unfold predecessors
  rw [Dict.get?_eq_some_iff.mpr h, Option.getD_some]

theorem SameDeps.undeclared (h : SameDeps probeDeps probeDeps') {names names' : List String}
    (hnames : names.Perm names') (hundeclared : Undeclared names probeDeps) :
    Undeclared names' probeDeps' := by
  obtain ⟨entry, hentry, hfault⟩ := hundeclared
  have hkey : entry.1 ∈ probeDeps'.entries.map (·.1) :=
    h.keys.mem_iff.mp (mem_map_of_mem hentry)
  obtain ⟨entry', hentry', heq⟩ := mem_map.mp hkey
  refine ⟨entry', hentry', ?_⟩
  rcases hfault with hprobe | ⟨pred, hpred, hnot⟩
  · exact .inl fun hmem => hprobe (hnames.mem_iff.mpr (heq ▸ hmem))
  · refine .inr ⟨pred, ?_, fun hmem => hnot (hnames.mem_iff.mpr hmem)⟩
    rw [← predecessors_of_entry hentry', heq]
    rw [← predecessors_of_entry hentry] at hpred
    exact (h.preds entry.1).mem_iff.mp hpred

theorem probeNames_perm (h : probes.entries.Perm probes'.entries) :
    (probeNames probes).Perm (probeNames probes') :=
  h.map _

theorem get?_perm (h : probes.entries.Perm probes'.entries) (name : String) :
    probes.get? name = probes'.get? name := by
  apply Option.ext
  intro leaves
  rw [Dict.get?_eq_some_iff, Dict.get?_eq_some_iff, h.mem_iff]

theorem Faulty.perm (h : Faulty probes probeDeps budgets)
    (hprobes : probes.entries.Perm probes'.entries) (hdeps : SameDeps probeDeps probeDeps') :
    Faulty probes' probeDeps' budgets := by
  rcases h with hcyclic | hundeclared | ⟨entry, hentry, hmissing⟩
  · exact .inl (hdeps.cyclic hcyclic)
  · exact .inr (.inl (hdeps.undeclared (probeNames_perm hprobes) hundeclared))
  · exact .inr (.inr ⟨entry, hprobes.mem_iff.mp hentry, hmissing⟩)

theorem worst_perm {severities severities' : List Severity} (h : severities.Perm severities') :
    worst severities = worst severities' := by
  unfold worst
  exact h.foldr_eq' (fun a _ b _ c => max_left_comm b a c) _

theorem divergenceClass_perm {leaves : Leaves R} {severities severities' : List Severity}
    (h : severities.Perm severities') :
    divergenceClass leaves severities = divergenceClass leaves severities' := by
  unfold divergenceClass
  rw [worst_perm h, h.all_eq]

theorem reportOf_perm (hprobes : probes.entries.Perm probes'.entries)
    (hdeps : SameDeps probeDeps probeDeps') (name : String) :
    reportOf floats probes' probeDeps' budgets name =
      { reportOf floats probes probeDeps budgets name with
        predecessors := predecessors probeDeps' name } := by
  have hleaves : resolvedLeaves floats probes' budgets = resolvedLeaves floats probes budgets := by
    funext other
    rw [resolvedLeaves, resolvedLeaves, get?_perm hprobes]
  have hseverity : severityOf floats probes' budgets = severityOf floats probes budgets := by
    funext other
    rw [severityOf, severityOf, hleaves]
  unfold reportOf makeReport
  rw [hleaves, hseverity]
  rw [divergenceClass_perm ((hdeps.preds name).symm.map (severityOf floats probes budgets))]

end

/-! ### Causes -/

section

variable {R : Type} {floats : Floats R} {probes : Compared R} {probeDeps : Deps}
variable {budgets : Budgets R} {leaves : Leaves R} {predSeverities : List Severity}

/-- The classes of a probe that needs no predecessor to explain it. -/
def DivergenceClass.Origin (c : DivergenceClass) : Prop :=
  c = uncomparable ∨ c = discreteFlip ∨ c = injected

theorem divergenceClass_beyondBudget (h : worst (leaves.map (·.severity)) = .beyondBudget) :
    (divergenceClass leaves predSeverities).Origin ∨
      divergenceClass leaves predSeverities = .amplified := by
  unfold divergenceClass DivergenceClass.Origin
  simp only [h]
  split_ifs with hfailed hflip hinjected hamplified hattenuated
  · exact .inl (.inl rfl)
  · exact .inl (.inr (.inl rfl))
  · exact .inl (.inr (.inr rfl))
  · exact .inr rfl
  · have hle := (worst predSeverities).le_beyondBudget
    rw [Bool.and_eq_true, decide_eq_true_iff] at hattenuated
    exact absurd hle (not_le.mpr hattenuated.2)
  · have hle := (worst predSeverities).le_beyondBudget
    have hpos : Severity.identical < Severity.beyondBudget := by decide
    cases hclean : predSeverities.all (· = .identical) <;> simp [hclean, hle, hpos] at *

def Cause (reports : List (ProbeReport R)) (report : ProbeReport R) : Prop :=
  report.divergenceClass.Origin ∨ report.divergenceClass = .amplified ∧
    ∀ pred ∈ report.predecessors, ∃ other ∈ reports, other.name = pred ∧
      other.severity ≤ .withinBudget

/-- A probe beyond its budget is a cause or has a predecessor beyond its budget, and so on along
the order. -/
theorem exists_cause {order : List String} {reports : List (ProbeReport R)}
    (hsorted : Sorted (predecessors probeDeps) order)
    (hpreds : ∀ a ∈ order, ∀ b ∈ predecessors probeDeps a,
      reportOf floats probes probeDeps budgets b ∈ reports) :
    ∀ name ∈ order, severityOf floats probes budgets name = .beyondBudget →
      ∃ cause ∈ order, Relation.ReflTransGen (Edge (predecessors probeDeps)) name cause ∧
        Cause reports (reportOf floats probes probeDeps budgets cause) := by
  refine hsorted.induction fun name hname ih hbeyond => ?_
  by_cases hpred : ∃ pred ∈ predecessors probeDeps name,
      severityOf floats probes budgets pred = .beyondBudget
  · obtain ⟨pred, hpred, hbeyond'⟩ := hpred
    obtain ⟨cause, hcause, hpath, horigin⟩ := ih pred hpred hbeyond'
    exact ⟨cause, hcause, .head hpred hpath, horigin⟩
  · refine ⟨name, hname, .refl, ?_⟩
    have hclass : (reportOf floats probes probeDeps budgets name).divergenceClass.Origin ∨
        (reportOf floats probes probeDeps budgets name).divergenceClass = .amplified :=
      divergenceClass_beyondBudget hbeyond
    rcases hclass with horigin | hamplified
    · exact .inl horigin
    · refine .inr ⟨hamplified, fun pred hmem => ?_⟩
      refine ⟨_, hpreds name hname pred hmem, rfl, ?_⟩
      have hne : severityOf floats probes budgets pred ≠ .beyondBudget :=
        fun h => hpred ⟨pred, hmem, h⟩
      change severityOf floats probes budgets pred ≤ .withinBudget
      cases hseverity : severityOf floats probes budgets pred with
      | identical => exact Severity.identical_le _
      | withinBudget => exact le_rfl
      | beyondBudget => exact absurd hseverity hne

theorem not_explained_away {c : DivergenceClass} (h : c.Origin ∨ c = .amplified) :
    c ≠ .clean ∧ c ≠ .attenuated := by
  rcases h with (rfl | rfl | rfl) | rfl <;> decide

section

variable {depth : Nat}

theorem not_faulty_of_ok {reports : List (ProbeReport R)}
    (h : classifyProbes floats depth probes probeDeps budgets = .ok reports) :
    ¬Faulty probes probeDeps budgets ∧
      reports = (probeNames probes).map (reportOf floats probes probeDeps budgets) := by
  rcases classifyProbes_spec floats depth probes probeDeps budgets with ⟨hright, hok⟩ | ⟨e, he, -⟩
  · exact ⟨hright, (Except.ok.inj (hok.symm.trans h)).symm⟩
  · exact nomatch he.symm.trans h

theorem ok_or_tooDeep (floats : Floats R) (depth : Nat) (h : ¬Faulty probes probeDeps budgets) :
    classifyProbes floats depth probes probeDeps budgets =
        .ok ((probeNames probes).map (reportOf floats probes probeDeps budgets)) ∨
      classifyProbes floats depth probes probeDeps budgets = .error .recursionError ∧
        TooDeep depth probeDeps := by
  rcases classifyProbes_spec floats depth probes probeDeps budgets with ⟨-, hok⟩ | ⟨e, he, hfault⟩
  · exact .inl hok
  · obtain ⟨rfl, hdeep⟩ := hfault.resolve_left h
    exact .inr ⟨he, hdeep⟩

theorem error_of_faulty (floats : Floats R) (depth : Nat) (h : Faulty probes probeDeps budgets) :
    ∃ e, classifyProbes floats depth probes probeDeps budgets = .error e := by
  rcases classifyProbes_spec floats depth probes probeDeps budgets with ⟨hright, -⟩ | ⟨e, he, -⟩
  · exact absurd h hright
  · exact ⟨e, he⟩

/-- The reports are the same for declarations in another order, but for the order of the
predecessors. -/
theorem reports_perm {probes' : Compared R} {probeDeps' : Deps}
    (hprobes : probes.entries.Perm probes'.entries) (hdeps : SameDeps probeDeps probeDeps') :
    (((probeNames probes).map (reportOf floats probes probeDeps budgets)).map fun report =>
      { report with predecessors := predecessors probeDeps' report.name }).Perm
        ((probeNames probes').map (reportOf floats probes' probeDeps' budgets)) := by
  have hsame : (fun report : ProbeReport R =>
      { report with predecessors := predecessors probeDeps' report.name }) ∘
        reportOf floats probes probeDeps budgets =
      reportOf floats probes' probeDeps' budgets :=
    funext fun name => (reportOf_perm hprobes hdeps name).symm
  rw [map_map, hsame]
  exact (probeNames_perm hprobes).map _

theorem exists_cause_report {reports : List (ProbeReport R)}
    (hok : classifyProbes floats depth probes probeDeps budgets = .ok reports) {name : String}
    (hname : name ∈ probeNames probes)
    (hbeyond : severityOf floats probes budgets name = .beyondBudget) :
    ∃ cause ∈ (probeNames probes).map (reportOf floats probes probeDeps budgets),
      Relation.ReflTransGen (Edge (predecessors probeDeps)) name cause.name ∧
      Cause ((probeNames probes).map (reportOf floats probes probeDeps budgets)) cause := by
  obtain ⟨order', horder', -⟩ := bind_eq_ok.mp hok
  rcases probeOrder_spec depth (probeNames probes) probeDeps with
    ⟨order, -, hsorted, hmem, hdeclared, -⟩ | ⟨e, he, -⟩
  · have hpreds : ∀ a ∈ order, ∀ b ∈ predecessors probeDeps a,
        reportOf floats probes probeDeps budgets b ∈
          (probeNames probes).map (reportOf floats probes probeDeps budgets) := by
      intro a _ b hb
      have hab : Edge (predecessors probeDeps) a b := hb
      exact mem_map_of_mem (declared_of_edge (not_undeclared_iff.mp hdeclared) hab).2
    obtain ⟨cause, hcause, hpath, horigin⟩ :=
      exists_cause hsorted hpreds name ((hmem name).mpr hname) hbeyond
    exact ⟨_, mem_map_of_mem ((hmem cause).mp hcause), hpath, horigin⟩
  · exact nomatch he.symm.trans horder'

/-- **Every divergence is traced to a cause.**  `classify_probes` raises when the input is at
fault, and else only for a chain of probes that is too long for the interpreter.  Its reports do
not depend on the order of the declarations, but that a report lists the predecessors in the order
they are declared in.  A probe beyond its budget is neither clean nor attenuated, and it or one of
its ancestors is a cause. -/
theorem divergence_traced (floats : Floats R) (depth : Nat) (probes : Compared R)
    (probeDeps : Deps) (budgets : Budgets R) :
    (Faulty probes probeDeps budgets →
      ∃ e, classifyProbes floats depth probes probeDeps budgets = .error e) ∧
    (∀ e, classifyProbes floats depth probes probeDeps budgets = .error e →
      Faulty probes probeDeps budgets ∨ e = .recursionError ∧ TooDeep depth probeDeps) ∧
    ∀ reports, classifyProbes floats depth probes probeDeps budgets = .ok reports →
      (∀ (probes' : Compared R) (probeDeps' : Deps), probes.entries.Perm probes'.entries →
        SameDeps probeDeps probeDeps' →
        (∀ e, classifyProbes floats depth probes' probeDeps' budgets = .error e →
          e = .recursionError ∧ TooDeep depth probeDeps) ∧
        ∀ reports', classifyProbes floats depth probes' probeDeps' budgets = .ok reports' →
          (reports.map fun report =>
            { report with predecessors := predecessors probeDeps' report.name }).Perm reports') ∧
      ∀ report ∈ reports, report.severity = .beyondBudget →
        report.divergenceClass ≠ .clean ∧ report.divergenceClass ≠ .attenuated ∧
        ∃ cause ∈ reports,
          Relation.ReflTransGen (Edge (predecessors probeDeps)) report.name cause.name ∧
          Cause reports cause := by
  refine ⟨error_of_faulty floats depth, fun e he => ?_, fun reports hreports => ?_⟩
  · by_cases hfaulty : Faulty probes probeDeps budgets
    · exact .inl hfaulty
    · rcases ok_or_tooDeep floats depth hfaulty with hok | ⟨hdeep, htoo⟩
      · exact nomatch hok.symm.trans he
      · exact .inr ⟨(Except.error.inj (hdeep.symm.trans he)).symm, htoo⟩
  · obtain ⟨hright, rfl⟩ := not_faulty_of_ok hreports
    refine ⟨fun probes' probeDeps' hprobes hdeps => ⟨fun e he => ?_, fun reports' hreports' => ?_⟩,
      fun report hreport hbeyond => ?_⟩
    · have hright' : ¬Faulty probes' probeDeps' budgets :=
        fun h => hright (h.perm hprobes.symm hdeps.symm)
      rcases ok_or_tooDeep floats depth hright' with hok | ⟨hdeep, htoo⟩
      · exact nomatch hok.symm.trans he
      · exact ⟨(Except.error.inj (hdeep.symm.trans he)).symm, hdeps.symm.tooDeep htoo⟩
    · obtain ⟨-, rfl⟩ := not_faulty_of_ok hreports'
      exact reports_perm hprobes hdeps
    · obtain ⟨name, hname, rfl⟩ := List.mem_map.mp hreport
      obtain ⟨hclean, hattenuated⟩ := not_explained_away (divergenceClass_beyondBudget hbeyond)
      exact ⟨hclean, hattenuated, exists_cause_report hreports hname hbeyond⟩

end

/-- A probe that was compared and is right. -/
def agreeing : LeafDivergence Nat where
  path := ""
  dtypeClass := .integer
  severity := .identical

def threeProbes : Compared Nat where
  entries := [("a", [agreeing]), ("b", [agreeing]), ("c", [agreeing])]
  nodup := by decide

def naturals : Floats Nat where
  zero := 0
  inf := 1000
  le a b := a ≤ b
  lt a b := a < b

/-- Three probes, the last of which depends on the one before it, and so on. -/
def chain : Deps where
  entries := [("b", ["a"]), ("c", ["b"])]
  nodup := by decide

/-- A report lists the predecessors as they are declared, so it depends on their order; and where
only two visits may nest, a chain of three probes is classified when the first is listed first,
and not when the last is. -/
theorem order_matters :
    (classifyProbes naturals 1000 threeProbes ⟨[("c", ["a", "b"])], by decide⟩ (fun _ => none) ≠
      classifyProbes naturals 1000 threeProbes ⟨[("c", ["b", "a"])], by decide⟩ fun _ => none) ∧
    (∃ reports, classifyProbes naturals 2 threeProbes chain (fun _ => none) = .ok reports) ∧
    classifyProbes naturals 2 ⟨threeProbes.entries.reverse, by decide⟩ chain (fun _ => none) =
      .error .recursionError :=
  ⟨by decide, ⟨_, rfl⟩, by decide⟩

end

end Xtrax.Probes
