import Xtrax.ProbeClassesSound
import Xtrax.Worklist

/-!
# The probes of one rung

`_classify_rung_probes` leaves out the probes whose budgets are missing and all that depend on
them, and classifies the rest.  What it leaves out is closed along the declared edges, so the
reports of the rest are those of the whole graph, whatever budgets are filled in.  A chain of
probes that is too long for the interpreter may keep the rest from being classified.
-/

namespace Xtrax.Probes

open List TopologicalOrder Worklist

/-! ### The model -/

/-- `_all_probe_names`, less those that are keys. -/
def remainingNames (probeDeps : Deps) : List String :=
  ((probeDeps.entries.flatMap (·.2)).filter fun name =>
    name ∉ probeDeps.entries.map (·.1)).dedup.insertionSort (· ≤ ·)

def probeIterationOrder (probeDeps : Deps) : List String :=
  probeDeps.entries.map (·.1) ++ remainingNames probeDeps

inductive RungNote
  | absent (ring : String) (missing : List String)
  | unbudgeted (ring : String) (unbudgeted dependents : List String)
  deriving DecidableEq

/-- One turn of the loop over the names: the blocked ones and whether there are new ones. -/
def blockName (probeDeps : Deps) (s : List String × Bool) (name : String) : List String × Bool :=
  if name ∈ s.1 then s
  else if (predecessors probeDeps name).any (· ∈ s.1) then (name :: s.1, true)
  else s

/-- `while changed`. -/
def blockedNames (probeDeps : Deps) (names unbudgeted : List String) :
    Except ProbeError (Option (List String × Bool)) :=
  whileLoop (fun s => s.2) (fun s => .ok (names.foldl (blockName probeDeps) (s.1, false)))
    (names.length + 1) (unbudgeted, true)

section

variable {R : Type} (floats : Floats R) (depth : Nat)

/-- `{name: leaves[name] for name in names}`. -/
def named (leavesByName : Compared R) (names : List String) : Compared R :=
  (∅ : Compared R).update (names.filterMap fun name => (leavesByName.get? name).map (name, ·))

def unbudgetedProbes (probes : Compared R) (budgets : Budgets R) : List String :=
  (probes.entries.filter fun entry => entry.2.any fun leaf =>
    leafNeedsBudget leaf && (budgets (budgetKey entry.1 leaf.path)).isNone).map (·.1)

/-- `{k: v for k, v in probe_deps.items() if k in names}`. -/
def subDeps (probeDeps : Deps) (names : List String) : Deps where
  entries := probeDeps.entries.filter fun entry => entry.1 ∈ names
  nodup := probeDeps.nodup.sublist (List.filter_sublist.map _)

/-- The notes on what was left out. -/
def rungNotes (ring : String) (unbudgeted blocked : List String) : List RungNote :=
  if blocked = [] then []
  else [.unbudgeted ring (unbudgeted.insertionSort (· ≤ ·))
    ((blocked.filter fun name => name ∉ unbudgeted).insertionSort (· ≤ ·))]

/-- What is classified once the blocked names are known. -/
def classifyRest (ring : String) (probes : Compared R) (probeDeps : Deps) (budgets : Budgets R)
    (names unbudgeted blocked : List String) :
    Except ProbeError (List (ProbeReport R) × List RungNote) :=
  let classifiable := names.filter fun name => name ∉ blocked
  let notes := rungNotes ring unbudgeted blocked
  if classifiable = [] then .ok ([], notes)
  else match classifyProbes floats depth (named probes classifiable) (subDeps probeDeps classifiable)
      budgets with
    | .error e => .error e
    | .ok reports => .ok (reports, notes)

def classifyRungProbes (ring : String) (leavesByName : Compared R) (probeDeps : Option Deps)
    (budgets : Option (Budgets R)) : Except ProbeError (List (ProbeReport R) × List RungNote) :=
  match probeDeps with
  | none => .ok ([], [])
  | some probeDeps =>
    let names := probeIterationOrder probeDeps
    let missing := names.filter fun name => (leavesByName.get? name).isNone
    if missing ≠ [] then .ok ([], [.absent ring missing])
    else
      let resolvedBudgets := budgets.getD fun _ => none
      let probes := named leavesByName names
      let unbudgeted := unbudgetedProbes probes resolvedBudgets
      match blockedNames probeDeps names unbudgeted with
      | .error e => .error e
      | .ok none => .error .endless
      | .ok (some s) =>
        classifyRest floats depth ring probes probeDeps resolvedBudgets names unbudgeted s.1

end

/-! ### The names -/

section

variable {probeDeps : Deps} {a b name : String}

theorem mem_remainingNames : name ∈ remainingNames probeDeps ↔
    (∃ entry ∈ probeDeps.entries, name ∈ entry.2) ∧ name ∉ probeDeps.entries.map (·.1) := by
  unfold remainingNames
  rw [mem_insertionSort, mem_dedup, mem_filter, mem_flatMap, decide_eq_true_iff]

theorem probeIterationOrder_nodup (probeDeps : Deps) : (probeIterationOrder probeDeps).Nodup := by
  refine nodup_append'.mpr ⟨probeDeps.nodup, ?_, ?_⟩
  · exact (perm_insertionSort _ _).nodup_iff.mpr (nodup_dedup _)
  · intro name hkey hremaining
    exact (mem_remainingNames.mp hremaining).2 hkey

theorem mem_iterationOrder_of_key {entry : String × List String}
    (h : entry ∈ probeDeps.entries) : entry.1 ∈ probeIterationOrder probeDeps :=
  mem_append_left _ (mem_map_of_mem h)

theorem mem_iterationOrder_of_pred {entry : String × List String}
    (h : entry ∈ probeDeps.entries) (hname : name ∈ entry.2) :
    name ∈ probeIterationOrder probeDeps := by
  by_cases hkey : name ∈ probeDeps.entries.map (·.1)
  · exact mem_append_left _ hkey
  · exact mem_append_right _ (mem_remainingNames.mpr ⟨⟨entry, h, hname⟩, hkey⟩)

end

/-! ### The blocked names -/

section

variable {probeDeps : Deps} {names unbudgeted todo : List String} {s : List String × Bool}

/-- How many names may still be blocked. -/
def unblocked (names blocked : List String) : Nat := remaining id (fun _ => 1) names blocked

/-- What a pass over `todo` does to the blocked names. -/
structure Passed (probeDeps : Deps) (names todo : List String) (s t : List String × Bool) :
    Prop where
  keeps : ∀ x ∈ s.1, x ∈ t.1
  sound : ∀ P : String → Prop, (∀ x ∈ s.1, P x) →
    (∀ x ∈ todo, ∀ pred ∈ predecessors probeDeps x, P pred → P x) → ∀ x ∈ t.1, P x
  fewer : unblocked names t.1 ≤ unblocked names s.1
  marks : s.2 = true → t.2 = true
  changed : t.2 = true → s.2 = true ∨ unblocked names t.1 < unblocked names s.1
  settled : t.2 = false → t.1 = s.1 ∧
    ∀ x ∈ todo, x ∈ s.1 ∨ ∀ pred ∈ predecessors probeDeps x, pred ∉ s.1

theorem passed_blockName (hnames : names.Nodup) {name : String} (hname : name ∈ names) :
    Passed probeDeps names [name] s (blockName probeDeps s name) := by
  unfold blockName
  by_cases hblocked : name ∈ s.1
  · rw [if_pos hblocked]
    exact ⟨fun _ h => h, fun _ h _ => h, le_rfl, id, .inl, fun _ =>
      ⟨rfl, fun x hx => .inl (mem_singleton.mp hx ▸ hblocked)⟩⟩
  · rw [if_neg hblocked]
    by_cases hany : ((predecessors probeDeps name).any (· ∈ s.1)) = true
    · rw [if_pos hany]
      obtain ⟨pred, hpred, hin⟩ := any_eq_true.mp hany
      have hmark : unblocked names (name :: s.1) + 1 = unblocked names s.1 :=
        remaining_mark (by simpa using hnames) hname hblocked
      have hlt : unblocked names (name :: s.1) < unblocked names s.1 := by omega
      refine ⟨fun x hx => mem_cons_of_mem _ hx, fun P hP hstep x hx => ?_, hlt.le,
        fun _ => rfl, fun _ => .inr hlt, fun h => (nomatch h)⟩
      rcases mem_cons.mp hx with rfl | hx
      · exact hstep x (mem_singleton_self x) pred hpred (hP pred (of_decide_eq_true hin))
      · exact hP x hx
    · rw [if_neg hany]
      refine ⟨fun _ h => h, fun _ h _ => h, le_rfl, id, .inl, fun _ => ⟨rfl, fun x hx => .inr ?_⟩⟩
      obtain rfl := mem_singleton.mp hx
      intro pred hpred hin
      exact hany (any_eq_true.mpr ⟨pred, hpred, decide_eq_true hin⟩)

theorem Passed.trans {todo' : List String} {t u : List String × Bool}
    (h : Passed probeDeps names todo s t) (h' : Passed probeDeps names todo' t u) :
    Passed probeDeps names (todo ++ todo') s u where
  keeps x hx := h'.keeps x (h.keeps x hx)
  sound P hP hstep := h'.sound P (h.sound P hP fun x hx => hstep x (mem_append_left _ hx))
    fun x hx => hstep x (mem_append_right _ hx)
  fewer := h'.fewer.trans h.fewer
  marks hs := h'.marks (h.marks hs)
  changed hu := by
    rcases h'.changed hu with ht | hlt
    · exact (h.changed ht).imp_right h'.fewer.trans_lt
    · exact .inr (hlt.trans_le h.fewer)
  settled hu := by
    have ht : t.2 = false := by
      by_contra hmarked
      exact absurd (h'.marks (eq_true_of_ne_false hmarked)) (ne_true_of_eq_false hu)
    obtain ⟨hst, hsettled⟩ := h.settled ht
    obtain ⟨htu, hsettled'⟩ := h'.settled hu
    refine ⟨htu.trans hst, fun x hx => ?_⟩
    rcases mem_append.mp hx with hx | hx
    · exact hsettled x hx
    · exact hst ▸ hsettled' x hx

theorem passed_foldl (hnames : names.Nodup) (htodo : ∀ x ∈ todo, x ∈ names) :
    Passed probeDeps names todo s (todo.foldl (blockName probeDeps) s) := by
  induction todo generalizing s with
  | nil =>
    exact ⟨fun _ h => h, fun _ h _ => h, le_rfl, id, .inl,
      fun _ => ⟨rfl, fun _ hx => absurd hx not_mem_nil⟩⟩
  | cons name rest ih =>
    have hfirst : Passed probeDeps names [name] s (blockName probeDeps s name) :=
      passed_blockName hnames (htodo name (mem_cons_self ..))
    exact hfirst.trans (ih fun x hx => htodo x (mem_cons_of_mem _ hx))

/-- The probe or one that it depends on has no budget. -/
def LeftOut (probeDeps : Deps) (unbudgeted : List String) (name : String) : Prop :=
  ∃ root ∈ unbudgeted, Relation.ReflTransGen (Edge (predecessors probeDeps)) name root

/-- What holds of the blocked names between passes. -/
structure Blocking (probeDeps : Deps) (names unbudgeted : List String) (s : List String × Bool) :
    Prop where
  has : ∀ x ∈ unbudgeted, x ∈ s.1
  sound : ∀ x ∈ s.1, LeftOut probeDeps unbudgeted x
  closed : s.2 = false → ∀ x ∈ names, ∀ pred ∈ predecessors probeDeps x, pred ∈ s.1 → x ∈ s.1

theorem Blocking.pass (hnames : names.Nodup) (h : Blocking probeDeps names unbudgeted s) :
    Blocking probeDeps names unbudgeted (names.foldl (blockName probeDeps) (s.1, false)) := by
  have hpassed : Passed probeDeps names names (s.1, false)
      (names.foldl (blockName probeDeps) (s.1, false)) := passed_foldl hnames fun _ hx => hx
  refine ⟨fun x hx => hpassed.keeps x (h.has x hx), ?_, fun hdone x hx pred hpred hin => ?_⟩
  · refine hpassed.sound _ h.sound fun x _ pred hpred hleft => ?_
    obtain ⟨root, hroot, hpath⟩ := hleft
    exact ⟨root, hroot, .head hpred hpath⟩
  · obtain ⟨hsame, hsettled⟩ := hpassed.settled hdone
    rw [hsame] at hin ⊢
    exact (hsettled x hx).resolve_right fun hnone => hnone pred hpred hin

theorem unblocked_le (names blocked : List String) : unblocked names blocked ≤ names.length := by
  unfold unblocked remaining
  rw [map_const', sum_replicate]
  exact (Nat.mul_one _).le.trans (length_filter_le _ _)

/-- **The fixpoint**: the loop ends, and has blocked the names that are left out. -/
theorem blockedNames_spec (unbudgeted : List String) (hnames : names.Nodup)
    (hclosed : ∀ a b, Edge (predecessors probeDeps) a b → a ∈ names) :
    ∃ s, blockedNames probeDeps names unbudgeted = .ok (some s) ∧
      ∀ name, name ∈ s.1 ↔ LeftOut probeDeps unbudgeted name := by
  have hstart : Blocking probeDeps names unbudgeted (unbudgeted, true) :=
    ⟨fun _ hx => hx, fun x hx => ⟨x, hx, .refl⟩, fun h => (nomatch h)⟩
  let measure : List String × Bool → Nat := fun s => if s.2 then unblocked names s.1 + 1 else 0
  have hbody : ∀ s, Blocking probeDeps names unbudgeted s → s.2 = true →
      ∃ t, (Except.ok (names.foldl (blockName probeDeps) (s.1, false)) :
        Except ProbeError (List String × Bool)) = .ok t ∧
        Blocking probeDeps names unbudgeted t ∧ measure t < measure s := by
    intro s hs hmore
    refine ⟨_, rfl, hs.pass hnames, ?_⟩
    have hpassed : Passed probeDeps names names (s.1, false)
        (names.foldl (blockName probeDeps) (s.1, false)) := passed_foldl hnames fun _ hx => hx
    change (if (names.foldl (blockName probeDeps) (s.1, false)).2 then
      unblocked names (names.foldl (blockName probeDeps) (s.1, false)).1 + 1 else 0) <
        if s.2 then unblocked names s.1 + 1 else 0
    rw [if_pos hmore]
    split_ifs with hchanged
    · exact Nat.succ_lt_succ ((hpassed.changed hchanged).resolve_left (fun h => nomatch h))
    · exact Nat.succ_pos _
  have hbound : measure (unbudgeted, true) ≤ names.length + 1 :=
    Nat.succ_le_succ (unblocked_le names unbudgeted)
  obtain ⟨s, hs, hblocking, hdone⟩ := whileLoop_returns hbody hstart hbound
  refine ⟨s, hs, fun name => ⟨hblocking.sound name, ?_⟩⟩
  rintro ⟨root, hroot, hpath⟩
  induction hpath using Relation.ReflTransGen.head_induction_on with
  | refl => exact hblocking.has root hroot
  | head hab _ ih => exact hblocking.closed hdone _ (hclosed _ _ hab) _ hab ih

end

/-! ### The restriction -/

section

variable {R : Type} {floats : Floats R} {leavesByName probes : Compared R} {probeDeps : Deps}
variable {budgets budgets' : Budgets R} {names : List String} {name : String}

theorem named_entries (hnames : names.Nodup) : (named leavesByName names).entries =
    names.filterMap fun name => (leavesByName.get? name).map (name, ·) := by
  refine (Dict.entries_update ?_).trans (nil_append _)
  have hkeys : ((names.filterMap fun name => (leavesByName.get? name).map (name, ·)).map
      (·.1)) = names.filter fun name => (leavesByName.get? name).isSome := by
    induction names with
    | nil => rfl
    | cons first rest ih =>
      have hrest := ih hnames.of_cons
      cases hget : leavesByName.get? first with
      | none => simpa [hget] using hrest
      | some leaves => simpa [hget] using hrest
  rw [Dict.entries_empty, nil_append, hkeys]
  exact hnames.filter _

theorem mem_named (hnames : names.Nodup) {leaves : Leaves R} :
    (name, leaves) ∈ (named leavesByName names).entries ↔
      name ∈ names ∧ leavesByName.get? name = some leaves := by
  rw [named_entries hnames, mem_filterMap]
  constructor
  · rintro ⟨other, hother, heq⟩
    obtain ⟨leaves', hget, heq⟩ := Option.map_eq_some_iff.mp heq
    obtain ⟨rfl, rfl⟩ := Prod.mk.inj heq
    exact ⟨hother, hget⟩
  · rintro ⟨hname, hget⟩
    exact ⟨name, hname, by rw [hget]; rfl⟩

theorem get?_named (hnames : names.Nodup) (hname : name ∈ names) :
    (named leavesByName names).get? name = leavesByName.get? name := by
  apply Option.ext
  intro leaves
  rw [Dict.get?_eq_some_iff, mem_named hnames]
  exact ⟨fun h => h.2, fun h => ⟨hname, h⟩⟩

theorem probeNames_named (hnames : names.Nodup)
    (hleaves : ∀ name ∈ names, leavesByName.get? name ≠ none) :
    probeNames (named leavesByName names) = names := by
  unfold probeNames
  rw [named_entries hnames]
  clear hnames
  induction names with
  | nil => rfl
  | cons first rest ih =>
    obtain ⟨leaves, hget⟩ := Option.ne_none_iff_exists'.mp (hleaves first (mem_cons_self ..))
    have hrest := ih fun name hname => hleaves name (mem_cons_of_mem _ hname)
    simpa [hget] using hrest

theorem mem_unbudgetedProbes : name ∈ unbudgetedProbes probes budgets ↔
    ∃ leaves, (name, leaves) ∈ probes.entries ∧ Unbudgeted budgets name leaves := by
  unfold unbudgetedProbes Unbudgeted
  simp only [List.mem_map, List.mem_filter, List.any_eq_true, Bool.and_eq_true,
    Option.isNone_iff_eq_none]
  constructor
  · rintro ⟨⟨other, leaves⟩, ⟨hentry, hmissing⟩, rfl⟩
    exact ⟨leaves, hentry, hmissing⟩
  · rintro ⟨leaves, hentry, hmissing⟩
    exact ⟨(name, leaves), ⟨hentry, hmissing⟩, rfl⟩

theorem predecessors_subDeps (hname : name ∈ names) :
    predecessors (subDeps probeDeps names) name = predecessors probeDeps name := by
  have hget : (subDeps probeDeps names).get? name = probeDeps.get? name := by
    apply Option.ext
    intro preds
    rw [Dict.get?_eq_some_iff, Dict.get?_eq_some_iff]
    unfold subDeps
    rw [mem_filter, decide_eq_true_iff]
    exact ⟨fun h => h.1, fun h => ⟨h, hname⟩⟩
  rw [predecessors, predecessors, hget]

theorem edge_of_subDeps {a b : String} (h : Edge (predecessors (subDeps probeDeps names)) a b) :
    Edge (predecessors probeDeps) a b ∧ a ∈ names := by
  obtain ⟨preds, hentry, hb⟩ := mem_entries_of_edge h
  obtain ⟨hentry, hname⟩ := mem_filter.mp hentry
  have hab := predecessors_of_entry hentry
  exact ⟨by rw [Edge, hab]; exact hb, of_decide_eq_true hname⟩

theorem tooDeep_of_subDeps {depth : Nat} (h : TooDeep depth (subDeps probeDeps names)) :
    TooDeep depth probeDeps :=
  h.mono fun _ _ hab => (edge_of_subDeps hab).1

theorem not_faulty_restriction (budgets : Budgets R) (hacyclic : ¬Cyclic probeDeps) (hnames : names.Nodup)
    (hclosed : ∀ entry ∈ probeDeps.entries, entry.1 ∈ names → ∀ pred ∈ entry.2, pred ∈ names)
    (hleaves : ∀ name ∈ names, leavesByName.get? name ≠ none)
    (hbudgets : ∀ name ∈ names, ∀ leaves, leavesByName.get? name = some leaves →
      ¬Unbudgeted budgets name leaves) :
    ¬Faulty (named leavesByName names) (subDeps probeDeps names) budgets := by
  rintro (⟨name, hcycle⟩ | ⟨entry, hentry, hfault⟩ | ⟨entry, hentry, hmissing⟩)
  · exact hacyclic ⟨name, hcycle.lift id fun _ _ hab => (edge_of_subDeps hab).1⟩
  · obtain ⟨hentry, hname⟩ := mem_filter.mp hentry
    rw [probeNames_named hnames hleaves] at hfault
    rcases hfault with hnot | ⟨pred, hpred, hnot⟩
    · exact hnot (of_decide_eq_true hname)
    · exact hnot (hclosed entry hentry (of_decide_eq_true hname) pred hpred)
  · obtain ⟨hname, hget⟩ := (mem_named hnames).mp hentry
    exact hbudgets entry.1 hname entry.2 hget hmissing

/-- More budgets. -/
def Extends (budgets budgets' : Budgets R) : Prop :=
  ∀ key budget, budgets key = some budget → budgets' key = some budget

theorem resolvedLeaves_extends (h : Extends budgets budgets') {probes' : Compared R}
    (hget : probes.get? name = probes'.get? name)
    (hbudgets : ∀ leaves, probes.get? name = some leaves → ¬Unbudgeted budgets name leaves) :
    resolvedLeaves floats probes budgets name = resolvedLeaves floats probes' budgets' name := by
  unfold resolvedLeaves
  rw [← hget]
  cases hleaves : probes.get? name with
  | none => rfl
  | some leaves =>
    rw [Option.getD_some]
    refine map_congr_left fun leaf hleaf => ?_
    unfold resolved
    by_cases hneeds : leafNeedsBudget leaf = true
    · cases hbudget : budgets (budgetKey name leaf.path) with
      | none => exact absurd ⟨leaf, hleaf, hneeds, hbudget⟩ (hbudgets leaves hleaves)
      | some budget => rw [h _ _ hbudget]
    · rw [if_neg hneeds, if_neg hneeds]

/-- The report of a probe says the same on any part of the graph that has the probe and its
predecessors with their budgets. -/
theorem reportOf_restriction {probes' : Compared R} {probeDeps' : Deps}
    (hpreds : predecessors probeDeps name = predecessors probeDeps' name)
    (hleaves : ∀ other, other = name ∨ other ∈ predecessors probeDeps name →
      resolvedLeaves floats probes budgets other = resolvedLeaves floats probes' budgets' other) :
    reportOf floats probes probeDeps budgets name =
      reportOf floats probes' probeDeps' budgets' name := by
  have hseverities : (predecessors probeDeps name).map (severityOf floats probes budgets) =
      (predecessors probeDeps name).map (severityOf floats probes' budgets') := by
    refine map_congr_left fun pred hpred => ?_
    unfold severityOf
    rw [hleaves pred (.inr hpred)]
  unfold reportOf
  rw [hseverities, hleaves name (.inl rfl), hpreds]

end

/-! ### What is reported -/

section

variable {R : Type} {floats : Floats R} {ring : String} {leavesByName : Compared R}
variable {probeDeps : Deps} {budgets : Budgets R} {names : List String}

/-- A leaf of the probe has no budget, or one of a probe that it depends on. -/
def Undecided (leavesByName : Compared R) (probeDeps : Deps) (budgets : Budgets R)
    (name : String) : Prop :=
  ∃ root leaves, Relation.ReflTransGen (Edge (predecessors probeDeps)) name root ∧
    leavesByName.get? root = some leaves ∧ Unbudgeted budgets root leaves

theorem mem_iterationOrder_of_edge {a b : String} (h : Edge (predecessors probeDeps) a b) :
    a ∈ probeIterationOrder probeDeps ∧ b ∈ probeIterationOrder probeDeps := by
  obtain ⟨preds, hentry, hb⟩ := mem_entries_of_edge h
  exact ⟨mem_iterationOrder_of_key hentry, mem_iterationOrder_of_pred hentry hb⟩

theorem mem_of_path {a b : String} (h : Relation.ReflTransGen (Edge (predecessors probeDeps)) a b)
    (ha : a ∈ probeIterationOrder probeDeps) : b ∈ probeIterationOrder probeDeps :=
  closed_of_reached (C := (· ∈ probeIterationOrder probeDeps))
    (fun _ _ _ hab => (mem_iterationOrder_of_edge hab).2) ha h

theorem leftOut_iff {name : String} (hname : name ∈ probeIterationOrder probeDeps) :
    LeftOut probeDeps
        (unbudgetedProbes (named leavesByName (probeIterationOrder probeDeps)) budgets) name ↔
      Undecided leavesByName probeDeps budgets name := by
  constructor
  · rintro ⟨root, hroot, hpath⟩
    obtain ⟨leaves, hentry, hmissing⟩ := mem_unbudgetedProbes.mp hroot
    have hget := ((mem_named (probeIterationOrder_nodup probeDeps)).mp hentry).2
    exact ⟨root, leaves, hpath, hget, hmissing⟩
  · rintro ⟨root, leaves, hpath, hget, hmissing⟩
    refine ⟨root, mem_unbudgetedProbes.mpr ⟨leaves, ?_, hmissing⟩, hpath⟩
    exact (mem_named (probeIterationOrder_nodup probeDeps)).mpr ⟨mem_of_path hpath hname, hget⟩

theorem Undecided.head {a b : String} (h : Undecided leavesByName probeDeps budgets b)
    (hab : Edge (predecessors probeDeps) a b) : Undecided leavesByName probeDeps budgets a := by
  obtain ⟨root, leaves, hpath, hmissing⟩ := h
  exact ⟨root, leaves, .head hab hpath, hmissing⟩

theorem subDeps_iterationOrder (probeDeps : Deps) :
    subDeps probeDeps (probeIterationOrder probeDeps) = probeDeps := by
  obtain ⟨entries, hnodup⟩ := probeDeps
  unfold subDeps
  congr 1
  refine filter_eq_self.mpr fun entry hentry => decide_eq_true ?_
  have hkey : entry.1 ∈ probeIterationOrder ⟨entries, hnodup⟩ := mem_iterationOrder_of_key hentry
  exact hkey

theorem classifyProbes_full (depth : Nat) (hacyclic : ¬Cyclic probeDeps)
    (hleaves : ∀ name ∈ probeIterationOrder probeDeps, leavesByName.get? name ≠ none)
    (hbudgets : ∀ name ∈ probeIterationOrder probeDeps, ∀ leaves,
      leavesByName.get? name = some leaves → ¬Unbudgeted budgets name leaves) :
    classifyProbes floats depth (named leavesByName (probeIterationOrder probeDeps)) probeDeps
        budgets = .ok ((probeIterationOrder probeDeps).map (reportOf floats
          (named leavesByName (probeIterationOrder probeDeps)) probeDeps budgets)) ∨
      classifyProbes floats depth (named leavesByName (probeIterationOrder probeDeps)) probeDeps
        budgets = .error .recursionError ∧ TooDeep depth probeDeps := by
  have hnames := probeIterationOrder_nodup probeDeps
  have hright := not_faulty_restriction budgets hacyclic hnames
    (fun entry hentry _ pred hpred => mem_iterationOrder_of_pred hentry hpred) hleaves hbudgets
  rw [subDeps_iterationOrder] at hright
  have hok := ok_or_tooDeep floats depth hright
  rw [probeNames_named hnames hleaves] at hok
  exact hok

theorem map_name_reportOf {probes : Compared R} :
    (names.map (reportOf floats probes probeDeps budgets)).map (·.name) = names := by
  rw [List.map_map]
  exact List.map_id _

theorem mem_classifiable {blocked : List String}
    (hblocked : ∀ name ∈ probeIterationOrder probeDeps,
      name ∈ blocked ↔ Undecided leavesByName probeDeps budgets name)
    (hclassifiable : names = (probeIterationOrder probeDeps).filter fun name => name ∉ blocked)
    (name : String) : name ∈ names ↔ name ∈ probeIterationOrder probeDeps ∧
      ¬Undecided leavesByName probeDeps budgets name := by
  rw [hclassifiable, mem_filter, decide_eq_true_iff]
  exact and_congr_right fun hname => not_congr (hblocked name hname)

theorem classifyRest_ok (floats : Floats R) (depth : Nat) (ring : String)
    (unbudgeted : List String) (hacyclic : ¬Cyclic probeDeps)
    (hleaves : ∀ name ∈ probeIterationOrder probeDeps, leavesByName.get? name ≠ none)
    {blocked : List String}
    (hblocked : ∀ name ∈ probeIterationOrder probeDeps,
      name ∈ blocked ↔ Undecided leavesByName probeDeps budgets name)
    (hclassifiable : names = (probeIterationOrder probeDeps).filter fun name => name ∉ blocked) :
    classifyRest floats depth ring (named leavesByName (probeIterationOrder probeDeps)) probeDeps
        budgets (probeIterationOrder probeDeps) unbudgeted blocked =
      .ok (names.map (reportOf floats
          (named (named leavesByName (probeIterationOrder probeDeps)) names)
          (subDeps probeDeps names) budgets), rungNotes ring unbudgeted blocked) ∨
    classifyRest floats depth ring (named leavesByName (probeIterationOrder probeDeps)) probeDeps
        budgets (probeIterationOrder probeDeps) unbudgeted blocked = .error .recursionError ∧
      TooDeep depth probeDeps := by
  have hnames := probeIterationOrder_nodup probeDeps
  have hmem := mem_classifiable hblocked hclassifiable
  have hget : ∀ name ∈ names, (named leavesByName (probeIterationOrder probeDeps)).get? name =
      leavesByName.get? name := fun name hname => get?_named hnames ((hmem name).mp hname).1
  have hnodup : names.Nodup := hclassifiable ▸ hnames.filter _
  have hsome : ∀ name ∈ names,
      (named leavesByName (probeIterationOrder probeDeps)).get? name ≠ none := by
    intro name hname
    rw [hget name hname]
    exact hleaves name ((hmem name).mp hname).1
  have hright := not_faulty_restriction budgets hacyclic hnodup
    (fun entry hentry hname pred hpred => by
      refine (hmem pred).mpr ⟨mem_iterationOrder_of_pred hentry hpred, fun hundecided => ?_⟩
      have hedge : Edge (predecessors probeDeps) entry.1 pred := by
        rw [Edge, predecessors_of_entry hentry]
        exact hpred
      exact ((hmem entry.1).mp hname).2 (hundecided.head hedge)) hsome
    (fun name hname leaves hfound hmissing => by
      rw [hget name hname] at hfound
      exact ((hmem name).mp hname).2 ⟨name, leaves, .refl, hfound, hmissing⟩)
  have hok := ok_or_tooDeep floats depth hright
  rw [probeNames_named hnodup hsome] at hok
  unfold classifyRest
  simp only [← hclassifiable]
  by_cases hempty : names = []
  · refine .inl ?_
    rw [if_pos hempty, hempty, map_nil]
  · simp only [if_neg hempty]
    rcases hok with hok | ⟨herror, hdeep⟩
    · exact .inl (by rw [hok])
    · exact .inr ⟨by rw [herror], tooDeep_of_subDeps hdeep⟩

theorem reportOf_full {budgets' : Budgets R} (hextends : Extends budgets budgets')
    {blocked : List String}
    (hblocked : ∀ name ∈ probeIterationOrder probeDeps,
      name ∈ blocked ↔ Undecided leavesByName probeDeps budgets name)
    (hclassifiable : names = (probeIterationOrder probeDeps).filter fun name => name ∉ blocked)
    {name : String} (hname : name ∈ names) :
    reportOf floats (named (named leavesByName (probeIterationOrder probeDeps)) names)
        (subDeps probeDeps names) budgets name =
      reportOf floats (named leavesByName (probeIterationOrder probeDeps)) probeDeps budgets'
        name := by
  have hnames := probeIterationOrder_nodup probeDeps
  have hmem := mem_classifiable hblocked hclassifiable
  have hpreds : predecessors (subDeps probeDeps names) name = predecessors probeDeps name :=
    predecessors_subDeps hname
  refine reportOf_restriction hpreds fun other hother => ?_
  have hin : other ∈ names := by
    rcases hother with rfl | hpred
    · exact hname
    · rw [hpreds] at hpred
      have hedge : Edge (predecessors probeDeps) name other := hpred
      exact (hmem other).mpr ⟨(mem_iterationOrder_of_edge hedge).2, fun hundecided =>
        ((hmem name).mp hname).2 (hundecided.head hedge)⟩
  have hget : (named (named leavesByName (probeIterationOrder probeDeps)) names).get? other =
      (named leavesByName (probeIterationOrder probeDeps)).get? other :=
    get?_named (hclassifiable ▸ hnames.filter _) hin
  refine resolvedLeaves_extends hextends hget fun leaves hleaves hmissing => ?_
  rw [hget, get?_named hnames ((hmem other).mp hin).1] at hleaves
  exact ((hmem other).mp hin).2 ⟨other, leaves, .refl, hleaves, hmissing⟩

/-- The reports of a rung are those of a whole graph with the missing budgets filled in. -/
structure Safe (floats : Floats R) (leavesByName : Compared R) (probeDeps : Deps)
    (budgets : Budgets R) (reports : List (ProbeReport R)) : Prop where
  inOrder : (reports.map (·.name)).Sublist (probeIterationOrder probeDeps)
  reported : ∀ name ∈ probeIterationOrder probeDeps,
    name ∈ reports.map (·.name) ↔ ¬Undecided leavesByName probeDeps budgets name
  same : ∀ (depth : Nat) (budgets' : Budgets R), Extends budgets budgets' →
    (∀ name ∈ probeIterationOrder probeDeps, ∀ leaves,
      leavesByName.get? name = some leaves → ¬Unbudgeted budgets' name leaves) →
    (∃ full, classifyProbes floats depth (named leavesByName (probeIterationOrder probeDeps))
        probeDeps budgets' = .ok full ∧ ∀ report ∈ reports, report ∈ full) ∨
      classifyProbes floats depth (named leavesByName (probeIterationOrder probeDeps))
        probeDeps budgets' = .error .recursionError ∧ TooDeep depth probeDeps

theorem safe_of_undecided (hacyclic : ¬Cyclic probeDeps)
    (hleaves : ∀ name ∈ probeIterationOrder probeDeps, leavesByName.get? name ≠ none)
    {blocked : List String}
    (hblocked : ∀ name ∈ probeIterationOrder probeDeps,
      name ∈ blocked ↔ Undecided leavesByName probeDeps budgets name)
    (hclassifiable : names = (probeIterationOrder probeDeps).filter fun name => name ∉ blocked) :
    Safe floats leavesByName probeDeps budgets (names.map (reportOf floats
      (named (named leavesByName (probeIterationOrder probeDeps)) names)
      (subDeps probeDeps names) budgets)) where
  inOrder := by
    rw [map_name_reportOf, hclassifiable]
    exact List.filter_sublist
  reported name hname := by
    rw [map_name_reportOf, mem_classifiable hblocked hclassifiable]
    exact and_iff_right hname
  same depth budgets' hextends hfilled := by
    refine (classifyProbes_full depth hacyclic hleaves hfilled).imp_left fun hok => ?_
    refine ⟨_, hok, fun report hreport => ?_⟩
    obtain ⟨name, hname, rfl⟩ := List.mem_map.mp hreport
    rw [reportOf_full hextends hblocked hclassifiable hname]
    exact List.mem_map_of_mem ((mem_classifiable hblocked hclassifiable name).mp hname).1

/-- **Partial classification is safe.**  An acyclic graph of probes that all have leaves is
classified but for the undecided probes, and each report is the one that the whole graph gives
with the missing budgets filled in, whatever they are.  If a probe has no leaves, nothing is
reported.  Only a chain of probes that is too long for the interpreter makes it raise. -/
theorem rung_probes_safe (floats : Floats R) (depth : Nat) (ring : String)
    (leavesByName : Compared R) (probeDeps : Deps) (budgets : Option (Budgets R))
    (hacyclic : ¬Cyclic probeDeps) :
    (∃ reports notes, classifyRungProbes floats depth ring leavesByName (some probeDeps) budgets =
        .ok (reports, notes) ∧
      ((∃ name ∈ probeIterationOrder probeDeps, leavesByName.get? name = none) → reports = []) ∧
      ((∀ name ∈ probeIterationOrder probeDeps, leavesByName.get? name ≠ none) →
        Safe floats leavesByName probeDeps (budgets.getD fun _ => none) reports)) ∨
    classifyRungProbes floats depth ring leavesByName (some probeDeps) budgets =
        .error .recursionError ∧ TooDeep depth probeDeps := by
  by_cases hmissing : ∃ name ∈ probeIterationOrder probeDeps, leavesByName.get? name = none
  · have hne : (probeIterationOrder probeDeps).filter
        (fun name => (leavesByName.get? name).isNone) ≠ [] := by
      obtain ⟨name, hname, hnone⟩ := hmissing
      refine List.ne_nil_of_mem (a := name) (List.mem_filter.mpr ⟨hname, ?_⟩)
      rw [hnone, Option.isNone_none]
    refine .inl ⟨[], [.absent ring _], if_pos hne, fun _ => rfl, fun hleaves => ?_⟩
    obtain ⟨name, hname, hnone⟩ := hmissing
    exact absurd hnone (hleaves name hname)
  · have hleaves : ∀ name ∈ probeIterationOrder probeDeps, leavesByName.get? name ≠ none :=
      fun name hname hnone => hmissing ⟨name, hname, hnone⟩
    have hnone : (probeIterationOrder probeDeps).filter
        (fun name => (leavesByName.get? name).isNone) = [] := by
      refine List.filter_eq_nil_iff.mpr fun name hname => ?_
      rw [Option.isNone_iff_eq_none]
      exact hleaves name hname
    obtain ⟨s, hs, hblocked⟩ := blockedNames_spec
      (unbudgetedProbes (named leavesByName (probeIterationOrder probeDeps))
        (budgets.getD fun _ => none)) (probeIterationOrder_nodup probeDeps)
      fun _ _ hab => (mem_iterationOrder_of_edge hab).1
    have hundecided : ∀ name ∈ probeIterationOrder probeDeps, name ∈ s.1 ↔
        Undecided leavesByName probeDeps (budgets.getD fun _ => none) name :=
      fun name hname => (hblocked name).trans (leftOut_iff hname)
    have hstart : classifyRungProbes floats depth ring leavesByName (some probeDeps) budgets =
        classifyRest floats depth ring (named leavesByName (probeIterationOrder probeDeps))
          probeDeps (budgets.getD fun _ => none) (probeIterationOrder probeDeps) (unbudgetedProbes
            (named leavesByName (probeIterationOrder probeDeps)) (budgets.getD fun _ => none))
          s.1 := by
      unfold classifyRungProbes
      simp only [hnone, ne_eq, not_true_eq_false, if_false, hs]
    rw [hstart]
    refine (classifyRest_ok floats depth ring _ hacyclic hleaves hundecided rfl).imp_left
      fun hrest => ?_
    exact ⟨_, _, hrest, fun h => absurd h hmissing,
      fun _ => safe_of_undecided hacyclic hleaves hundecided rfl⟩

end

/-! ### Two chains of probes -/

/-- `b` depends on `a`, and `d` on `c`. -/
def twoChains : Deps where
  entries := [("b", ["a"]), ("d", ["c"])]
  nodup := by decide

theorem twoChains_acyclic : ¬Cyclic twoChains := by
  have horder : probeOrder 2 ["a", "b", "c", "d"] twoChains = .ok ["a", "b", "c", "d"] := by decide
  rcases probeOrder_spec 2 ["a", "b", "c", "d"] twoChains with
    ⟨-, -, -, -, -, hacyclic⟩ | ⟨e, he, -⟩
  · exact hacyclic
  · exact nomatch horder.symm.trans he

/-- A float leaf that is some units off. -/
def diverged (ulps : Nat) : LeafDivergence Nat where
  path := ""
  dtypeClass := .float
  severity := .beyondBudget
  metrics := [("max_ulp_diff", ulps)]

def chainLeaves : Compared Nat where
  entries := [("a", [diverged 4]), ("b", [agreeing]), ("c", [diverged 7]), ("d", [diverged 9])]
  nodup := by decide

/-- The budgets of `c` and `d`; there is none for `a`. -/
def someBudgets (key : String) : Option Nat :=
  if key = "c" then some 2 else if key = "d" then some 16 else none

/-- Only the probes that do not depend on `a` are reported, and as they are when `a` has a
budget. -/
theorem twoChains_classified : ∃ reports notes,
    classifyRungProbes naturals 2 "R1" chainLeaves (some twoChains) (some someBudgets) =
        .ok (reports, notes) ∧ reports.map (·.name) = ["d", "c"] ∧
      Safe naturals chainLeaves twoChains someBudgets reports ∧
      ∃ full, classifyProbes naturals 2 (named chainLeaves (probeIterationOrder twoChains))
        twoChains (fun key => some ((someBudgets key).getD 5)) = .ok full ∧
        ∀ report ∈ reports, report ∈ full := by
  have hnames : (classifyRungProbes naturals 2 "R1" chainLeaves (some twoChains)
      (some someBudgets)).map (fun r => r.1.map (·.name)) = .ok ["d", "c"] := by decide
  rcases rung_probes_safe naturals 2 "R1" chainLeaves twoChains (some someBudgets)
    twoChains_acyclic with ⟨reports, notes, hok, -, hsafe⟩ | ⟨herror, -⟩
  · rw [hok] at hnames
    have hsafe : Safe naturals chainLeaves twoChains someBudgets reports := hsafe (by decide)
    refine ⟨reports, notes, hok, Except.ok.inj hnames, hsafe, ?_⟩
    refine (hsafe.same 2 _ (fun key budget h => ?_) ?_).resolve_right fun h => ?_
    · rw [h, Option.getD_some]
    · rintro name - leaves - ⟨leaf, -, -, hnone⟩
      cases hnone
    · exact absurd h.1 (by decide)
  · rw [herror] at hnames
    cases hnames

/-- Only `b` was compared. -/
def onlyB : Compared Nat where
  entries := [("b", [agreeing])]
  nodup := by decide

/-- A probe is left out although no budget is missing, when another one has no leaves; and a chain
that is too long for the interpreter makes the classification raise. -/
theorem left_out_without_missing_budget :
    ¬Cyclic twoChains ∧ "b" ∈ probeIterationOrder twoChains ∧
      ¬Undecided onlyB twoChains (fun _ => none) "b" ∧
      classifyRungProbes naturals 2 "R1" onlyB (some twoChains) none =
        .ok ([], [.absent "R1" ["d", "a", "c"]]) ∧
      classifyRungProbes naturals 1 "R1" chainLeaves (some twoChains) (some someBudgets) =
        .error .recursionError := by
  refine ⟨twoChains_acyclic, by decide, ?_, by decide, by decide⟩
  rintro ⟨root, leaves, -, hget, leaf, hleaf, hneeds, -⟩
  have hentry := List.mem_singleton.mp (Dict.get?_eq_some_iff.mp hget)
  obtain ⟨-, rfl⟩ := Prod.mk.inj hentry
  obtain rfl := List.mem_singleton.mp hleaf
  exact absurd hneeds (by decide)

end Xtrax.Probes
