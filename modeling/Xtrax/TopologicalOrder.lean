import Mathlib.Data.List.Induction
import Mathlib.Data.List.Nodup
import Mathlib.Logic.Relation

/-!
# Topological orders by depth-first search

Names are visited one after the other; a visit puts what a name depends on before the name.  A
visit that comes back to a name it is still at has found a cycle, and visits nest no deeper than a
bound.  The search either lists all names, each after what it depends on (`Sorted`), or there is a
cycle or a chain of names longer than the bound (`Deep`).
-/

namespace TopologicalOrder

open List Relation

variable {κ : Type*} [DecidableEq κ] (preds : κ → List κ)

inductive Fault (κ : Type*)
  | cycle (name : κ)
  | depth

/-- One visit: `path` are the names it is at, `order` those that are done.  The first argument
is how deep visits may still nest. -/
def visit : Nat → List κ → List κ → κ → Except (Fault κ) (List κ)
  | 0, _, _, _ => .error .depth
  | n + 1, path, order, name =>
    if name ∈ order then .ok order
    else if name ∈ path then .error (.cycle name)
    else ((preds name).foldlM (visit n (name :: path)) order).map (· ++ [name])

/-- All names, one after the other. -/
def topologicalOrder (depth : Nat) (names : List κ) : Except (Fault κ) (List κ) :=
  names.foldlM (visit preds depth []) []

/-- The second name is one that the first depends on. -/
def Edge (a b : κ) : Prop := b ∈ preds a

/-- There is a chain of more than `depth` names, each once and before one that depends on it. -/
def Deep (depth : Nat) : Prop :=
  ∃ chain : List κ, chain.Nodup ∧ chain.IsChain (fun b a => Edge preds a b) ∧ depth < chain.length

/-- Each name once, after all it depends on. -/
structure Sorted (order : List κ) : Prop where
  nodup : order.Nodup
  closed : ∀ before a after, order = before ++ a :: after → ∀ b ∈ preds a, b ∈ before

variable {preds} {names path order order' : List κ} {name a b : κ} {n depth : Nat}

omit [DecidableEq κ] in
theorem Deep.mono {preds' : κ → List κ} (h : Deep preds depth)
    (hedge : ∀ a b, Edge preds a b → Edge preds' a b) : Deep preds' depth := by
  obtain ⟨chain, hnodup, hchain, hlong⟩ := h
  exact ⟨chain, hnodup, hchain.imp fun b a => hedge a b, hlong⟩

omit [DecidableEq κ] in
/-- **The induction rule**: what holds of a name when it does of all it depends on, holds of all
names that are sorted. -/
theorem Sorted.induction (h : Sorted preds order) {P : κ → Prop}
    (hstep : ∀ a ∈ order, (∀ b ∈ preds a, P b) → P a) : ∀ a ∈ order, P a := by
  suffices ∀ before after, order = before ++ after → ∀ a ∈ before, P a from
    this order [] (append_nil order).symm
  intro before
  induction before using reverseRecOn with
  | nil => exact fun _ _ _ ha => absurd ha not_mem_nil
  | append_singleton before c ih =>
    intro after heq a ha
    rw [append_assoc, singleton_append] at heq
    have hbefore := ih (c :: after) heq
    rcases mem_append.mp ha with ha | ha
    · exact hbefore a ha
    · obtain rfl := mem_singleton.mp ha
      refine hstep a ?_ fun b hb => hbefore b (h.closed before a after heq b hb)
      rw [heq]
      exact mem_append_right _ (mem_cons_self ..)

omit [DecidableEq κ] in
theorem Sorted.before (h : Sorted preds order) (hab : TransGen (Edge preds) a b)
    {before after : List κ} (heq : order = before ++ a :: after) : b ∈ before := by
  induction hab with
  | single hb => exact h.closed before a after heq _ hb
  | @tail b c _ hc ih =>
    obtain ⟨first, rest, rfl⟩ := append_of_mem ih
    rw [append_assoc, cons_append] at heq
    exact mem_append_left _ (h.closed first b _ heq c hc)

omit [DecidableEq κ] in
theorem Sorted.acyclic (h : Sorted preds order) (ha : a ∈ order) : ¬TransGen (Edge preds) a a := by
  intro hcycle
  obtain ⟨before, after, heq⟩ := append_of_mem ha
  have hin := h.before hcycle heq
  have hnodup := h.nodup
  rw [heq, nodup_append'] at hnodup
  exact hnodup.2.2 hin (mem_cons_self ..)

omit [DecidableEq κ] in
theorem Sorted.snoc (h : Sorted preds order) (hname : name ∉ order)
    (hpreds : ∀ b ∈ preds name, b ∈ order) : Sorted preds (order ++ [name]) where
  nodup := by
    refine nodup_append'.mpr ⟨h.nodup, nodup_singleton _, ?_⟩
    exact disjoint_singleton.mpr hname
  closed before a after heq b hb := by
    rcases eq_nil_or_concat after with rfl | ⟨rest, last, rfl⟩
    · obtain ⟨rfl, hlast⟩ := append_inj' heq rfl
      obtain rfl := singleton_inj.mp hlast
      exact hpreds b hb
    · have heq' : order ++ [name] = (before ++ a :: rest) ++ [last] := by simpa using heq
      obtain ⟨hrest, -⟩ := append_inj' heq' rfl
      exact h.closed before a rest hrest b hb

/-- What is done stays done in its order, what is done now was to be sorted, and nothing that the
search is at is. -/
structure Extends (preds : κ → List κ) (names path order order' : List κ) : Prop where
  sorted : Sorted preds order'
  done : ∀ a ∈ order, a ∈ order'
  known : ∀ a ∈ order', a ∈ names
  waiting : ∀ a ∈ path, a ∉ order'

omit [DecidableEq κ] in
theorem Extends.trans {order'' : List κ} (h : Extends preds names path order order')
    (h' : Extends preds names path order' order'') : Extends preds names path order order'' :=
  ⟨h'.sorted, fun a ha => h'.done a (h.done a ha), h'.known, h'.waiting⟩

/-- What may have stopped the search. -/
def Fault.Justified (preds : κ → List κ) (depth : Nat) : Fault κ → Prop
  | .cycle a => TransGen (Edge preds) a a
  | .depth => Deep preds depth ∨ ∃ a, TransGen (Edge preds) a a

/-- The search goes well, or was stopped. -/
def Outcome (preds : κ → List κ) (depth : Nat) (names path order : List κ) (wanted : κ → Prop) :
    Except (Fault κ) (List κ) → Prop
  | .ok order' => Extends preds names path order order' ∧ ∀ a, wanted a → a ∈ order'
  | .error e => e.Justified preds depth

omit [DecidableEq κ] in
theorem outcome_foldlM {step : List κ → κ → Except (Fault κ) (List κ)} {todo : List κ}
    (hstep : ∀ order, Extends preds names path order order → ∀ a ∈ todo,
      Outcome preds depth names path order (· = a) (step order a))
    (h : Extends preds names path order order) :
    Outcome preds depth names path order (· ∈ todo) (todo.foldlM step order) := by
  induction todo generalizing order with
  | nil => exact ⟨h, fun a ha => absurd ha not_mem_nil⟩
  | cons c rest ih =>
    have hfirst := hstep order h c (mem_cons_self ..)
    rw [foldlM_cons]
    cases hc : step order c with
    | error e =>
      rw [hc] at hfirst
      exact hfirst
    | ok order' =>
      rw [hc] at hfirst
      obtain ⟨hext, hin⟩ := hfirst
      have hself : Extends preds names path order' order' :=
        ⟨hext.sorted, fun _ ha => ha, hext.known, hext.waiting⟩
      have hrest := ih (fun order h a ha => hstep order h a (mem_cons_of_mem _ ha)) hself
      change Outcome preds depth names path order (· ∈ c :: rest) (rest.foldlM step order')
      cases hr : rest.foldlM step order' with
      | error e =>
        rw [hr] at hrest
        exact hrest
      | ok order'' =>
        rw [hr] at hrest
        refine ⟨hext.trans hrest.1, fun a ha => ?_⟩
        rcases mem_cons.mp ha with rfl | ha
        · exact hrest.1.done a (hin a rfl)
        · exact hrest.2 a ha

/-- **The visit lemma.**  The induction is on the depth that is left: the names a visit is at are
without repetition, each before one that depends on it, and lead to the one that is visited. -/
theorem outcome_visit (hclosed : ∀ a ∈ names, ∀ b ∈ preds a, b ∈ names)
    (hn : depth = n + path.length) (hnodup : path.Nodup)
    (hchain : (name :: path).IsChain (fun b a => Edge preds a b)) (hname : name ∈ names)
    (hleads : ∀ a ∈ path, TransGen (Edge preds) a name)
    (h : Extends preds names path order order) :
    Outcome preds depth names path order (· = name) (visit preds n path order name) := by
  induction n generalizing path order name with
  | zero =>
    by_cases hat : name ∈ path
    · exact .inr ⟨name, hleads name hat⟩
    · refine .inl ⟨name :: path, nodup_cons.mpr ⟨hat, hnodup⟩, hchain, ?_⟩
      rw [length_cons]
      omega
  | succ n ih =>
    rw [visit]
    by_cases hdone : name ∈ order
    · rw [if_pos hdone]
      exact ⟨h, fun a ha => ha ▸ hdone⟩
    · rw [if_neg hdone]
      by_cases hat : name ∈ path
      · rw [if_pos hat]
        exact hleads name hat
      · rw [if_neg hat]
        have hnodup' : (name :: path).Nodup := nodup_cons.mpr ⟨hat, hnodup⟩
        have hext' : ∀ order, Extends preds names (name :: path) order order →
            ∀ b ∈ preds name, Outcome preds depth names (name :: path) order (· = b)
              (visit preds n (name :: path) order b) := by
          intro order hext b hb
          refine ih (by rw [length_cons]; omega) hnodup' (isChain_cons_cons.mpr ⟨hb, hchain⟩)
            (hclosed name hname b hb) (fun a ha => ?_) hext
          rcases mem_cons.mp ha with rfl | ha
          · exact .single hb
          · exact (hleads a ha).tail hb
        have hstart : Extends preds names (name :: path) order order :=
          ⟨h.sorted, fun _ ha => ha, h.known, forall_mem_cons.mpr ⟨hdone, h.waiting⟩⟩
        have hpreds := outcome_foldlM hext' hstart
        cases hfold : (preds name).foldlM (visit preds n (name :: path)) order with
        | error e =>
          rw [hfold] at hpreds
          exact hpreds
        | ok order' =>
          rw [hfold] at hpreds
          obtain ⟨hext, hin⟩ := hpreds
          have hnew : name ∉ order' := hext.waiting name (mem_cons_self ..)
          refine ⟨⟨hext.sorted.snoc hnew hin, fun a ha => ?_, fun a ha => ?_, fun a ha hmem => ?_⟩,
            fun a ha => ?_⟩
          · exact mem_append_left _ (hext.done a ha)
          · rcases mem_append.mp ha with ha | ha
            · exact hext.known a ha
            · exact mem_singleton.mp ha ▸ hname
          · rcases mem_append.mp hmem with hmem | hmem
            · exact hext.waiting a (mem_cons_of_mem _ ha) hmem
            · exact hat (mem_singleton.mp hmem ▸ ha)
          · exact mem_append_right _ (mem_singleton.mpr ha)

/-- **All names are sorted, or there is a cycle or a chain that is too long.** -/
theorem topologicalOrder_spec (depth : Nat) (hclosed : ∀ a ∈ names, ∀ b ∈ preds a, b ∈ names) :
    (∃ order, topologicalOrder preds depth names = .ok order ∧ Sorted preds order ∧
      ∀ a, a ∈ order ↔ a ∈ names) ∨
    ∃ e, topologicalOrder preds depth names = .error e ∧ e.Justified preds depth := by
  have hsorted : Sorted preds ([] : List κ) :=
    ⟨nodup_nil, fun before a after heq => absurd heq (by simp)⟩
  have hstart : Extends preds names [] [] [] :=
    ⟨hsorted, fun _ ha => ha, fun _ ha => absurd ha not_mem_nil, fun _ _ => not_mem_nil⟩
  have hall : Outcome preds depth names [] [] (· ∈ names) (topologicalOrder preds depth names) := by
    refine outcome_foldlM (fun order hext a ha => ?_) hstart
    exact outcome_visit hclosed rfl nodup_nil (.singleton a) ha
      (fun _ h => absurd h not_mem_nil) hext
  cases hresult : topologicalOrder preds depth names with
  | error e =>
    rw [hresult] at hall
    exact .inr ⟨e, rfl, hall⟩
  | ok order =>
    rw [hresult] at hall
    exact .inl ⟨order, rfl, hall.1.sorted, fun a => ⟨hall.1.known a, hall.2 a⟩⟩

end TopologicalOrder
