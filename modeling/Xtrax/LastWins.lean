import Mathlib.Data.List.Basic
import Mathlib.Data.List.Induction
import Mathlib.Logic.Function.Basic
import Mathlib.Tactic.Common

/-! # Keyed logs in which the last entry wins

A log is a list, oldest entry first, and every entry has a key.  `lastFor k l` is
the entry that speaks for the key `k`: the last one with that key.  `keepLast`
shortens a log to those entries, one for each key, in the order in which the keys
were first seen.

A coarser key need not survive: the last entry of a whole group of keys is kept, but
the group's keys now stand in first-seen order, so it is still the last of its group
exactly when its key was the last of them to appear (`lastFor_group_keepLast_iff`).
-/
namespace LastWins

open List

variable {α κ γ : Type*} [DecidableEq κ] [DecidableEq γ] (key : α → κ)

/-! ## The entry that speaks for a key -/

/-- The last entry with key `k`. -/
def lastFor (k : κ) (l : List α) : Option α := (l.filter fun a => key a = k).getLast?

@[simp] theorem lastFor_nil (k : κ) : lastFor key k [] = none := rfl

theorem lastFor_append (k : κ) (l₁ l₂ : List α) :
    lastFor key k (l₁ ++ l₂) = (lastFor key k l₂).or (lastFor key k l₁) := by
  simp only [lastFor, filter_append, getLast?_append]

theorem lastFor_concat (k : κ) (l : List α) (a : α) :
    lastFor key k (l ++ [a]) = if key a = k then some a else lastFor key k l := by
  rw [lastFor_append]
  by_cases h : key a = k
  · simp [lastFor, h]
  · simp [lastFor, h]

variable {key}

theorem mem_of_lastFor {k : κ} {l : List α} {a : α} (h : lastFor key k l = some a) : a ∈ l :=
  (mem_filter.mp (mem_of_getLast? h)).1

theorem key_of_lastFor {k : κ} {l : List α} {a : α} (h : lastFor key k l = some a) : key a = k := by
  simpa using (mem_filter.mp (mem_of_getLast? h)).2

theorem lastFor_eq_none_iff {k : κ} {l : List α} : lastFor key k l = none ↔ ∀ a ∈ l, key a ≠ k := by
  simp [lastFor]

theorem exists_lastFor {l : List α} {a : α} (h : a ∈ l) : ∃ b, lastFor key (key a) l = some b := by
  cases hl : lastFor key (key a) l with
  | none => exact absurd rfl (lastFor_eq_none_iff.mp hl a h)
  | some b => exact ⟨b, rfl⟩

theorem lastFor_append_cons {l₁ l₂ : List α} {a : α} (h : ∀ b ∈ l₂, key b = key a → b = a) :
    lastFor key (key a) (l₁ ++ a :: l₂) = some a := by
  rw [← singleton_append, ← append_assoc, lastFor_append, lastFor_concat, if_pos rfl]
  cases hl : lastFor key (key a) l₂ with
  | none => rfl
  | some b => rw [h b (mem_of_lastFor hl) (key_of_lastFor hl), Option.some_or]

/-- A key whose last entry the short form keeps is spoken for as before, wherever the short form
is put back into a suffix. -/
theorem lastFor_insert_short {k : κ} {l short front back : List α}
    (hsuffix : front ++ back <:+ l) (hshort : lastFor key k short = lastFor key k l) :
    lastFor key k (front ++ short ++ back) = lastFor key k l := by
  obtain ⟨gone, rfl⟩ := hsuffix
  simp only [lastFor_append] at hshort ⊢
  cases hback : lastFor key k back with
  | some b => rfl
  | none =>
    rw [hshort, hback]
    cases hfront : lastFor key k front with
    | some a => rfl
    | none => cases lastFor key k gone <;> rfl

variable (key)

/-! ## Keys in first-seen order -/

/-- The keys of `ks`, each once, in the order of their first occurrence. -/
def firstSeen (ks : List κ) : List κ :=
  ks.foldl (fun seen k => if k ∈ seen then seen else seen ++ [k]) []

@[simp] theorem firstSeen_nil : firstSeen ([] : List κ) = [] := rfl

theorem firstSeen_concat (ks : List κ) (k : κ) :
    firstSeen (ks ++ [k]) = if k ∈ firstSeen ks then firstSeen ks else firstSeen ks ++ [k] := by
  rw [firstSeen, foldl_append]
  rfl

theorem mem_firstSeen {ks : List κ} {k : κ} : k ∈ firstSeen ks ↔ k ∈ ks := by
  induction ks using reverseRecOn with
  | nil => simp
  | append_singleton ks k' ih =>
    rw [firstSeen_concat]
    by_cases h : k' ∈ firstSeen ks
    · rw [if_pos h, ih, mem_append, mem_singleton]
      exact ⟨.inl, fun hk => hk.elim id fun hk => hk ▸ ih.mp (hk ▸ h)⟩
    · rw [if_neg h, mem_append, mem_append, ih]

theorem filter_firstSeen (p : κ → Bool) (ks : List κ) :
    (firstSeen ks).filter p = firstSeen (ks.filter p) := by
  induction ks using reverseRecOn with
  | nil => rfl
  | append_singleton ks k ih =>
    have hmem : k ∈ firstSeen (ks.filter p) ↔ k ∈ firstSeen ks ∧ p k = true := by
      simp [mem_firstSeen]
    rw [firstSeen_concat, filter_append]
    by_cases hp : p k = true
    · rw [filter_cons_of_pos hp, filter_nil, firstSeen_concat, ← ih]
      by_cases h : k ∈ firstSeen ks
      · rw [if_pos h, if_pos (mem_filter.mpr ⟨h, hp⟩)]
      · rw [if_neg h, if_neg fun hk => h (mem_filter.mp hk).1, filter_append,
          filter_cons_of_pos hp, filter_nil]
    · rw [filter_cons_of_neg hp, filter_nil, append_nil, ← ih]
      by_cases h : k ∈ firstSeen ks
      · rw [if_pos h]
      · rw [if_neg h, filter_append, filter_cons_of_neg hp, filter_nil, append_nil]

theorem firstSeen_map {f : γ → κ} (hf : Function.Injective f) (ks : List γ) :
    firstSeen (ks.map f) = (firstSeen ks).map f := by
  induction ks using reverseRecOn with
  | nil => rfl
  | append_singleton ks k ih =>
    have hmem : f k ∈ (firstSeen ks).map f ↔ k ∈ firstSeen ks := mem_map_of_injective hf
    rw [map_append, map_singleton, firstSeen_concat, firstSeen_concat, ih]
    by_cases h : k ∈ firstSeen ks
    · rw [if_pos h, if_pos (hmem.mpr h)]
    · rw [if_neg h, if_neg (hmem.not.mpr h), map_append, map_singleton]

/-! ## Keeping the last entry of every key -/

/-- The keys seen so far, in order, and the entry that speaks for each. -/
structure Table (α κ : Type*) where
  order : List κ
  latest : κ → Option α

/-- One more entry: a key not seen yet goes last, and the entry replaces the one
that spoke for its key. -/
def Table.insert (t : Table α κ) (a : α) : Table α κ where
  order := if (t.latest (key a)).isSome then t.order else t.order ++ [key a]
  latest := Function.update t.latest (key a) (some a)

/-- The table of a log. -/
def table (l : List α) : Table α κ := l.foldl (Table.insert key) ⟨[], fun _ => none⟩

/-- **Keep the last entry of every key**, in first-seen order. -/
def keepLast (l : List α) : List α := (table key l).order.filterMap (table key l).latest

theorem table_concat (l : List α) (a : α) : table key (l ++ [a]) = (table key l).insert key a := by
  simp [table, foldl_append]

theorem table_latest (l : List α) (k : κ) : (table key l).latest k = lastFor key k l := by
  induction l using reverseRecOn with
  | nil => rfl
  | append_singleton l a ih =>
    rw [table_concat, lastFor_concat]
    change Function.update (table key l).latest (key a) (some a) k = _
    by_cases h : key a = k
    · subst h
      simp
    · rw [if_neg h, Function.update_of_ne (Ne.symm h), ih]

theorem table_order (l : List α) : (table key l).order = firstSeen (l.map key) := by
  induction l using reverseRecOn with
  | nil => rfl
  | append_singleton l a ih =>
    have hseen : ((table key l).latest (key a)).isSome ↔ key a ∈ firstSeen (l.map key) := by
      rw [table_latest, mem_firstSeen, ← Option.ne_none_iff_isSome, Ne, lastFor_eq_none_iff]
      simp
    rw [table_concat, map_append, map_singleton, firstSeen_concat, Table.insert, ih]
    by_cases h : key a ∈ firstSeen (l.map key)
    · rw [if_pos h, if_pos (hseen.mpr h)]
    · rw [if_neg h, if_neg (hseen.not.mpr h)]

theorem keepLast_eq (l : List α) :
    keepLast key l = (firstSeen (l.map key)).filterMap fun k => lastFor key k l := by
  rw [keepLast, table_order]
  congr 1
  funext k
  exact table_latest key l k

variable {key}

theorem mem_keepLast {l : List α} {a : α} :
    a ∈ keepLast key l ↔ lastFor key (key a) l = some a := by
  rw [keepLast_eq, mem_filterMap]
  constructor
  · rintro ⟨k, _, hk⟩
    rw [key_of_lastFor hk]
    exact hk
  · intro h
    exact ⟨key a, mem_firstSeen.mpr (mem_map_of_mem (mem_of_lastFor h)), h⟩

/-- The kept entries of a group of keys are the entries that speak for the group's
keys, in first-seen order. -/
theorem filter_keepLast (group : κ → γ) (g : γ) (l : List α) :
    (keepLast key l).filter (fun a => group (key a) = g) =
      (firstSeen ((l.filter fun a => group (key a) = g).map key)).filterMap
        fun k => lastFor key k l := by
  have hkeys : (l.filter fun a => group (key a) = g).map key =
      (l.map key).filter fun k => group k = g := by
    rw [List.filter_map]
    rfl
  rw [keepLast_eq, hkeys, ← filter_firstSeen, List.filter_filterMap, List.filterMap_filter]
  congr 1
  funext k
  cases hk : lastFor key k l with
  | none => simp
  | some a =>
    rw [← key_of_lastFor hk]
    simp [Option.filter]

/-- The last entry of a group after `keepLast`: the one that speaks for the key
that appeared last. -/
theorem lastFor_group_keepLast (group : κ → γ) (g : γ) (l : List α) :
    lastFor (fun a => group (key a)) g (keepLast key l) =
      (firstSeen ((l.filter fun a => group (key a) = g).map key)).getLast?.bind
        fun k => lastFor key k l := by
  rw [lastFor, filter_keepLast]
  have hsome : ∀ k ∈ firstSeen ((l.filter fun a => group (key a) = g).map key),
      ∃ a, lastFor key k l = some a := by
    intro k hk
    obtain ⟨a, ha, rfl⟩ := mem_map.mp (mem_firstSeen.mp hk)
    exact exists_lastFor (mem_filter.mp ha).1
  generalize firstSeen ((l.filter fun a => group (key a) = g).map key) = ks at hsome
  cases ks using reverseRecOn with
  | nil => rfl
  | append_singleton ks k =>
    obtain ⟨a, ha⟩ := hsome k (by simp)
    simp [filterMap_append, ha]

variable (key) in
/-- **When a coarser key survives**: the last entry of the group `g` is the same after `keepLast`
if and only if its key was the last of the group to appear. -/
theorem lastFor_group_keepLast_iff (group : κ → γ) (g : γ) (l : List α) :
    lastFor (fun a => group (key a)) g (keepLast key l) = lastFor (fun a => group (key a)) g l ↔
      (firstSeen ((l.filter fun a => group (key a) = g).map key)).getLast? =
        ((l.filter fun a => group (key a) = g).map key).getLast? := by
  rw [lastFor_group_keepLast]
  cases hlast : lastFor (fun a => group (key a)) g l with
  | none =>
    have hnil : (l.filter fun a => group (key a) = g) = [] := List.getLast?_eq_none_iff.mp hlast
    simp [hnil]
  | some a =>
    have hkey : ((l.filter fun a => group (key a) = g).map key).getLast? = some (key a) := by
      rw [List.getLast?_map]
      exact congrArg (Option.map key) hlast
    -- the last entry of the group is the last entry of its own key
    have ha : lastFor key (key a) l = some a := by
      have hg := key_of_lastFor hlast
      have hsub : (l.filter fun b => key b = key a) =
          (l.filter fun b => group (key b) = g).filter fun b => key b = key a := by
        rw [List.filter_filter]
        refine List.filter_congr fun b _ => ?_
        by_cases hb : key b = key a
        · simp [hb, hg]
        · simp [hb]
      obtain ⟨front, hfront⟩ := List.getLast?_eq_some_iff.mp hlast
      rw [lastFor, hsub, hfront, List.filter_append]
      simp
    rw [hkey]
    constructor
    · intro h
      obtain ⟨k, hk, hkl⟩ := Option.bind_eq_some_iff.mp h
      rw [hk, key_of_lastFor hkl]
    · intro h
      rw [h, Option.bind_some, ha]

end LastWins
