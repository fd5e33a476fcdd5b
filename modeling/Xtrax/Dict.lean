import Mathlib

/-! # Dictionaries in insertion order

A `Dict` lists its entries in the order in which their keys came, each key once.  Setting a
key that is there replaces its value where it stands, setting a new one puts it at the end,
and a key that was erased comes back at the end: the order a loop over the entries sees is
part of the value.
-/

/-- Entries in insertion order, each key once. -/
structure Dict (κ ν : Type*) where
  entries : List (κ × ν)
  nodup : (entries.map (·.1)).Nodup

namespace Dict

open List Option

variable {κ ν : Type*} {l : List (κ × ν)} {e : κ × ν}

instance : EmptyCollection (Dict κ ν) := ⟨⟨[], List.nodup_nil⟩⟩

@[simp] theorem entries_empty : (∅ : Dict κ ν).entries = [] := rfl

variable [DecidableEq κ]

/-! ## Lists of entries -/

/-- `d[k] = v`. -/
def setEntry (k : κ) (v : ν) : List (κ × ν) → List (κ × ν)
  | [] => [(k, v)]
  | e :: rest => if e.1 = k then (k, v) :: rest else e :: setEntry k v rest

theorem keys_setEntry (k : κ) (v : ν) (l : List (κ × ν)) :
    (setEntry k v l).map (·.1) = if k ∈ l.map (·.1) then l.map (·.1) else l.map (·.1) ++ [k] := by
  induction l with
  | nil => rfl
  | cons e rest ih =>
    rw [setEntry]
    by_cases he : e.1 = k
    · simp [he]
    · rw [if_neg he, map_cons, ih, map_cons]
      by_cases hk : k ∈ rest.map (·.1)
      · rw [if_pos hk, if_pos (mem_cons_of_mem _ hk)]
      · have hne : k ∉ e.1 :: rest.map (·.1) := by
          intro h
          rcases mem_cons.mp h with h | h
          · exact he h.symm
          · exact hk h
        rw [if_neg hk, if_neg hne, cons_append]

theorem mem_setEntry {k : κ} {v : ν} (hl : (l.map (·.1)).Nodup) :
    e ∈ setEntry k v l ↔ e = (k, v) ∨ e ∈ l ∧ e.1 ≠ k := by
  induction l with
  | nil => simp [setEntry]
  | cons e' rest ih =>
    obtain ⟨hnot, hrest⟩ := nodup_cons.mp hl
    rw [setEntry]
    by_cases he : e'.1 = k
    · rw [if_pos he, mem_cons, mem_cons]
      constructor
      · rintro (rfl | hmem)
        · exact .inl rfl
        · -- the key stands nowhere else
          refine .inr ⟨.inr hmem, fun hk => hnot ?_⟩
          show e'.1 ∈ rest.map (·.1)
          rw [he, ← hk]
          exact mem_map_of_mem hmem
      · rintro (rfl | ⟨rfl | hmem, hk⟩)
        · exact .inl rfl
        · exact absurd he hk
        · exact .inr hmem
    · rw [if_neg he, mem_cons, ih hrest, mem_cons]
      constructor
      · rintro (rfl | rfl | ⟨hmem, hk⟩)
        · exact .inr ⟨.inl rfl, he⟩
        · exact .inl rfl
        · exact .inr ⟨.inr hmem, hk⟩
      · rintro (rfl | ⟨rfl | hmem, hk⟩)
        · exact .inr (.inl rfl)
        · exact .inl rfl
        · exact .inr (.inr ⟨hmem, hk⟩)

theorem filter_key (hl : (l.map (·.1)).Nodup) (he : e ∈ l) :
    (l.filter fun e' => e'.1 = e.1) = [e] := by
  induction l with
  | nil => cases he
  | cons e' rest ih =>
    obtain ⟨hnot, hrest⟩ := nodup_cons.mp hl
    rcases mem_cons.mp he with rfl | he
    · have hnone : (rest.filter fun e' => e'.1 = e.1) = [] := by
        refine filter_eq_nil_iff.mpr fun e' he' heq => hnot ?_
        exact mem_map.mpr ⟨e', he', by simpa using heq⟩
      rw [filter_cons_of_pos (by simp), hnone]
    · have hne : e'.1 ≠ e.1 := fun heq => hnot (mem_map.mpr ⟨e, he, heq.symm⟩)
      rw [filter_cons_of_neg (by simpa using hne), ih hrest he]

/-! ## Dictionaries -/

/-- `d.get(k)`. -/
def get? (d : Dict κ ν) (k : κ) : Option ν := (d.entries.find? fun e => e.1 = k).map (·.2)

def set (d : Dict κ ν) (k : κ) (v : ν) : Dict κ ν where
  entries := setEntry k v d.entries
  nodup := by
    rw [keys_setEntry]
    by_cases hk : k ∈ d.entries.map (·.1)
    · rw [if_pos hk]
      exact d.nodup
    · rw [if_neg hk]
      refine List.nodup_append.mpr ⟨d.nodup, List.nodup_singleton k, fun a ha b hb => ?_⟩
      rintro rfl
      exact hk (List.mem_singleton.mp hb ▸ ha)

/-- `d.update(l)`. -/
def update (d : Dict κ ν) (l : List (κ × ν)) : Dict κ ν := l.foldl (fun d e => d.set e.1 e.2) d

/-- `d.pop(k, None)`, the dictionary that is left. -/
def erase (d : Dict κ ν) (k : κ) : Dict κ ν where
  entries := d.entries.filter fun e => e.1 ≠ k
  nodup := d.nodup.sublist (List.filter_sublist.map _)

variable {d : Dict κ ν} {k k' : κ} {v : ν}

theorem mem_set : e ∈ (d.set k v).entries ↔ e = (k, v) ∨ e ∈ d.entries ∧ e.1 ≠ k :=
  mem_setEntry d.nodup

theorem mem_erase : e ∈ (d.erase k).entries ↔ e ∈ d.entries ∧ e.1 ≠ k := by simp [erase]

theorem setEntry_new (h : k ∉ l.map (·.1)) : setEntry k v l = l ++ [(k, v)] := by
  induction l with
  | nil => rfl
  | cons e rest ih =>
    rw [map_cons, mem_cons, not_or] at h
    rw [setEntry, if_neg (Ne.symm h.1), ih h.2, cons_append]

theorem entries_update (h : ((d.entries ++ l).map (·.1)).Nodup) :
    (d.update l).entries = d.entries ++ l := by
  induction l generalizing d with
  | nil => exact (append_nil _).symm
  | cons e rest ih =>
    have hnew : e.1 ∉ d.entries.map (·.1) := by
      rw [map_append, map_cons] at h
      intro hmem
      exact (nodup_append'.mp h).2.2 hmem (mem_cons_self ..)
    have hset : (d.set e.1 e.2).entries = d.entries ++ [e] := setEntry_new hnew
    have hstep := ih (d := d.set e.1 e.2) (by simpa [hset] using h)
    rw [hset, append_assoc] at hstep
    exact hstep

theorem mem_update (h : e ∈ (d.update l).entries) : e ∈ l ∨ e ∈ d.entries := by
  induction l generalizing d with
  | nil => exact .inr h
  | cons e' rest ih =>
    rcases ih h with h | h
    · exact .inl (mem_cons_of_mem _ h)
    · rcases mem_set.mp h with rfl | h
      · exact .inl mem_cons_self
      · exact .inr h.1

theorem get?_eq_some_iff : d.get? k = some v ↔ (k, v) ∈ d.entries := by
  obtain ⟨l, hl⟩ := d
  unfold get?
  constructor
  · intro h
    obtain ⟨e, he, rfl⟩ := map_eq_some_iff.mp h
    obtain rfl : e.1 = k := by simpa using find?_some he
    exact mem_of_find?_eq_some he
  · intro h
    dsimp only at h ⊢
    induction l with
    | nil => cases h
    | cons e rest ih =>
      obtain ⟨hnot, hrest⟩ := nodup_cons.mp hl
      rcases mem_cons.mp h with rfl | h
      · simp
      · have he : e.1 ≠ k := by
          rintro rfl
          exact hnot (mem_map.mpr ⟨(e.1, v), h, rfl⟩)
        rw [find?_cons_of_neg (by simpa using he)]
        exact ih hrest h

/-! ## The order of the entries, and sums over them -/

/-- `d.move_to_end(k)`, for a key that is there. -/
def moveToEnd (d : Dict κ ν) (k : κ) : Dict κ ν :=
  match d.get? k with
  | none => d
  | some v => (d.erase k).set k v

omit [DecidableEq κ] in
/-- `d.popitem(last=False)`: the first entry and the dictionary that is left. -/
def popFirst (d : Dict κ ν) : Option ((κ × ν) × Dict κ ν) :=
  match d with
  | ⟨[], _⟩ => none
  | ⟨e :: rest, h⟩ => some (e, ⟨rest, (List.nodup_cons.mp h).2⟩)

omit [DecidableEq κ] in
/-- The sum of `f` over the values. -/
def total (f : ν → Nat) (d : Dict κ ν) : Nat := (d.entries.map fun e => f e.2).sum

theorem get?_eq_none_iff : d.get? k = none ↔ k ∉ d.entries.map (·.1) := by
  rw [eq_none_iff_forall_ne_some]
  constructor
  · intro h hk
    obtain ⟨e, he, rfl⟩ := mem_map.mp hk
    exact h e.2 (get?_eq_some_iff.mpr he)
  · intro h v hv
    exact h (mem_map.mpr ⟨(k, v), get?_eq_some_iff.mp hv, rfl⟩)

theorem get?_erase_self : (d.erase k).get? k = none := by
  rw [get?_eq_none_iff]
  intro h
  obtain ⟨e, he, hk⟩ := mem_map.mp h
  exact (mem_erase.mp he).2 hk

theorem total_erase (f : ν → Nat) :
    (d.erase k).total f + ((d.get? k).map f).getD 0 = d.total f := by
  obtain ⟨l, hl⟩ := d
  unfold total erase get?
  dsimp only
  induction l with
  | nil => rfl
  | cons e rest ih =>
    obtain ⟨hnot, hrest⟩ := nodup_cons.mp hl
    by_cases he : e.1 = k
    · have hsame : rest.filter (fun e' => e'.1 ≠ k) = rest := by
        refine filter_eq_self.mpr fun e' he' => ?_
        have hne : e'.1 ≠ k := fun h => hnot (mem_map.mpr ⟨e', he', h.trans he.symm⟩)
        simpa using hne
      rw [filter_cons_of_neg (by simpa using he), hsame, find?_cons_of_pos (by simpa using he)]
      simp only [map_cons, sum_cons, map_some, getD_some]
      omega
    · rw [filter_cons_of_pos (by simpa using he), find?_cons_of_neg (by simpa using he)]
      have hind := ih hrest
      simp only [map_cons, sum_cons] at hind ⊢
      omega

theorem total_set (f : ν → Nat) :
    (d.set k v).total f + ((d.get? k).map f).getD 0 = d.total f + f v := by
  obtain ⟨l, hl⟩ := d
  unfold total set get?
  dsimp only
  induction l with
  | nil => simp [setEntry]
  | cons e rest ih =>
    have hrest := (nodup_cons.mp hl).2
    rw [setEntry]
    by_cases he : e.1 = k
    · rw [if_pos he, find?_cons_of_pos (by simpa using he)]
      simp only [map_cons, sum_cons, map_some, getD_some]
      omega
    · rw [if_neg he, find?_cons_of_neg (by simpa using he)]
      have hind := ih hrest
      simp only [map_cons, sum_cons] at hind ⊢
      omega

theorem total_moveToEnd (f : ν → Nat) : (d.moveToEnd k).total f = d.total f := by
  unfold moveToEnd
  cases hk : d.get? k with
  | none => rfl
  | some v =>
    have hset := total_set (d := d.erase k) (k := k) (v := v) f
    have herase := total_erase (d := d) (k := k) f
    rw [get?_erase_self] at hset
    rw [hk] at herase
    simp only [map_none, map_some, getD_none, getD_some] at hset herase ⊢
    omega

theorem get?_moveToEnd_self : (d.moveToEnd k).get? k = d.get? k := by
  unfold moveToEnd
  cases hk : d.get? k with
  | none => exact hk
  | some v => exact get?_eq_some_iff.mpr (mem_set.mpr (.inl rfl))

theorem length_set_le : (d.set k v).entries.length ≤ d.entries.length + 1 := by
  obtain ⟨l, hl⟩ := d
  show (setEntry k v l).length ≤ l.length + 1
  clear hl
  induction l with
  | nil => exact Nat.le_refl _
  | cons e rest ih =>
    rw [setEntry]
    by_cases he : e.1 = k
    · rw [if_pos he]
      exact Nat.le_succ _
    · rw [if_neg he]
      exact Nat.succ_le_succ ih

theorem length_set_of_mem (h : d.get? k ≠ none) :
    (d.set k v).entries.length = d.entries.length := by
  have hkeys : (d.set k v).entries.map (·.1) = d.entries.map (·.1) := by
    show (setEntry k v d.entries).map (·.1) = _
    rw [keys_setEntry, if_pos]
    by_contra hnot
    exact h (get?_eq_none_iff.mpr hnot)
  simpa using congrArg length hkeys

theorem length_erase_le : (d.erase k).entries.length ≤ d.entries.length :=
  length_filter_le ..

theorem length_moveToEnd : (d.moveToEnd k).entries.length = d.entries.length := by
  unfold moveToEnd
  cases hk : d.get? k with
  | none => rfl
  | some v =>
    have hset : ((d.erase k).set k v).entries = (d.erase k).entries ++ [(k, v)] :=
      setEntry_new (get?_eq_none_iff.mp get?_erase_self)
    have hcount := total_erase (d := d) (k := k) fun _ => 1
    rw [hk] at hcount
    simp only [total, map_const', sum_replicate_nat, Nat.mul_one, map_some, getD_some] at hcount
    rw [hset, length_append]
    exact hcount

omit [DecidableEq κ] in
theorem entries_popFirst {rest : Dict κ ν} (h : d.popFirst = some (e, rest)) :
    d.entries = e :: rest.entries := by
  obtain ⟨_ | ⟨e', l⟩, hl⟩ := d
  · cases h
  · cases h
    rfl

omit [DecidableEq κ] in
theorem popFirst_eq_none (h : d.popFirst = none) : d.entries = [] := by
  obtain ⟨_ | ⟨e, l⟩, hl⟩ := d
  · rfl
  · cases h

theorem get?_popFirst {rest : Dict κ ν} (h : d.popFirst = some (e, rest)) :
    rest.get? k = if e.1 = k then none else d.get? k := by
  have hentries := entries_popFirst h
  by_cases hk : e.1 = k
  · rw [if_pos hk, get?_eq_none_iff, ← hk]
    have hnodup := d.nodup
    rw [hentries] at hnodup
    exact (nodup_cons.mp hnodup).1
  · rw [if_neg hk]
    unfold get?
    rw [hentries, find?_cons_of_neg (by simpa using hk)]

/-! ## What is under a key -/

theorem get?_erase : (d.erase k').get? k = if k = k' then none else d.get? k := by
  by_cases hk : k = k'
  · rw [if_pos hk, hk, get?_erase_self]
  · rw [if_neg hk]
    refine ext fun v => ?_
    rw [get?_eq_some_iff, get?_eq_some_iff, mem_erase]
    exact and_iff_left hk

theorem get?_set : (d.set k' v).get? k = if k = k' then some v else d.get? k := by
  by_cases hk : k = k'
  · rw [if_pos hk, hk]
    exact get?_eq_some_iff.mpr (mem_set.mpr (.inl rfl))
  · rw [if_neg hk]
    refine ext fun w => ?_
    rw [get?_eq_some_iff, get?_eq_some_iff, mem_set]
    constructor
    · rintro (heq | ⟨hmem, -⟩)
      · exact absurd (congrArg Prod.fst heq) hk
      · exact hmem
    · exact fun hmem => .inr ⟨hmem, hk⟩

@[simp] theorem get?_empty : (∅ : Dict κ ν).get? k = none := rfl

theorem get?_update :
    (d.update l).get? k = (((l.filter fun e => e.1 = k).getLast?).map (·.2)).or (d.get? k) := by
  induction l generalizing d with
  | nil => rfl
  | cons e rest ih =>
    have hstep : (d.update (e :: rest)).get? k = ((d.set e.1 e.2).update rest).get? k := rfl
    rw [hstep, ih, get?_set]
    by_cases he : e.1 = k
    · rw [filter_cons_of_pos (by simpa using he), if_pos he.symm, getLast?_cons]
      cases (rest.filter fun e => e.1 = k).getLast? <;> rfl
    · rw [filter_cons_of_neg (by simpa using he), if_neg (Ne.symm he)]

theorem get?_update_ne_none : (d.update l).get? k ≠ none ↔ k ∈ l.map (·.1) ∨ d.get? k ≠ none := by
  rw [get?_update]
  by_cases hk : k ∈ l.map (·.1)
  · obtain ⟨e, he, rfl⟩ := mem_map.mp hk
    have hmem : e ∈ l.filter fun e' => e'.1 = e.1 := mem_filter.mpr ⟨he, by simp⟩
    obtain ⟨last, hlast⟩ := isSome_iff_exists.mp (getLast?_isSome.mpr (ne_nil_of_mem hmem))
    simp [hlast, hk]
  · have hnone : (l.filter fun e => e.1 = k) = [] := by
      refine filter_eq_nil_iff.mpr fun e he heq => hk ?_
      exact mem_map.mpr ⟨e, he, by simpa using heq⟩
    simp [hnone, hk]

theorem get?_update_of_not_mem (hk : k ∉ l.map (·.1)) : (d.update l).get? k = d.get? k := by
  have hnone : (l.filter fun e => e.1 = k) = [] := by
    refine filter_eq_nil_iff.mpr fun e he heq => hk ?_
    exact mem_map.mpr ⟨e, he, by simpa using heq⟩
  rw [get?_update, hnone]
  rfl

theorem get?_update_of_mem (hl : (l.map (·.1)).Nodup) (he : e ∈ l) :
    (d.update l).get? e.1 = some e.2 := by
  rw [get?_update, filter_key hl he]
  rfl

theorem entries_erase_head {rest : List (κ × ν)} (h : d.entries = (k, v) :: rest) :
    (d.erase k).entries = rest := by
  have hnodup := d.nodup
  rw [h, map_cons, nodup_cons] at hnodup
  unfold erase
  dsimp only
  rw [h, filter_cons_of_neg (by simp)]
  refine filter_eq_self.mpr fun e he => ?_
  have hne : e.1 ≠ k := fun heq => hnodup.1 (mem_map.mpr ⟨e, he, heq⟩)
  simpa using hne

theorem mem_keys_iff : k ∈ d.entries.map (·.1) ↔ d.get? k ≠ none := by
  rw [ne_eq, get?_eq_none_iff, not_not]

omit [DecidableEq κ] in
theorem not_mem_of_append {d' : Dict κ ν} {front : List (κ × ν)}
    (h : d.entries = front ++ d'.entries) (hk : k ∈ front.map (·.1)) :
    k ∉ d'.entries.map (·.1) := by
  have hnodup := d.nodup
  rw [h, map_append] at hnodup
  exact fun hmem => (nodup_append'.mp hnodup).2.2 hk hmem

end Dict
