import Xtrax.PyJsonIndent

/-!
# JSON with the default separators

`json.dumps(v)` puts a blank after every `,` and `:`, and gives up on a value with more levels than
the interpreter has left.  What it writes `json.loads` gives back with as many levels left
(`loads_dumpsSpaced`).
-/

namespace Xtrax.PyJson

/-! ### Writing -/

section Text

-- `float.__repr__`
variable (floatRepr : PyFloat → List Char)

mutual

/-- The text of a value. -/
def PyVal.spaced : PyVal → List Char
  | .none => ['n', 'u', 'l', 'l']
  | .bool true => ['t', 'r', 'u', 'e']
  | .bool false => ['f', 'a', 'l', 's', 'e']
  | .int n => intText n
  | .float x => floatRepr x
  | .str s => '"' :: quoted s
  | .list vs => '[' :: itemsSpaced vs
  | .dict entries => '{' :: membersSpaced entries

/-- An array after its opening bracket. -/
def itemsSpaced : List PyVal → List Char
  | [] => [']']
  | [v] => v.spaced ++ [']']
  | v :: w :: vs => v.spaced ++ ',' :: ' ' :: itemsSpaced (w :: vs)

/-- An object after its opening brace. -/
def membersSpaced : List (PyStr × PyVal) → List Char
  | [] => ['}']
  | [(k, v)] => '"' :: (quoted k ++ ':' :: ' ' :: (v.spaced ++ ['}']))
  | (k, v) :: m :: entries =>
    '"' :: (quoted k ++ ':' :: ' ' :: (v.spaced ++ ',' :: ' ' :: membersSpaced (m :: entries)))

end

end Text

mutual

/-- How many lists and dictionaries stand in each other. -/
def PyVal.levels : PyVal → Nat
  | .list vs => itemsLevels vs + 1
  | .dict entries => entriesLevels entries + 1
  | _ => 0

def itemsLevels : List PyVal → Nat
  | [] => 0
  | v :: vs => max v.levels (itemsLevels vs)

def entriesLevels : List (PyStr × PyVal) → Nat
  | [] => 0
  | (_, v) :: entries => max v.levels (entriesLevels entries)

end

/-- `json.dumps(v)`, with the levels of nesting that are left. -/
def dumpsSpaced (floatRepr : PyFloat → List Char) (depth : Nat) (v : PyVal) : Option (List Char) :=
  if v.printable && v.levels ≤ depth then some (v.spaced floatRepr) else .none

section

variable {floatRepr : PyFloat → List Char} {depth : Nat} {v : PyVal}

theorem itemsLevels_le {vs : List PyVal} : itemsLevels vs ≤ depth ↔ ∀ v ∈ vs, v.levels ≤ depth := by
  induction vs with
  | nil => exact ⟨fun _ => nofun, fun _ => Nat.zero_le _⟩
  | cons v vs ih => rw [itemsLevels, Nat.max_le, ih, List.forall_mem_cons]

theorem entriesLevels_le {entries : List (PyStr × PyVal)} :
    entriesLevels entries ≤ depth ↔ ∀ e ∈ entries, e.2.levels ≤ depth := by
  induction entries with
  | nil => exact ⟨fun _ => nofun, fun _ => Nat.zero_le _⟩
  | cons e entries ih => rw [entriesLevels, Nat.max_le, ih, List.forall_mem_cons]

/-! ### Reading it back -/

/-- A blank after every comma and colon. -/
def Layout.spaced : Layout where
  first := []
  next := [' ']
  last := []
  colon := [' ']
  blank_first := blank_nil
  blank_next := blank_space
  blank_last := blank_nil
  blank_colon := blank_space

theorem itemsSpaced_cons (floatRepr : PyFloat → List Char) (v : PyVal) (vs : List PyVal) :
    itemsSpaced floatRepr (v :: vs) =
      v.spaced floatRepr ++ Layout.spaced.moreItems (·.spaced floatRepr) vs := by
  induction vs generalizing v with
  | nil => rfl
  | cons w vs ih =>
    rw [itemsSpaced, ih]
    rfl

theorem membersSpaced_cons (floatRepr : PyFloat → List Char) (k : PyStr) (v : PyVal)
    (entries : List (PyStr × PyVal)) :
    membersSpaced floatRepr ((k, v) :: entries) =
      '"' :: (Layout.spaced.member (·.spaced floatRepr) k v ++
        Layout.spaced.moreMembers (·.spaced floatRepr) entries) := by
  induction entries generalizing k v with
  | nil => simp [membersSpaced, Layout.member, Layout.moreMembers, Layout.spaced]
  | cons e entries ih =>
    rw [membersSpaced, ih]
    simp [Layout.member, Layout.moreMembers, Layout.spaced]

def Writer.spaced (floatRepr : PyFloat → List Char) : Writer floatRepr where
  text := fun _ v => v.spaced floatRepr
  layout := fun _ => .spaced
  leaf := fun _ v h => by
    cases v with
    | bool b => cases b <;> rfl
    | list | dict => cases h
    | _ => rfl
  empty := fun _ => ⟨rfl, rfl⟩
  list := fun _ v vs => congrArg ('[' :: ·) (itemsSpaced_cons floatRepr v vs)
  dict := fun _ k v entries => congrArg ('{' :: ·) (membersSpaced_cons floatRepr k v entries)

/-! ### Values without floats -/

/-- Values without floats, their strings without surrogates in a pair, every key once. -/
inductive Plainly : PyVal → Prop
  | none : Plainly .none
  | bool (b : Bool) : Plainly (.bool b)
  | int (n : Int) : Plainly (.int n)
  | str {s : PyStr} (h : Unpaired s) : Plainly (.str s)
  | list {vs : List PyVal} (h : ∀ v ∈ vs, Plainly v) : Plainly (.list vs)
  | dict {entries : List (PyStr × PyVal)} (nodup : (entries.map Prod.fst).Nodup)
    (keys : ∀ e ∈ entries, Unpaired e.1) (h : ∀ e ∈ entries, Plainly e.2) :
    Plainly (.dict entries)

theorem Plainly.obj {entries : List (String × PyVal)} (hkeys : (entries.map Prod.fst).Nodup)
    (h : ∀ e ∈ entries, Plainly e.2) : Plainly (.obj entries) := by
  refine .dict ?_ ?_ ?_
  · have hmap : (entries.map fun e => (py e.1, e.2)).map Prod.fst =
        (entries.map Prod.fst).map py := by rw [List.map_map, List.map_map]; rfl
    rw [hmap]
    exact hkeys.map py_injective
  · intro e he
    obtain ⟨e', -, rfl⟩ := List.mem_map.mp he
    exact unpaired_py e'.1
  · intro e he
    obtain ⟨e', he', rfl⟩ := List.mem_map.mp he
    exact h e' he'

theorem Plainly.stored (h : Plainly v) (hprint : v.printable = true) (hlevels : v.levels ≤ depth) :
    Stored floatRepr depth v := by
  induction h generalizing depth with
  | none => exact .none
  | bool b => exact .bool b
  | int n => exact .int (of_decide_eq_true hprint)
  | str hs => exact .str hs
  | list _ ih =>
    obtain ⟨depth, rfl⟩ := Nat.exists_eq_add_of_le' (Nat.lt_of_lt_of_le (Nat.succ_pos _) hlevels)
    exact .list fun v hv => ih v hv (printableItems_iff.mp hprint v hv)
      (itemsLevels_le.mp (Nat.le_of_succ_le_succ hlevels) v hv)
  | dict nodup keys _ ih =>
    obtain ⟨depth, rfl⟩ := Nat.exists_eq_add_of_le' (Nat.lt_of_lt_of_le (Nat.succ_pos _) hlevels)
    exact .dict nodup keys fun e he => ih e he (printableEntries_iff.mp hprint e he)
      (entriesLevels_le.mp (Nat.le_of_succ_le_succ hlevels) e he)

/-- **The round trip**: what is written of a value without floats is read back. -/
theorem loads_dumpsSpaced {text : List Char} (h : Plainly v)
    (htext : dumpsSpaced floatRepr depth v = some text) : loads depth text = .ok v := by
  unfold dumpsSpaced at htext
  split at htext
  · rename_i hwritten
    rw [Bool.and_eq_true, decide_eq_true_iff] at hwritten
    obtain rfl := Option.some.inj htext
    exact (Writer.spaced floatRepr).loads_text (h.stored hwritten.1 hwritten.2)
  · cases htext

end

end Xtrax.PyJson
