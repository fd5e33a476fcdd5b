import Xtrax.PyJsonWriter

/-!
# Indented JSON that is read back

`json.dumps(v, indent=2)` writes every part on a line of its own, and `json.loads` gives back what
was written (`loads_dumpsIndented`).
-/

namespace Xtrax.PyJson

open List

/-! ### Writing -/

/-- A line break and the blanks of a level. -/
def newline (level : Nat) : List Char := '\n' :: List.replicate (2 * level) ' '

section Text

-- `float.__repr__`
variable (floatRepr : PyFloat → List Char)

mutual

/-- The text of a value that stands at a level. -/
def PyVal.indented (level : Nat) : PyVal → List Char
  | .none => ['n', 'u', 'l', 'l']
  | .bool true => ['t', 'r', 'u', 'e']
  | .bool false => ['f', 'a', 'l', 's', 'e']
  | .int n => intText n
  | .float x => floatRepr x
  | .str s => '"' :: quoted s
  | .list [] => ['[', ']']
  | .list (v :: vs) => '[' :: (itemsIndented (level + 1) (v :: vs) ++ (newline level ++ [']']))
  | .dict [] => ['{', '}']
  | .dict (e :: entries) =>
    '{' :: (membersIndented (level + 1) (e :: entries) ++ (newline level ++ ['}']))

/-- Items, each on a line of its own. -/
def itemsIndented (level : Nat) : List PyVal → List Char
  | [] => []
  | [v] => newline level ++ v.indented level
  | v :: w :: vs => newline level ++ (v.indented level ++ ',' :: itemsIndented level (w :: vs))

/-- Members, each on a line of its own. -/
def membersIndented (level : Nat) : List (PyStr × PyVal) → List Char
  | [] => []
  | [(k, v)] => newline level ++ '"' :: (quoted k ++ ':' :: ' ' :: v.indented level)
  | (k, v) :: m :: entries =>
    newline level ++ '"' :: (quoted k ++ ':' :: ' ' ::
      (v.indented level ++ ',' :: membersIndented level (m :: entries)))

end

/-- `json.dumps(v, indent=2)`. -/
def dumpsIndented (v : PyVal) : Option (List Char) :=
  if v.printable then some (v.indented floatRepr 0) else .none

end Text

/-! ### Texts as strings of Python -/

theorem val_point {c : Char} : (point c.toNat).val = c.toNat := by
  have hvalid : c.toNat.isValidChar := c.valid
  refine Nat.mod_eq_of_lt ?_
  rcases hvalid with h | h
  · exact Nat.lt_trans h (by decide)
  · exact h.2

theorem py_injective : Function.Injective py := by
  intro s t h
  have hpoint : Function.Injective fun c : Char => point c.toNat := by
    intro c d hcd
    have hval := congrArg Fin.val hcd
    dsimp only at hval
    rw [val_point, val_point] at hval
    exact Char.toNat_inj.mp hval
  exact String.toList_inj.mp (map_injective_iff.mpr hpoint h)

theorem unpaired_py (s : String) : Unpaired (py s) := by
  have hhigh : ∀ c : Char, isHigh (point c.toNat).val = false := by
    intro c
    have hvalid : c.toNat.isValidChar := c.valid
    rw [val_point, isHigh, Bool.and_eq_false_iff, decide_eq_false_iff_not, decide_eq_false_iff_not]
    rcases hvalid with h | h
    · exact .inl (by omega)
    · exact .inr (by omega)
  unfold Unpaired py
  induction s.toList with
  | nil => exact isChain_nil
  | cons c cs ih =>
    refine isChain_cons.mpr ⟨fun _ _ hpair => ?_, ih⟩
    rw [hhigh] at hpair
    cases hpair.1

section

variable {floatRepr : PyFloat → List Char} {depth : Nat} {v : PyVal}

theorem blank_newline (level : Nat) : Blank (newline level) := by
  refine forall_mem_cons.mpr ⟨rfl, fun c hc => ?_⟩
  rw [eq_of_mem_replicate hc]
  rfl

/-- A line break for every part of a list or a dictionary. -/
def Layout.indented (level : Nat) : Layout where
  first := newline (level + 1)
  next := newline (level + 1)
  last := newline level
  colon := [' ']
  blank_first := blank_newline (level + 1)
  blank_next := blank_newline (level + 1)
  blank_last := blank_newline level
  blank_colon := blank_space

theorem itemsIndented_cons (floatRepr : PyFloat → List Char) (level : Nat) (v : PyVal)
    (vs : List PyVal) : itemsIndented floatRepr (level + 1) (v :: vs) ++ (newline level ++ [']']) =
      newline (level + 1) ++ (v.indented floatRepr (level + 1) ++
        (Layout.indented level).moreItems (·.indented floatRepr (level + 1)) vs) := by
  induction vs generalizing v with
  | nil => simp [itemsIndented, Layout.moreItems, Layout.indented]
  | cons w vs ih =>
    rw [itemsIndented, append_assoc, append_assoc, cons_append, ih]
    rfl

theorem membersIndented_cons (floatRepr : PyFloat → List Char) (level : Nat) (k : PyStr) (v : PyVal)
    (entries : List (PyStr × PyVal)) :
    membersIndented floatRepr (level + 1) ((k, v) :: entries) ++ (newline level ++ ['}']) =
      newline (level + 1) ++ '"' ::
        ((Layout.indented level).member (·.indented floatRepr (level + 1)) k v ++
          (Layout.indented level).moreMembers (·.indented floatRepr (level + 1)) entries) := by
  induction entries generalizing k v with
  | nil => simp [membersIndented, Layout.member, Layout.moreMembers, Layout.indented]
  | cons e entries ih =>
    rw [membersIndented]
    simp only [List.append_assoc, List.cons_append]
    rw [ih]
    simp [Layout.member, Layout.moreMembers, Layout.indented]

/-- `json.dumps(v, indent=2)`. -/
def Writer.indented (floatRepr : PyFloat → List Char) : Writer floatRepr where
  text := fun level v => v.indented floatRepr level
  layout := .indented
  leaf := fun level v h => by
    cases v with
    | bool b => cases b <;> rfl
    | list | dict => cases h
    | _ => rfl
  empty := fun _ => ⟨rfl, rfl⟩
  list := fun level v vs => congrArg ('[' :: ·) (itemsIndented_cons floatRepr level v vs)
  dict := fun level k v entries =>
    congrArg ('{' :: ·) (membersIndented_cons floatRepr level k v entries)

theorem Stored.obj {entries : List (String × PyVal)} (hkeys : (entries.map Prod.fst).Nodup)
    (h : ∀ e ∈ entries, Stored floatRepr depth e.2) :
    Stored floatRepr (depth + 1) (.obj entries) := by
  refine .dict ?_ ?_ ?_
  · have hmap : (entries.map fun e => (py e.1, e.2)).map Prod.fst =
        (entries.map Prod.fst).map py := by rw [map_map, map_map]; rfl
    rw [hmap]
    exact hkeys.map py_injective
  · intro e he
    obtain ⟨e', -, rfl⟩ := mem_map.mp he
    exact unpaired_py e'.1
  · intro e he
    obtain ⟨e', he', rfl⟩ := mem_map.mp he
    exact h e' he'

/-- **The round trip of a value that JSON holds.** -/
theorem loads_dumpsIndented (h : Stored floatRepr depth v) :
    ∃ text, dumpsIndented floatRepr v = some text ∧ loads depth text = .ok v :=
  ⟨_, if_pos h.printable, (Writer.indented floatRepr).loads_text h⟩

end

end Xtrax.PyJson
