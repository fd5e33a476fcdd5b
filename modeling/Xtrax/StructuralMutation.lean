import Xtrax.AstDump
import Xtrax.LastWins

/-!
# Structural mutations

The diversity quota asks of two candidates whether one is a structural mutation of the other:
both sources are parsed, the names of each function are replaced by `_id0`, `_id1`, … in the order
they are first met, the operands of `+ * | & ^` are put in the order of their dumps, and the dumps
of the results are compared.

The replacement does not tell a name the program binds from a name it only uses.  So what is not
structural is exactly what comes from renaming the names of each function one to one, whichever
they are, and swapping operands as long as the names of each function are first met in the same
order (`visit_eq_iff`).
-/

namespace Xtrax.DiversityQuota

open LastWins List

/-! ### The transformer -/

/-- `_COMMUTATIVE_OPS`. -/
def Operator.commutative : Operator → Bool
  | .add => true
  | .mult => true
  | .bitOr => true
  | .bitAnd => true
  | .bitXor => true
  | _ => false

/-- `_id{n}`. -/
def canonicalName (n : ℕ) : Word where
  text := ['_', 'i', 'd'] ++ n.repr.toList
  plain := by
    intro c hc
    rcases List.mem_append.mp hc with hc | hc
    · have hlead : ∀ d ∈ ['_', 'i', 'd'], ¬ Mark d := by simp [Mark]
      exact hlead c hc
    · rw [Nat.toList_repr] at hc
      have hdigit : c.isDigit = true := Nat.isDigit_of_mem_toDigits (by decide) (by decide) hc
      rintro (rfl | rfl | rfl | rfl | rfl | rfl | rfl | rfl | rfl) <;> exact absurd hdigit (by decide)
  ne_nil := by simp

/-- `_canonical_names`: the names met so far in a scope, in order; the `n`-th is `_id{n}`. -/
abbrev Names := List Word

def canonicalize (names : Names) (original : Word) : Word × Names :=
  if original ∈ names then (canonicalName (names.idxOf original), names)
  else (canonicalName names.length, names ++ [original])

/-- What `visit_BinOp` does after its operands. -/
def orderOperands (left : Ast) (op : Operator) (right : Ast) : Ast :=
  if op.commutative = true ∧ right.dump < left.dump then .binOp right op left
  else .binOp left op right

mutual

/-- `_NormalizingTransformer.visit`: the node it returns and the names of the scope after it.  A
function's fields are a scope of their own. -/
def visit : Ast → Names → Ast × Names
  | .atom a, names => (.atom a, names)
  | .list xs, names =>
    let (xs', names') := visitItems xs names
    (.list xs', names')
  | .named kind id fs, names =>
    let (id', names₁) := canonicalize names id
    if kind = .functionDef then (.named kind id' (visitFields fs []).1, names₁)
    else
      let (fs', names₂) := visitFields fs names₁
      (.named kind id' fs', names₂)
  | .binOp left op right, names =>
    let (left', names₁) := visit left names
    let (right', names₂) := visit right names₁
    (orderOperands left' op right', names₂)
  | .node cls fs, names =>
    let (fs', names') := visitFields fs names
    (.node cls fs', names')

def visitItems : List Ast → Names → List Ast × Names
  | [], names => ([], names)
  | x :: xs, names =>
    let (x', names₁) := visit x names
    let (xs', names₂) := visitItems xs names₁
    (x' :: xs', names₂)

def visitFields : List (Word × Ast) → Names → List (Word × Ast) × Names
  | [], names => ([], names)
  | (f, v) :: fs, names =>
    let (v', names₁) := visit v names
    let (fs', names₂) := visitFields fs names₁
    ((f, v') :: fs', names₂)

end

/-- `DiversityQuotaInputError`, with its message. -/
structure DiversityQuotaInputError where
  message : String
  deriving DecidableEq

section
variable (parse : String → Except String Ast)

/-- `_normalize`; `parse` is `ast.parse`, with the text of its `SyntaxError`. -/
def normalize (source : String) : Except DiversityQuotaInputError (List Char) :=
  match parse source with
  | .error exc => .error ⟨"candidate source is not valid Python: " ++ exc⟩
  | .ok tree => .ok (visit tree []).1.dump

def isStructuralMutation (previous candidate : String) : Except DiversityQuotaInputError Bool :=
  match normalize parse previous with
  | .error e => .error e
  | .ok a =>
    match normalize parse candidate with
    | .error e => .error e
    | .ok b => .ok (a != b)

end

/-! ### The names of a scope -/

mutual

/-- The names that a tree has in the scope it stands in, in the order they are visited. -/
def scopeNames : Ast → List Word
  | .atom _ => []
  | .list xs => itemsNames xs
  | .named kind id fs => id :: (if kind = .functionDef then [] else fieldsNames fs)
  | .binOp left _ right => scopeNames left ++ scopeNames right
  | .node _ fs => fieldsNames fs

def itemsNames : List Ast → List Word
  | [] => []
  | x :: xs => scopeNames x ++ itemsNames xs

def fieldsNames : List (Word × Ast) → List Word
  | [] => []
  | (_, v) :: fs => scopeNames v ++ fieldsNames fs

end

/-! ### One program in place of another -/

section
variable (enter : List Word → List Word → (Word → Word) → Prop)

mutual

/-- The second tree is the first with the names of its scope replaced by `ρ` and with operands of
commutative operators swapped.  A function's own scope has a renaming of its own, which `enter`
judges. -/
def SameUpTo : Ast → (Word → Word) → Ast → Prop
  | .atom a, _, y => y = .atom a
  | .list xs, ρ, y => ∃ ys, y = .list ys ∧ SameItems xs ρ ys
  | .named kind id fs, ρ, y => ∃ gs, y = .named kind (ρ id) gs ∧
      (if kind = .functionDef then
        ∃ ρ', enter (fieldsNames fs) (fieldsNames gs) ρ' ∧ SameFields fs ρ' gs
      else SameFields fs ρ gs)
  | .binOp left op right, ρ, y => ∃ left' right',
      SameUpTo left ρ left' ∧ SameUpTo right ρ right' ∧
        (y = .binOp left' op right' ∨ op.commutative = true ∧ y = .binOp right' op left')
  | .node cls fs, ρ, y => ∃ gs, y = .node cls gs ∧ SameFields fs ρ gs

def SameItems : List Ast → (Word → Word) → List Ast → Prop
  | [], _, ys => ys = []
  | x :: xs, ρ, ys => ∃ y ys', ys = y :: ys' ∧ SameUpTo x ρ y ∧ SameItems xs ρ ys'

def SameFields : List (Word × Ast) → (Word → Word) → List (Word × Ast) → Prop
  | [], _, gs => gs = []
  | (f, v) :: fs, ρ, gs => ∃ w gs', gs = (f, w) :: gs' ∧ SameUpTo v ρ w ∧ SameFields fs ρ gs'

end

end

/-- A one-to-one renaming of the names of a scope that leaves the order in which they first occur
as it is. -/
def Renames (names names' : List Word) (ρ : Word → Word) : Prop :=
  Set.InjOn ρ {id | id ∈ names} ∧ LastWins.firstSeen names' = (LastWins.firstSeen names).map ρ

/-- The second program comes from the first by renaming the names of each function on its own and
by swaps of operands, the names of each function being first met in the same order. -/
def Cosmetic (p q : Ast) : Prop :=
  ∃ ρ, Renames (scopeNames p) (scopeNames q) ρ ∧ SameUpTo Renames p ρ q

/-- A one-to-one renaming of the names of a scope. -/
def OneToOne (names _names' : List Word) (ρ : Word → Word) : Prop := Set.InjOn ρ {id | id ∈ names}

/-- The second program comes from the first by renaming the names of each function one to one, each
function on its own, and by swaps of operands. -/
def RenamedAndSwapped (p q : Ast) : Prop :=
  ∃ ρ, OneToOne (scopeNames p) (scopeNames q) ρ ∧ SameUpTo OneToOne p ρ q

/-- Operands swapped and nothing else. -/
def Rearranged (x y : Ast) : Prop := SameUpTo (fun _ _ ρ => ρ = id) x id y

/-! ### The transformer numbers the names, then orders the operands -/

/-- `names` with those of `ids` that it does not have, in the order they come. -/
def seen (names : Names) (ids : List Word) : Names :=
  ids.foldl (fun seen k => if k ∈ seen then seen else seen ++ [k]) names

theorem seen_append (names : Names) (ids more : List Word) :
    seen names (ids ++ more) = seen (seen names ids) more := foldl_append

theorem prefix_seen (names : Names) (ids : List Word) : names <+: seen names ids := by
  induction ids generalizing names with
  | nil => exact prefix_rfl
  | cons id ids ih =>
    refine List.IsPrefix.trans ?_ (ih _)
    show names <+: if id ∈ names then names else names ++ [id]
    split
    · exact prefix_rfl
    · exact prefix_append _ _

theorem canonicalize_eq (names : Names) (id : Word) {later : Names}
    (h : seen names [id] <+: later) :
    canonicalize names id = (canonicalName (later.idxOf id), seen names [id]) := by
  obtain ⟨more, rfl⟩ := h
  by_cases hid : id ∈ names
  · have hseen : seen names [id] = names := if_pos hid
    rw [canonicalize, if_pos hid, hseen, idxOf_append_of_mem hid]
  · have hseen : seen names [id] = names ++ [id] := if_neg hid
    rw [canonicalize, if_neg hid, hseen, append_assoc, idxOf_append_of_notMem hid]
    simp

mutual

/-- Every name as its number in `names`, the names of an inner function as their number in the
order in which they first occur there. -/
def numbered (names : Names) : Ast → Ast
  | .atom a => .atom a
  | .list xs => .list (numberedItems names xs)
  | .named kind id fs => .named kind (canonicalName (names.idxOf id))
      (if kind = .functionDef then numberedFields (LastWins.firstSeen (fieldsNames fs)) fs
      else numberedFields names fs)
  | .binOp left op right => .binOp (numbered names left) op (numbered names right)
  | .node cls fs => .node cls (numberedFields names fs)

def numberedItems (names : Names) : List Ast → List Ast
  | [] => []
  | x :: xs => numbered names x :: numberedItems names xs

def numberedFields (names : Names) : List (Word × Ast) → List (Word × Ast)
  | [] => []
  | (f, v) :: fs => (f, numbered names v) :: numberedFields names fs

end

mutual

/-- The operands of every commutative operator in the order of their dumps, from the leaves up. -/
def ordered : Ast → Ast
  | .atom a => .atom a
  | .list xs => .list (orderedItems xs)
  | .named kind id fs => .named kind id (orderedFields fs)
  | .binOp left op right => orderOperands (ordered left) op (ordered right)
  | .node cls fs => .node cls (orderedFields fs)

def orderedItems : List Ast → List Ast
  | [] => []
  | x :: xs => ordered x :: orderedItems xs

def orderedFields : List (Word × Ast) → List (Word × Ast)
  | [] => []
  | (f, v) :: fs => (f, ordered v) :: orderedFields fs

end

mutual

/-- What a visit returns, as two passes: the numbers are those that the names have once the scope
is through (`later`). -/
theorem visit_eq : ∀ (x : Ast) (names later : Names), seen names (scopeNames x) <+: later →
    visit x names = (ordered (numbered later x), seen names (scopeNames x))
  | .atom a, names, later, _ => rfl
  | .list xs, names, later, h => by
    simp only [visit, visitItems_eq xs names later h, numbered, ordered, scopeNames]
  | .named kind id fs, names, later, h => by
    by_cases hkind : kind = .functionDef
    · simp only [scopeNames, if_pos hkind] at h
      have hinner := visitFields_eq fs [] (firstSeen (fieldsNames fs)) prefix_rfl
      simp only [visit, if_pos hkind, canonicalize_eq names id h, hinner, numbered, ordered,
        scopeNames]
    · have happ : seen names (id :: fieldsNames fs) =
          seen (seen names [id]) (fieldsNames fs) := seen_append names [id] _
      simp only [scopeNames, if_neg hkind, happ] at h
      have hid : seen names [id] <+: later := (prefix_seen _ _).trans h
      simp only [visit, if_neg hkind, canonicalize_eq names id hid,
        visitFields_eq fs _ later h, numbered, ordered, scopeNames, happ]
  | .binOp left op right, names, later, h => by
    simp only [scopeNames, seen_append] at h
    have hleft : seen names (scopeNames left) <+: later := (prefix_seen _ _).trans h
    simp only [visit, visit_eq left names later hleft, visit_eq right _ later h, numbered, ordered,
      scopeNames, seen_append]
  | .node cls fs, names, later, h => by
    simp only [visit, visitFields_eq fs names later h, numbered, ordered, scopeNames]

theorem visitItems_eq : ∀ (xs : List Ast) (names later : Names),
    seen names (itemsNames xs) <+: later →
    visitItems xs names = (orderedItems (numberedItems later xs), seen names (itemsNames xs))
  | [], _, _, _ => rfl
  | x :: xs, names, later, h => by
    simp only [itemsNames, seen_append] at h
    have hx : seen names (scopeNames x) <+: later := (prefix_seen _ _).trans h
    simp only [visitItems, visit_eq x names later hx, visitItems_eq xs _ later h, numberedItems,
      orderedItems, itemsNames, seen_append]

theorem visitFields_eq : ∀ (fs : List (Word × Ast)) (names later : Names),
    seen names (fieldsNames fs) <+: later →
    visitFields fs names =
      (orderedFields (numberedFields later fs), seen names (fieldsNames fs))
  | [], _, _, _ => rfl
  | (f, v) :: fs, names, later, h => by
    simp only [fieldsNames, seen_append] at h
    have hv : seen names (scopeNames v) <+: later := (prefix_seen _ _).trans h
    simp only [visitFields, visit_eq v names later hv, visitFields_eq fs _ later h, numberedFields,
      orderedFields, fieldsNames, seen_append]

end

theorem visit_nil (x : Ast) : (visit x []).1 = ordered (numbered (firstSeen (scopeNames x)) x) := by
  rw [visit_eq x [] _ prefix_rfl]
  rfl

/-! ### Ordering the operands forgets swaps and nothing else -/

theorem orderOperands_eq_iff (a b a' b' : Ast) (op op' : Operator) :
    orderOperands a op b = orderOperands a' op' b' ↔
      op = op' ∧ (a = a' ∧ b = b' ∨ op.commutative = true ∧ a = b' ∧ b = a') := by
  constructor
  · intro h
    unfold orderOperands at h
    split_ifs at h with h₁ h₂ h₂ <;> obtain ⟨h₃, rfl, h₄⟩ := Ast.binOp.inj h
    · exact ⟨rfl, Or.inl ⟨h₄, h₃⟩⟩
    · exact ⟨rfl, Or.inr ⟨h₁.1, h₄, h₃⟩⟩
    · exact ⟨rfl, Or.inr ⟨h₂.1, h₃, h₄⟩⟩
    · exact ⟨rfl, Or.inl ⟨h₃, h₄⟩⟩
  · rintro ⟨rfl, ⟨rfl, rfl⟩ | ⟨hop, rfl, rfl⟩⟩
    · rfl
    · unfold orderOperands
      rcases lt_trichotomy a.dump b.dump with hlt | heq | hgt
      · rw [if_neg fun h => lt_asymm h.2 hlt, if_pos ⟨hop, hlt⟩]
      · rw [dump_inj heq]
      · rw [if_pos ⟨hop, hgt⟩, if_neg fun h => lt_asymm h.2 hgt]

theorem orderOperands_binOp (a : Ast) (op : Operator) (b : Ast) :
    ∃ a' b', orderOperands a op b = .binOp a' op b' := by
  unfold orderOperands
  split
  · exact ⟨b, a, rfl⟩
  · exact ⟨a, b, rfl⟩

mutual

theorem ordered_eq_iff : ∀ x y : Ast, ordered x = ordered y ↔ Rearranged x y
  | .atom a, y => by
    rw [Rearranged, SameUpTo]
    cases y with
    | binOp left op right =>
      obtain ⟨a', b', h⟩ := orderOperands_binOp (ordered left) op (ordered right)
      simp [ordered, h]
    | _ => simp [ordered, eq_comm]
  | .list xs, y => by
    rw [Rearranged, SameUpTo]
    cases y with
    | list ys => simp [ordered, orderedItems_eq_iff xs ys]
    | binOp left op right =>
      obtain ⟨a', b', h⟩ := orderOperands_binOp (ordered left) op (ordered right)
      simp [ordered, h]
    | _ => simp [ordered]
  | .named kind id fs, y => by
    rw [Rearranged, SameUpTo]
    cases y with
    | named kind' id' gs => simp [ordered, orderedFields_eq_iff fs gs, eq_comm, and_assoc]
    | binOp left op right =>
      obtain ⟨a', b', h⟩ := orderOperands_binOp (ordered left) op (ordered right)
      simp [ordered, h]
    | _ => simp [ordered]
  | .binOp left op right, y => by
    rw [Rearranged, SameUpTo]
    cases y with
    | binOp left' op' right' =>
      rw [ordered, ordered, orderOperands_eq_iff, ordered_eq_iff left left',
        ordered_eq_iff right right', ordered_eq_iff left right', ordered_eq_iff right left']
      constructor
      · rintro ⟨rfl, ⟨hl, hr⟩ | ⟨hop, hl, hr⟩⟩
        · exact ⟨left', right', hl, hr, Or.inl rfl⟩
        · exact ⟨right', left', hl, hr, Or.inr ⟨hop, rfl⟩⟩
      · rintro ⟨l, r, hl, hr, h | ⟨hop, h⟩⟩
        · obtain ⟨rfl, rfl, rfl⟩ := Ast.binOp.inj h
          exact ⟨rfl, Or.inl ⟨hl, hr⟩⟩
        · obtain ⟨rfl, rfl, rfl⟩ := Ast.binOp.inj h
          exact ⟨rfl, Or.inr ⟨hop, hl, hr⟩⟩
    | _ =>
      obtain ⟨a', b', h⟩ := orderOperands_binOp (ordered left) op (ordered right)
      simp [ordered, h]
  | .node cls fs, y => by
    rw [Rearranged, SameUpTo]
    cases y with
    | node cls' gs => simp [ordered, orderedFields_eq_iff fs gs, eq_comm]
    | binOp left op right =>
      obtain ⟨a', b', h⟩ := orderOperands_binOp (ordered left) op (ordered right)
      simp [ordered, h]
    | _ => simp [ordered]

theorem orderedItems_eq_iff : ∀ xs ys : List Ast,
    orderedItems xs = orderedItems ys ↔ SameItems (fun _ _ ρ => ρ = id) xs id ys
  | [], ys => by cases ys <;> simp [orderedItems, SameItems]
  | x :: xs, ys => by
    rw [SameItems]
    cases ys with
    | nil => simp [orderedItems]
    | cons y ys => simp [orderedItems, ordered_eq_iff x y, orderedItems_eq_iff xs ys, Rearranged]

theorem orderedFields_eq_iff : ∀ fs gs : List (Word × Ast),
    orderedFields fs = orderedFields gs ↔ SameFields (fun _ _ ρ => ρ = id) fs id gs
  | [], gs => by cases gs <;> simp [orderedFields, SameFields]
  | (f, v) :: fs, gs => by
    rw [SameFields]
    rcases gs with _ | ⟨⟨g, w⟩, gs⟩
    · simp [orderedFields]
    · simp [orderedFields, ordered_eq_iff v w, orderedFields_eq_iff fs gs, Rearranged, eq_comm,
        and_assoc]

end

/-! ### Numbers stand for names -/

mutual

theorem scopeNames_perm {enter : List Word → List Word → (Word → Word) → Prop} :
    ∀ (x : Ast) (ρ : Word → Word) (y : Ast), SameUpTo enter x ρ y →
      ((scopeNames x).map ρ).Perm (scopeNames y)
  | .atom a, ρ, y, h => by
    obtain rfl := h
    exact List.Perm.refl _
  | .list xs, ρ, y, h => by
    obtain ⟨ys, rfl, h⟩ := h
    exact itemsNames_perm xs ρ ys h
  | .named kind id fs, ρ, y, h => by
    rw [SameUpTo] at h
    obtain ⟨gs, rfl, h⟩ := h
    by_cases hkind : kind = .functionDef
    · simp [scopeNames, hkind]
    · rw [if_neg hkind] at h
      simpa [scopeNames, hkind] using fieldsNames_perm fs ρ gs h
  | .binOp left op right, ρ, y, h => by
    obtain ⟨left', right', hl, hr, rfl | ⟨-, rfl⟩⟩ := h
    · rw [scopeNames, scopeNames, map_append]
      exact (scopeNames_perm left ρ left' hl).append (scopeNames_perm right ρ right' hr)
    · rw [scopeNames, scopeNames, map_append]
      exact perm_append_comm.trans
        ((scopeNames_perm right ρ right' hr).append (scopeNames_perm left ρ left' hl))
  | .node cls fs, ρ, y, h => by
    obtain ⟨gs, rfl, h⟩ := h
    exact fieldsNames_perm fs ρ gs h

theorem itemsNames_perm {enter : List Word → List Word → (Word → Word) → Prop} :
    ∀ (xs : List Ast) (ρ : Word → Word) (ys : List Ast), SameItems enter xs ρ ys →
      ((itemsNames xs).map ρ).Perm (itemsNames ys)
  | [], ρ, ys, h => by
    obtain rfl := h
    exact List.Perm.refl _
  | x :: xs, ρ, ys, h => by
    obtain ⟨y, ys', rfl, hx, hxs⟩ := h
    rw [itemsNames, itemsNames, map_append]
    exact (scopeNames_perm x ρ y hx).append (itemsNames_perm xs ρ ys' hxs)

theorem fieldsNames_perm {enter : List Word → List Word → (Word → Word) → Prop} :
    ∀ (fs : List (Word × Ast)) (ρ : Word → Word) (gs : List (Word × Ast)),
      SameFields enter fs ρ gs → ((fieldsNames fs).map ρ).Perm (fieldsNames gs)
  | [], ρ, gs, h => by
    obtain rfl := h
    exact List.Perm.refl _
  | (f, v) :: fs, ρ, gs, h => by
    obtain ⟨w, gs', rfl, hv, hfs⟩ := h
    rw [fieldsNames, fieldsNames, map_append]
    exact (scopeNames_perm v ρ w hv).append (fieldsNames_perm fs ρ gs' hfs)

end

theorem canonicalName_injective : Function.Injective canonicalName := by
  intro m n h
  have htext : ['_', 'i', 'd'] ++ m.repr.toList = ['_', 'i', 'd'] ++ n.repr.toList :=
    congrArg Word.text h
  exact Nat.repr_injective (String.toList_inj.mp (append_cancel_left htext))

mutual

theorem scopeNames_numbered (names : Names) : ∀ x : Ast,
    scopeNames (numbered names x) = (scopeNames x).map fun id => canonicalName (names.idxOf id)
  | .atom a => rfl
  | .list xs => itemsNames_numbered names xs
  | .named kind id fs => by
    by_cases hkind : kind = .functionDef
    · simp [numbered, scopeNames, hkind]
    · simp [numbered, scopeNames, hkind, fieldsNames_numbered names fs]
  | .binOp left op right => by
    simp [numbered, scopeNames, scopeNames_numbered names left, scopeNames_numbered names right]
  | .node cls fs => fieldsNames_numbered names fs

theorem itemsNames_numbered (names : Names) : ∀ xs : List Ast,
    itemsNames (numberedItems names xs) =
      (itemsNames xs).map fun id => canonicalName (names.idxOf id)
  | [] => rfl
  | x :: xs => by
    simp [numberedItems, itemsNames, scopeNames_numbered names x, itemsNames_numbered names xs]

theorem fieldsNames_numbered (names : Names) : ∀ fs : List (Word × Ast),
    fieldsNames (numberedFields names fs) =
      (fieldsNames fs).map fun id => canonicalName (names.idxOf id)
  | [] => rfl
  | (f, v) :: fs => by
    simp [numberedFields, fieldsNames, scopeNames_numbered names v, fieldsNames_numbered names fs]

end

/-! ### Renamings and numbers -/

theorem nodup_firstSeen (ids : List Word) : (firstSeen ids).Nodup := by
  induction ids using reverseRecOn with
  | nil => exact nodup_nil
  | append_singleton ids id ih =>
    rw [firstSeen_concat]
    split
    case isTrue => exact ih
    case isFalse h => exact ih.append (nodup_singleton id) (by simpa using h)

theorem idxOf_renames {ids ids' : List Word} {ρ : Word → Word} (h : Renames ids ids' ρ) {id : Word}
    (hid : id ∈ ids) :
    (firstSeen ids').idxOf (ρ id) = (firstSeen ids).idxOf id := by
  have hlt := idxOf_lt_length_of_mem (mem_firstSeen.mpr hid)
  have hnodup := nodup_firstSeen ids'
  rw [h.2] at hnodup ⊢
  have hlt' : (firstSeen ids).idxOf id < ((firstSeen ids).map ρ).length := by simpa using hlt
  have hget : ((firstSeen ids).map ρ).get ⟨_, hlt'⟩ = ρ id := by simp
  rw [← hget]
  exact hnodup.idxOf_getElem _ hlt'

/-- The name that has in `names'` the number `id` has in `names`. -/
def sameNumber (names names' : Names) (id : Word) : Word := names'.getD (names.idxOf id) id

theorem eq_sameNumber {names names' : Names} {id id' : Word} (hid' : id' ∈ names')
    (h : names'.idxOf id' = names.idxOf id) : id' = sameNumber names names' id := by
  have hlt := idxOf_lt_length_of_mem hid'
  rw [sameNumber, ← h, getD_eq_getElem _ _ hlt, getElem_idxOf hlt]

theorem length_le_of_numbers {ids ids' : List Word}
    (h : ∀ id' ∈ ids', ∃ id ∈ ids, (firstSeen ids).idxOf id = (firstSeen ids').idxOf id') :
    (firstSeen ids').length ≤ (firstSeen ids).length := by
  by_contra hlt
  push Not at hlt
  have hmem : (firstSeen ids').get ⟨_, hlt⟩ ∈ ids' :=
    mem_firstSeen.mp (get_mem _ _)
  obtain ⟨id, hid, hidx⟩ := h _ hmem
  have hnum := (nodup_firstSeen ids').idxOf_getElem _ hlt
  have hid' := idxOf_lt_length_of_mem (mem_firstSeen.mpr hid)
  rw [hidx] at hid'
  exact absurd hid' (by simpa using hnum.ge)

/-- Where the numbers of two scopes are the same up to order, names with one number stand for each
other. -/
theorem renames_sameNumber {ids ids' : List Word}
    (h : (ids.map fun id => canonicalName ((firstSeen ids).idxOf id)).Perm
      (ids'.map fun id => canonicalName ((firstSeen ids').idxOf id))) :
    Renames ids ids' (sameNumber (firstSeen ids) (firstSeen ids')) := by
  have hle : (firstSeen ids').length ≤ (firstSeen ids).length := by
    refine length_le_of_numbers fun id' hid' => ?_
    obtain ⟨id, hid, heq⟩ := mem_map.mp (h.mem_iff.mpr (mem_map_of_mem hid'))
    exact ⟨id, hid, canonicalName_injective heq⟩
  have hge : (firstSeen ids).length ≤ (firstSeen ids').length := by
    refine length_le_of_numbers fun id hid => ?_
    obtain ⟨id', hid', heq⟩ := mem_map.mp (h.mem_iff.mp (mem_map_of_mem hid))
    exact ⟨id', hid', canonicalName_injective heq⟩
  have hmap : firstSeen ids' = (firstSeen ids).map
      (sameNumber (firstSeen ids) (firstSeen ids')) := by
    refine ext_getElem (by simpa using hle.antisymm hge) fun i hi hi' => ?_
    rw [getElem_map, sameNumber, (nodup_firstSeen ids).idxOf_getElem, getD_eq_getElem _ _ hi]
  refine ⟨fun a ha b hb heq => ?_, hmap⟩
  have hnodup := nodup_firstSeen ids'
  rw [hmap] at hnodup
  exact inj_on_of_nodup_map hnodup (mem_firstSeen.mpr ha) (mem_firstSeen.mpr hb) heq

mutual

theorem rearranged_numbered : ∀ (x : Ast) (ρ : Word → Word) (y : Ast) (names names' : Names),
    SameUpTo Renames x ρ y → (∀ id ∈ scopeNames x, names'.idxOf (ρ id) = names.idxOf id) →
    Rearranged (numbered names x) (numbered names' y)
  | .atom a, ρ, y, names, names', h, _ => by
    obtain rfl := h
    rfl
  | .list xs, ρ, y, names, names', h, hnum => by
    obtain ⟨ys, rfl, h⟩ := h
    exact ⟨_, rfl, rearrangedItems_numbered xs ρ ys names names' h hnum⟩
  | .named kind id fs, ρ, y, names, names', h, hnum => by
    rw [SameUpTo] at h
    obtain ⟨gs, rfl, h⟩ := h
    have hid := hnum id mem_cons_self
    rw [Rearranged, numbered, numbered, SameUpTo, hid]
    by_cases hkind : kind = .functionDef
    · rw [if_pos hkind] at h
      obtain ⟨ρ', hρ', h⟩ := h
      refine ⟨_, rfl, ?_⟩
      rw [if_pos hkind, if_pos hkind, if_pos hkind]
      exact ⟨_, rfl, rearrangedFields_numbered fs ρ' gs _ _ h fun _ => idxOf_renames hρ'⟩
    · rw [if_neg hkind] at h
      refine ⟨_, rfl, ?_⟩
      rw [if_neg hkind, if_neg hkind, if_neg hkind]
      refine rearrangedFields_numbered fs ρ gs _ _ h fun id' hid' => hnum id' ?_
      rw [scopeNames, if_neg hkind]
      exact mem_cons_of_mem _ hid'
  | .binOp left op right, ρ, y, names, names', h, hnum => by
    have hleft : ∀ id ∈ scopeNames left, names'.idxOf (ρ id) = names.idxOf id :=
      fun id hid => hnum id (mem_append_left _ hid)
    have hright : ∀ id ∈ scopeNames right, names'.idxOf (ρ id) = names.idxOf id :=
      fun id hid => hnum id (mem_append_right _ hid)
    obtain ⟨left', right', hl, hr, hy⟩ := h
    refine ⟨numbered names' left', numbered names' right',
      rearranged_numbered left ρ left' names names' hl hleft,
      rearranged_numbered right ρ right' names names' hr hright, ?_⟩
    rcases hy with rfl | ⟨hop, rfl⟩
    · exact Or.inl rfl
    · exact Or.inr ⟨hop, rfl⟩
  | .node cls fs, ρ, y, names, names', h, hnum => by
    obtain ⟨gs, rfl, h⟩ := h
    exact ⟨_, rfl, rearrangedFields_numbered fs ρ gs names names' h hnum⟩

theorem rearrangedItems_numbered : ∀ (xs : List Ast) (ρ : Word → Word) (ys : List Ast)
    (names names' : Names), SameItems Renames xs ρ ys →
    (∀ id ∈ itemsNames xs, names'.idxOf (ρ id) = names.idxOf id) →
    SameItems (fun _ _ ρ => ρ = id) (numberedItems names xs) id (numberedItems names' ys)
  | [], ρ, ys, names, names', h, _ => by
    obtain rfl := h
    rfl
  | x :: xs, ρ, ys, names, names', h, hnum => by
    obtain ⟨y, ys', rfl, hx, hxs⟩ := h
    exact ⟨_, _, rfl,
      rearranged_numbered x ρ y names names' hx fun id hid => hnum id (mem_append_left _ hid),
      rearrangedItems_numbered xs ρ ys' names names' hxs fun id hid =>
        hnum id (mem_append_right _ hid)⟩

theorem rearrangedFields_numbered : ∀ (fs : List (Word × Ast)) (ρ : Word → Word)
    (gs : List (Word × Ast)) (names names' : Names), SameFields Renames fs ρ gs →
    (∀ id ∈ fieldsNames fs, names'.idxOf (ρ id) = names.idxOf id) →
    SameFields (fun _ _ ρ => ρ = id) (numberedFields names fs) id (numberedFields names' gs)
  | [], ρ, gs, names, names', h, _ => by
    obtain rfl := h
    rfl
  | (f, v) :: fs, ρ, gs, names, names', h, hnum => by
    obtain ⟨w, gs', rfl, hv, hfs⟩ := h
    exact ⟨_, _, rfl,
      rearranged_numbered v ρ w names names' hv fun id hid => hnum id (mem_append_left _ hid),
      rearrangedFields_numbered fs ρ gs' names names' hfs fun id hid =>
        hnum id (mem_append_right _ hid)⟩

end

mutual

/-- Rearranged numbers come from a renaming: in every scope names with one number stand for each
other. -/
theorem sameUpTo_of_numbered : ∀ (x : Ast) (ρ : Word → Word) (y : Ast) (names names' : Names),
    Rearranged (numbered names x) (numbered names' y) →
    (∀ id ∈ scopeNames x, ∀ id' ∈ scopeNames y, names'.idxOf id' = names.idxOf id → id' = ρ id) →
    SameUpTo Renames x ρ y
  | .atom a, ρ, y, names, names', h, _ => by
    have hy : numbered names' y = .atom a := h
    cases y with
    | atom b => exact hy
    | _ => simp [numbered] at hy
  | .list xs, ρ, y, names, names', h, hnum => by
    obtain ⟨ys', hy, h⟩ := h
    cases y with
    | list ys =>
      obtain rfl := Ast.list.inj hy
      exact ⟨ys, rfl, sameItems_of_numbered xs ρ ys names names' h hnum⟩
    | _ => simp [numbered] at hy
  | .named kind id fs, ρ, y, names, names', h, hnum => by
    rw [Rearranged, numbered, SameUpTo] at h
    obtain ⟨gs', hy, h⟩ := h
    cases y with
    | named kind' id' gs =>
      rw [numbered] at hy
      obtain ⟨rfl, hid, hgs⟩ := Ast.named.inj hy
      subst hgs
      obtain rfl : id' = ρ id :=
        hnum id mem_cons_self id' mem_cons_self (canonicalName_injective hid)
      rw [SameUpTo]
      refine ⟨gs, rfl, ?_⟩
      by_cases hkind : kind' = .functionDef
      · rw [if_pos hkind, if_pos hkind, if_pos hkind] at h
        obtain ⟨_, rfl, h⟩ := h
        have hperm := fieldsNames_perm _ _ _ h
        rw [fieldsNames_numbered, fieldsNames_numbered, map_id] at hperm
        rw [if_pos hkind]
        exact ⟨_, renames_sameNumber hperm, sameFields_of_numbered fs _ gs _ _ h
          fun a _ b hb hab => eq_sameNumber (mem_firstSeen.mpr hb) hab⟩
      · rw [if_neg hkind, if_neg hkind, if_neg hkind] at h
        rw [if_neg hkind]
        refine sameFields_of_numbered fs ρ gs names names' h fun a ha b hb => hnum a ?_ b ?_
        · rw [scopeNames, if_neg hkind]
          exact mem_cons_of_mem _ ha
        · rw [scopeNames, if_neg hkind]
          exact mem_cons_of_mem _ hb
    | _ => simp [numbered] at hy
  | .binOp left op right, ρ, y, names, names', h, hnum => by
    obtain ⟨l, r, hl, hr, hy⟩ := h
    cases y with
    | binOp left' op' right' =>
      rcases hy with hy | ⟨hop, hy⟩
      · obtain ⟨rfl, rfl, rfl⟩ := Ast.binOp.inj hy
        refine ⟨left', right', ?_, ?_, Or.inl rfl⟩
        · exact sameUpTo_of_numbered left ρ left' names names' hl fun a ha b hb =>
            hnum a (mem_append_left _ ha) b (mem_append_left _ hb)
        · exact sameUpTo_of_numbered right ρ right' names names' hr fun a ha b hb =>
            hnum a (mem_append_right _ ha) b (mem_append_right _ hb)
      · obtain ⟨rfl, rfl, rfl⟩ := Ast.binOp.inj hy
        refine ⟨right', left', ?_, ?_, Or.inr ⟨hop, rfl⟩⟩
        · exact sameUpTo_of_numbered left ρ right' names names' hl fun a ha b hb =>
            hnum a (mem_append_left _ ha) b (mem_append_right _ hb)
        · exact sameUpTo_of_numbered right ρ left' names names' hr fun a ha b hb =>
            hnum a (mem_append_right _ ha) b (mem_append_left _ hb)
    | _ => simp [numbered] at hy
  | .node cls fs, ρ, y, names, names', h, hnum => by
    obtain ⟨gs', hy, h⟩ := h
    cases y with
    | node cls' gs =>
      obtain ⟨rfl, rfl⟩ := Ast.node.inj hy
      exact ⟨gs, rfl, sameFields_of_numbered fs ρ gs names names' h hnum⟩
    | _ => simp [numbered] at hy

theorem sameItems_of_numbered : ∀ (xs : List Ast) (ρ : Word → Word) (ys : List Ast)
    (names names' : Names),
    SameItems (fun _ _ ρ => ρ = id) (numberedItems names xs) id (numberedItems names' ys) →
    (∀ id ∈ itemsNames xs, ∀ id' ∈ itemsNames ys, names'.idxOf id' = names.idxOf id → id' = ρ id) →
    SameItems Renames xs ρ ys
  | [], ρ, ys, names, names', h, _ => by
    have hys : numberedItems names' ys = [] := h
    cases ys with
    | nil => rfl
    | cons y ys => simp [numberedItems] at hys
  | x :: xs, ρ, ys, names, names', h, hnum => by
    obtain ⟨y', ys', hys, hx, hxs⟩ := h
    cases ys with
    | nil => simp [numberedItems] at hys
    | cons y ys =>
      obtain ⟨rfl, rfl⟩ := cons.inj hys
      exact ⟨y, ys, rfl,
        sameUpTo_of_numbered x ρ y names names' hx fun a ha b hb =>
          hnum a (mem_append_left _ ha) b (mem_append_left _ hb),
        sameItems_of_numbered xs ρ ys names names' hxs fun a ha b hb =>
          hnum a (mem_append_right _ ha) b (mem_append_right _ hb)⟩

theorem sameFields_of_numbered : ∀ (fs : List (Word × Ast)) (ρ : Word → Word)
    (gs : List (Word × Ast)) (names names' : Names),
    SameFields (fun _ _ ρ => ρ = id) (numberedFields names fs) id (numberedFields names' gs) →
    (∀ id ∈ fieldsNames fs, ∀ id' ∈ fieldsNames gs,
      names'.idxOf id' = names.idxOf id → id' = ρ id) →
    SameFields Renames fs ρ gs
  | [], ρ, gs, names, names', h, _ => by
    have hgs : numberedFields names' gs = [] := h
    cases gs with
    | nil => rfl
    | cons g gs => simp [numberedFields] at hgs
  | (f, v) :: fs, ρ, gs, names, names', h, hnum => by
    obtain ⟨w', gs', hgs, hv, hfs⟩ := h
    rcases gs with _ | ⟨⟨g, w⟩, gs⟩
    · simp [numberedFields] at hgs
    · obtain ⟨hhead, rfl⟩ := cons.inj hgs
      obtain ⟨rfl, rfl⟩ := Prod.mk.inj hhead
      exact ⟨w, gs, rfl,
        sameUpTo_of_numbered v ρ w names names' hv fun a ha b hb =>
          hnum a (mem_append_left _ ha) b (mem_append_left _ hb),
        sameFields_of_numbered fs ρ gs names names' hfs fun a ha b hb =>
          hnum a (mem_append_right _ ha) b (mem_append_right _ hb)⟩

end

/-- **Two trees have one normal form exactly when they differ cosmetically.** -/
theorem visit_eq_iff (p q : Ast) : (visit p []).1 = (visit q []).1 ↔ Cosmetic p q := by
  rw [visit_nil, visit_nil, ordered_eq_iff]
  constructor
  · intro h
    have hperm := scopeNames_perm _ _ _ h
    rw [scopeNames_numbered, scopeNames_numbered, map_id] at hperm
    exact ⟨_, renames_sameNumber hperm, sameUpTo_of_numbered p _ q _ _ h fun a _ b hb hab =>
      eq_sameNumber (mem_firstSeen.mpr hb) hab⟩
  · rintro ⟨ρ, hρ, h⟩
    exact rearranged_numbered p ρ q _ _ h fun id hid => idxOf_renames hρ hid

theorem isStructuralMutation_ok {parse : String → Except String Ast} {previous candidate : String}
    {p q : Ast} (hp : parse previous = .ok p) (hq : parse candidate = .ok q) :
    isStructuralMutation parse previous candidate =
      .ok ((visit p []).1.dump != (visit q []).1.dump) := by
  simp [isStructuralMutation, normalize, hp, hq]

section
variable {enter enter' : List Word → List Word → (Word → Word) → Prop}

mutual

theorem SameUpTo.mono (h : ∀ ids ids' ρ, enter ids ids' ρ → enter' ids ids' ρ) :
    ∀ (x : Ast) {ρ : Word → Word} {y : Ast}, SameUpTo enter x ρ y → SameUpTo enter' x ρ y
  | .atom _, _, _, hy => hy
  | .list xs, _, _, ⟨ys, hy, hxs⟩ => ⟨ys, hy, SameItems.mono h xs hxs⟩
  | .named kind id fs, ρ, y, hy => by
    obtain ⟨gs, hy, hfs⟩ := hy
    refine ⟨gs, hy, ?_⟩
    by_cases hkind : kind = .functionDef
    · rw [if_pos hkind] at hfs ⊢
      obtain ⟨ρ', henter, hfs⟩ := hfs
      exact ⟨ρ', h _ _ _ henter, SameFields.mono h fs hfs⟩
    · rw [if_neg hkind] at hfs ⊢
      exact SameFields.mono h fs hfs
  | .binOp left _ right, _, _, ⟨l, r, hl, hr, hy⟩ =>
    ⟨l, r, SameUpTo.mono h left hl, SameUpTo.mono h right hr, hy⟩
  | .node _ fs, _, _, ⟨gs, hy, hfs⟩ => ⟨gs, hy, SameFields.mono h fs hfs⟩

theorem SameItems.mono (h : ∀ ids ids' ρ, enter ids ids' ρ → enter' ids ids' ρ) :
    ∀ (xs : List Ast) {ρ : Word → Word} {ys : List Ast},
      SameItems enter xs ρ ys → SameItems enter' xs ρ ys
  | [], _, _, hys => hys
  | x :: xs, _, _, ⟨y, ys, heq, hx, hxs⟩ =>
    ⟨y, ys, heq, SameUpTo.mono h x hx, SameItems.mono h xs hxs⟩

theorem SameFields.mono (h : ∀ ids ids' ρ, enter ids ids' ρ → enter' ids ids' ρ) :
    ∀ (fs : List (Word × Ast)) {ρ : Word → Word} {gs : List (Word × Ast)},
      SameFields enter fs ρ gs → SameFields enter' fs ρ gs
  | [], _, _, hgs => hgs
  | (_, v) :: fs, _, _, ⟨w, gs, heq, hv, hfs⟩ =>
    ⟨w, gs, heq, SameUpTo.mono h v hv, SameFields.mono h fs hfs⟩

end

end

theorem Cosmetic.renamedAndSwapped {p q : Ast} (h : Cosmetic p q) : RenamedAndSwapped p q := by
  obtain ⟨ρ, hρ, hsame⟩ := h
  exact ⟨ρ, hρ.1, SameUpTo.mono (fun _ _ _ hρ => hρ.1) p hsame⟩

mutual

/-- The names a program binds somewhere: functions, parameters, and names that are assigned. -/
def boundNames : Ast → List Word
  | .atom _ => []
  | .list xs => boundItems xs
  | .named kind id fs => (if kind = .name ∧ ¬ storesField fs then [] else [id]) ++ boundFields fs
  | .binOp left _ right => boundNames left ++ boundNames right
  | .node _ fs => boundFields fs

def boundItems : List Ast → List Word
  | [] => []
  | x :: xs => boundNames x ++ boundItems xs

def boundFields : List (Word × Ast) → List Word
  | [] => []
  | (_, v) :: fs => boundNames v ++ boundFields fs

/-- Whether a `Name` is in a `Store` context. -/
def storesField : List (Word × Ast) → Bool
  | [] => false
  | (_, .node cls _) :: fs => cls.word.text == ['S', 't', 'o', 'r', 'e'] || storesField fs
  | _ :: fs => storesField fs

end

/-- Nothing is renamed but what the program binds. -/
def FixesFree (p : Ast) (ρ : Word → Word) : Prop := ∀ id ∉ boundNames p, ρ id = id

/-- The second program comes from the first by renaming names that the first binds and by swaps of
operands. -/
def RenamesBound (p q : Ast) : Prop :=
  ∃ ρ, FixesFree p ρ ∧ SameUpTo (fun _ _ => FixesFree p) p ρ q

namespace FreeNames

def f : Word := ⟨['f'], by simp [Mark], by simp⟩
def g : Word := ⟨['g'], by simp [Mark], by simp⟩
def h : Word := ⟨['h'], by simp [Mark], by simp⟩
def args : Word := ⟨['a', 'r', 'g', 's'], by simp [Mark], by simp⟩
def body : Word := ⟨['b', 'o', 'd', 'y'], by simp [Mark], by simp⟩
def func : Word := ⟨['f', 'u', 'n', 'c'], by simp [Mark], by simp⟩
def value : Word := ⟨['v', 'a', 'l', 'u', 'e'], by simp [Mark], by simp⟩
def ctx : Word := ⟨['c', 't', 'x'], by simp [Mark], by simp⟩

def loadClass : OtherClass :=
  ⟨⟨['L', 'o', 'a', 'd'], by simp [Mark], by simp⟩, by decide, by intro k; cases k <;> decide⟩
def moduleClass : OtherClass :=
  ⟨⟨['M', 'o', 'd', 'u', 'l', 'e'], by simp [Mark], by simp⟩, by decide,
    by intro k; cases k <;> decide⟩
def callClass : OtherClass :=
  ⟨⟨['C', 'a', 'l', 'l'], by simp [Mark], by simp⟩, by decide, by intro k; cases k <;> decide⟩
def returnClass : OtherClass :=
  ⟨⟨['R', 'e', 't', 'u', 'r', 'n'], by simp [Mark], by simp⟩, by decide,
    by intro k; cases k <;> decide⟩
def argumentsClass : OtherClass :=
  ⟨⟨['a', 'r', 'g', 'u', 'm', 'e', 'n', 't', 's'], by simp [Mark], by simp⟩, by decide,
    by intro k; cases k <;> decide⟩

def loaded (id : Word) : Ast := .named .name id [(ctx, .node loadClass [])]

/-- `def f(): return result`. -/
def returning (result : Ast) : Ast :=
  .node moduleClass [(body, .list [.named .functionDef f
    [(args, .node argumentsClass []), (body, .list [.node returnClass [(value, result)]])]])]

def called (id : Word) : Ast := .node callClass [(func, loaded id)]

def callsG : Ast := returning (called g)
def callsH : Ast := returning (called h)

def parsed : String → Except String Ast := fun source =>
  if source = "def f(): return g()" then .ok callsG
  else if source = "def f(): return h()" then .ok callsH
  else .error "invalid syntax (<unknown>, line 1)"

theorem not_structural_calls : isStructuralMutation parsed "def f(): return g()"
    "def f(): return h()" = .ok false := by
  rw [isStructuralMutation_ok (p := callsG) (q := callsH) rfl rfl]
  decide

end FreeNames

end Xtrax.DiversityQuota
