import Mathlib
import Xtrax.Utf8

/-!
# Syntax trees and their dump

`Ast` is a Python syntax tree, cut along what the diversity quota's transformer looks at: the
nodes with a name of their own (`Name`, `arg`, `FunctionDef`), binary operations, and every other
node with its fields.  `Ast.dump` is the text that `ast.dump` writes.

The text determines the tree (`dump_inj`), so that comparing texts compares trees.
-/

namespace Xtrax.DiversityQuota

open List

/-! ### Words, constants and trees -/

/-- The characters that a dump sets around names, class names and numbers. -/
def Mark (c : Char) : Prop :=
  c = '\'' ∨ c = '"' ∨ c = '(' ∨ c = ')' ∨ c = '[' ∨ c = ']' ∨ c = ',' ∨ c = '=' ∨ c = ' '

instance : DecidablePred Mark :=
  fun _ => inferInstanceAs (Decidable (_ ∨ _ ∨ _ ∨ _ ∨ _ ∨ _ ∨ _ ∨ _ ∨ _))

/-- An identifier, a class name, a field name or the text of a number. -/
@[ext]
structure Word where
  text : List Char
  plain : ∀ c ∈ text, ¬ Mark c
  ne_nil : text ≠ []
  deriving DecidableEq

/-- Whether a text goes on to the end without meeting the quote it stands in, except after a
backslash. -/
def inside (q : Char) : List Char → Bool
  | [] => true
  | ['\\'] => false
  | '\\' :: _ :: s => inside q s
  | c :: s => c != q && inside q s

/-- The quote that `repr` chose. -/
def quoteChar (double : Bool) : Char := if double then '"' else '\''

/-- A field's value that is neither a node nor a list, by its `repr`: a number or a singleton such
as `None`, or a string or bytes between quotes. -/
inductive Atom where
  | word (w : Word)
  | quoted (bytes double : Bool) (body : List Char) (closed : inside (quoteChar double) body = true)

def Atom.repr : Atom → List Char
  | .word w => w.text
  | .quoted bytes double body _ =>
    (if bytes then ['b'] else []) ++ quoteChar double :: (body ++ [quoteChar double])

/-- The nodes that the transformer renames. -/
inductive Named where
  | name
  | arg
  | functionDef
  deriving DecidableEq

def Named.cls : Named → List Char
  | .name => ['N', 'a', 'm', 'e']
  | .arg => ['a', 'r', 'g']
  | .functionDef => ['F', 'u', 'n', 'c', 't', 'i', 'o', 'n', 'D', 'e', 'f']

/-- The field that holds the name: the node's first. -/
def Named.field : Named → List Char
  | .name => ['i', 'd']
  | .arg => ['a', 'r', 'g']
  | .functionDef => ['n', 'a', 'm', 'e']

inductive Operator where
  | add
  | sub
  | mult
  | matMult
  | div
  | mod
  | pow
  | lShift
  | rShift
  | bitOr
  | bitXor
  | bitAnd
  | floorDiv
  deriving DecidableEq

def Operator.cls : Operator → List Char
  | .add => ['A', 'd', 'd']
  | .sub => ['S', 'u', 'b']
  | .mult => ['M', 'u', 'l', 't']
  | .matMult => ['M', 'a', 't', 'M', 'u', 'l', 't']
  | .div => ['D', 'i', 'v']
  | .mod => ['M', 'o', 'd']
  | .pow => ['P', 'o', 'w']
  | .lShift => ['L', 'S', 'h', 'i', 'f', 't']
  | .rShift => ['R', 'S', 'h', 'i', 'f', 't']
  | .bitOr => ['B', 'i', 't', 'O', 'r']
  | .bitXor => ['B', 'i', 't', 'X', 'o', 'r']
  | .bitAnd => ['B', 'i', 't', 'A', 'n', 'd']
  | .floorDiv => ['F', 'l', 'o', 'o', 'r', 'D', 'i', 'v']

def binOpClass : List Char := ['B', 'i', 'n', 'O', 'p']

/-- The class of a node that the transformer has no visit method for. -/
@[ext]
structure OtherClass where
  word : Word
  other : word.text ≠ binOpClass ∧ ∀ kind : Named, word.text ≠ kind.cls

/-- A syntax tree.  The fields of a node are those that `ast.dump` shows, in its order: neither
absent nor an empty list. -/
inductive Ast where
  | atom (a : Atom)
  | list (items : List Ast)
  | named (kind : Named) (id : Word) (fields : List (Word × Ast))
  | binOp (left : Ast) (op : Operator) (right : Ast)
  | node (cls : OtherClass) (fields : List (Word × Ast))

mutual

/-- The text of `ast.dump`. -/
def Ast.dump : Ast → List Char
  | .atom a => a.repr
  | .list [] => ['[', ']']
  | .list (x :: xs) => '[' :: (x.dump ++ (dumpItems xs ++ [']']))
  | .named kind id fs =>
    kind.cls ++ '(' :: (kind.field ++ '=' :: '\'' :: (id.text ++ '\'' :: (dumpFields fs ++ [')'])))
  | .binOp l op r =>
    binOpClass ++ '(' :: (['l', 'e', 'f', 't', '='] ++ (l.dump ++ (',' :: ' ' :: 'o' :: 'p' :: '=' ::
      (op.cls ++ '(' :: ')' :: ',' :: ' ' :: (['r', 'i', 'g', 'h', 't', '='] ++
        (r.dump ++ [')']))))))
  | .node cls [] => cls.word.text ++ ['(', ')']
  | .node cls ((f, v) :: fs) =>
    cls.word.text ++ '(' :: (f.text ++ '=' :: (v.dump ++ (dumpFields fs ++ [')'])))

/-- Further items of a list, each after a comma. -/
def dumpItems : List Ast → List Char
  | [] => []
  | x :: xs => ',' :: ' ' :: (x.dump ++ dumpItems xs)

/-- Further fields of a node, each after a comma. -/
def dumpFields : List (Word × Ast) → List Char
  | [] => []
  | (f, v) :: fs => ',' :: ' ' :: (f.text ++ '=' :: (v.dump ++ dumpFields fs))

end

/-! ### A quoted text ends at its quote -/

/-- Reads up to the quote. -/
def readTo (q : Char) : List Char → Option (List Char × List Char)
  | [] => none
  | '\\' :: c :: s => (readTo q s).map fun p => ('\\' :: c :: p.1, p.2)
  | c :: s => if c = q then some ([], s) else (readTo q s).map fun p => (c :: p.1, p.2)

theorem readTo_inside {q : Char} (hq : q ≠ '\\') (r : List Char) : ∀ s : List Char,
    inside q s = true → readTo q (s ++ q :: r) = some (s, r) := by
  intro s
  induction s using inside.induct with
  | case1 =>
    intro _
    rw [nil_append, readTo.eq_def]
    split <;> simp_all
  | case2 => intro h; simp [inside] at h
  | case3 c s ih =>
    intro h
    rw [inside] at h
    simp [readTo, ih h]
  | case4 c s hend hnext ih =>
    intro h
    have hc : c ≠ '\\' := by
      rintro rfl
      cases s with
      | nil => exact hend rfl rfl
      | cons d s => exact hnext d s rfl rfl
    have hin : c ≠ q ∧ inside q s = true := by
      rw [inside.eq_def] at h
      split at h <;> simp_all
    have hread : readTo q (c :: (s ++ q :: r)) =
        if c = q then some ([], s ++ q :: r)
        else (readTo q (s ++ q :: r)).map fun p => (c :: p.1, p.2) := by
      rw [readTo.eq_def]
      split <;> simp_all
    rw [cons_append, hread, if_neg hin.1, ih hin.2]
    rfl

theorem inside_inj {q : Char} (hq : q ≠ '\\') {s t r r' : List Char} (hs : inside q s = true)
    (ht : inside q t = true) (h : s ++ q :: r = t ++ q :: r') : s = t ∧ r = r' := by
  have hread := readTo_inside hq r s hs
  rw [h, readTo_inside hq r' t ht] at hread
  cases hread
  exact ⟨rfl, rfl⟩

/-! ### What a dump starts with -/

/-- The word that a dump starts with. -/
def Ast.lead : Ast → List Char
  | .atom (.word w) => w.text
  | .atom (.quoted bytes _ _ _) => if bytes then ['b'] else []
  | .list _ => []
  | .named kind _ _ => kind.cls
  | .binOp _ _ _ => binOpClass
  | .node cls _ => cls.word.text

/-- What follows the word. -/
def Ast.tail (x : Ast) : List Char := x.dump.drop x.lead.length

theorem dump_eq (x : Ast) : x.dump = x.lead ++ x.tail := by
  have hlead : x.lead <+: x.dump := by
    cases x with
    | atom a => cases a <;> simp [Ast.dump, Ast.lead, Atom.repr]
    | list xs => simp [Ast.lead]
    | named kind id fs => simp [Ast.dump, Ast.lead]
    | binOp l op r => simp only [Ast.dump, Ast.lead, prefix_append]
    | node cls fs => rcases fs with _ | ⟨⟨f, v⟩, fs⟩ <;> simp [Ast.dump, Ast.lead]
  obtain ⟨t, ht⟩ := hlead
  rw [Ast.tail, ← ht, drop_left]

theorem cls_plain (kind : Named) : ∀ c ∈ kind.cls, ¬ Mark c := by
  cases kind <;> simp [Mark, Named.cls]

theorem lead_plain (x : Ast) : ∀ c ∈ x.lead, ¬ Mark c := by
  cases x with
  | atom a =>
    cases a with
    | word w => exact w.plain
    | quoted bytes double body closed =>
      have hb : ∀ c ∈ ['b'], ¬ Mark c := by simp [Mark]
      cases bytes with
      | true => exact hb
      | false => exact nofun
  | list xs => exact nofun
  | named kind id fs => exact cls_plain kind
  | binOp l op r =>
    have hb : ∀ c ∈ binOpClass, ¬ Mark c := by simp [Mark, binOpClass]
    exact hb
  | node cls fs => exact cls.word.plain

/-- The kinds of trees that the first word and the mark after it tell apart. -/
inductive Shape where
  | word
  | quoted
  | list
  | named (kind : Named)
  | binOp
  | node
  deriving DecidableEq

def Ast.shape : Ast → Shape
  | .atom (.word _) => .word
  | .atom (.quoted _ _ _ _) => .quoted
  | .list _ => .list
  | .named kind _ _ => .named kind
  | .binOp _ _ _ => .binOp
  | .node _ _ => .node

def shapeOf (lead : List Char) : Option Char → Shape
  | some '[' => .list
  | some '\'' => .quoted
  | some '"' => .quoted
  | some '(' =>
    if lead = Named.name.cls then .named .name
    else if lead = Named.arg.cls then .named .arg
    else if lead = Named.functionDef.cls then .named .functionDef
    else if lead = binOpClass then .binOp
    else .node
  | _ => .word

/-- What may follow a dump. -/
def Ends (r : List Char) : Prop := ∀ c ∈ r.head?, c = ',' ∨ c = ')' ∨ c = ']'

theorem ends_nil : Ends [] := nofun

theorem ends_cons {c : Char} (r : List Char) (h : c = ',' ∨ c = ')' ∨ c = ']') : Ends (c :: r) := by
  intro d hd
  obtain rfl := Option.some.inj hd
  exact h

theorem shapeOf_ends {lead r : List Char} (hr : Ends r) : shapeOf lead r.head? = .word := by
  cases r with
  | nil => rfl
  | cons c r =>
    obtain rfl | rfl | rfl := hr c rfl
    all_goals rfl

theorem mark_of_ends {r : List Char} (hr : Ends r) : ∀ c ∈ r.head?, ¬ ¬ Mark c := by
  intro c hc
  obtain rfl | rfl | rfl := hr c hc
  all_goals decide

theorem tail_head (x : Ast) {r : List Char} (hr : Ends r) :
    (∀ c ∈ (x.tail ++ r).head?, ¬ ¬ Mark c) ∧ shapeOf x.lead (x.tail ++ r).head? = x.shape := by
  cases x with
  | atom a =>
    cases a with
    | word w =>
      have htail : (Ast.atom (.word w)).tail = [] := by
        simp [Ast.tail, Ast.lead, Ast.dump, Atom.repr]
      rw [htail, nil_append]
      exact ⟨mark_of_ends hr, shapeOf_ends hr⟩
    | quoted bytes double body closed =>
      cases bytes <;> cases double <;>
        exact ⟨by simp [Ast.tail, Ast.lead, Ast.dump, Atom.repr, quoteChar, Mark],
          by simp [Ast.tail, Ast.lead, Ast.dump, Atom.repr, quoteChar, shapeOf, Ast.shape]⟩
  | list xs =>
    cases xs <;>
      exact ⟨by simp [Ast.tail, Ast.lead, Ast.dump, Mark],
        by simp [Ast.tail, Ast.lead, Ast.dump, shapeOf, Ast.shape]⟩
  | named kind id fs =>
    have htail : ∃ t, (Ast.named kind id fs).tail = '(' :: t :=
      ⟨_, by rw [Ast.tail, Ast.dump, Ast.lead, drop_left]⟩
    obtain ⟨t, ht⟩ := htail
    rw [ht]
    refine ⟨by simp [Mark], ?_⟩
    cases kind <;> rfl
  | binOp l op r' =>
    have htail : ∃ t, (Ast.binOp l op r').tail = '(' :: t :=
      ⟨_, by rw [Ast.tail, Ast.dump, Ast.lead, drop_left]⟩
    obtain ⟨t, ht⟩ := htail
    rw [ht]
    exact ⟨by simp [Mark], rfl⟩
  | node cls fs =>
    have htail : ∃ t, (Ast.node cls fs).tail = '(' :: t := by
      rcases fs with _ | ⟨⟨f, v⟩, fs⟩
      · exact ⟨_, by rw [Ast.tail, Ast.dump, Ast.lead, drop_left]⟩
      · exact ⟨_, by rw [Ast.tail, Ast.dump, Ast.lead, drop_left]⟩
    obtain ⟨t, ht⟩ := htail
    obtain ⟨hbin, hkind⟩ := cls.other
    rw [ht]
    refine ⟨by simp [Mark], ?_⟩
    show shapeOf cls.word.text (some '(') = .node
    simp only [shapeOf]
    rw [if_neg (hkind _), if_neg (hkind _), if_neg (hkind _), if_neg hbin]

/-- Two trees whose dumps agree, with what follows them, are of one kind, start with one word and
go on alike. -/
theorem lead_inj {x y : Ast} {r r' : List Char} (hr : Ends r) (hr' : Ends r')
    (h : x.dump ++ r = y.dump ++ r') :
    x.lead = y.lead ∧ x.tail ++ r = y.tail ++ r' ∧ x.shape = y.shape := by
  obtain ⟨hx, hxs⟩ := tail_head x hr
  obtain ⟨hy, hys⟩ := tail_head y hr'
  rw [dump_eq x, dump_eq y, append_assoc, append_assoc] at h
  obtain ⟨hlead, htail⟩ := run_inj (lead_plain x) (lead_plain y) hx hy h
  exact ⟨hlead, htail, by rw [← hxs, ← hys, hlead, htail]⟩

/-! ### The text determines the tree -/

theorem Operator.cls_inj {op op' : Operator} (h : op.cls = op'.cls) : op = op' := by
  revert h
  cases op <;> cases op' <;> decide

theorem op_plain (op : Operator) : ∀ c ∈ op.cls, ¬ Mark c := by
  cases op <;> simp [Mark, Operator.cls]

theorem ends_items (xs : List Ast) (r : List Char) : Ends (dumpItems xs ++ ']' :: r) := by
  cases xs with
  | nil => exact ends_cons r (Or.inr (Or.inr rfl))
  | cons x xs => exact ends_cons _ (Or.inl rfl)

theorem ends_fields (fs : List (Word × Ast)) (r : List Char) :
    Ends (dumpFields fs ++ ')' :: r) := by
  cases fs with
  | nil => exact ends_cons r (Or.inr (Or.inl rfl))
  | cons f fs => exact ends_cons _ (Or.inl rfl)

theorem mark_head {c : Char} {s : List Char} (hc : Mark c) : ∀ d ∈ (c :: s).head?, ¬ ¬ Mark d := by
  intro d hd
  obtain rfl := Option.some.inj hd
  exact not_not.mpr hc

theorem word_inj {v w : Word} {c : Char} {r r' : List Char} (hc : Mark c)
    (h : v.text ++ c :: r = w.text ++ c :: r') : v = w ∧ r = r' := by
  obtain ⟨htext, hrest⟩ := run_inj v.plain w.plain (mark_head hc) (mark_head hc) h
  exact ⟨Word.ext htext, (cons.inj hrest).2⟩

theorem word_ne_mark {w : Word} {c d : Char} {r r' : List Char} (hd : Mark d) (hcd : c ≠ d) :
    w.text ++ c :: r ≠ d :: r' := by
  intro h
  cases hw : w.text with
  | nil =>
    rw [hw] at h
    exact hcd (cons.inj h).1
  | cons e s =>
    rw [hw] at h
    obtain ⟨rfl, -⟩ := cons.inj h
    exact w.plain e (by rw [hw]; exact mem_cons_self) hd

theorem dump_ne_bracket {x : Ast} {r r' : List Char} (hr : Ends r) : x.dump ++ r ≠ ']' :: r' := by
  intro h
  rw [dump_eq, append_assoc] at h
  cases hlead : x.lead with
  | nil =>
    -- nothing but a word could stand before the bracket, and a word is not empty
    have hshape := (tail_head x hr).2
    rw [hlead, nil_append] at h
    rw [h, hlead] at hshape
    rcases x with (w | _) | _ | _ | _ | _
    case atom.word => exact w.ne_nil hlead
    all_goals exact Shape.noConfusion hshape
  | cons c s =>
    rw [hlead] at h
    obtain ⟨rfl, -⟩ := cons.inj h
    have hmark : Mark ']' := by decide
    exact lead_plain x _ (by rw [hlead]; exact mem_cons_self) hmark

mutual

/-- **The dump of a tree determines it**, whatever follows, as long as it ends a field or an
item. -/
theorem dump_append_inj : ∀ (x y : Ast) (r r' : List Char), Ends r → Ends r' →
    x.dump ++ r = y.dump ++ r' → x = y ∧ r = r'
  | .atom (.word w), y, r, r', hr, hr', h => by
    obtain ⟨hlead, htail, hshape⟩ := lead_inj hr hr' h
    rcases y with (⟨w'⟩ | _) | _ | _ | _ | _
    case atom.word =>
      obtain rfl : w = w' := Word.ext hlead
      exact ⟨rfl, by simpa using h⟩
    all_goals exact Shape.noConfusion hshape
  | .atom (.quoted bytes double body closed), y, r, r', hr, hr', h => by
    obtain ⟨hlead, htail, hshape⟩ := lead_inj hr hr' h
    rcases y with (_ | ⟨bytes', double', body', closed'⟩) | _ | _ | _ | _
    case atom.quoted =>
      obtain rfl : bytes = bytes' := by
        revert hlead
        cases bytes <;> cases bytes' <;> simp [Ast.lead]
      simp only [Ast.dump, Atom.repr, append_assoc, cons_append,
        append_cancel_left_eq, cons.injEq] at h
      obtain ⟨hquote, hbody⟩ := h
      obtain rfl : double = double' := by
        revert hquote
        cases double <;> cases double' <;> decide
      have hq : quoteChar double ≠ '\\' := by cases double <;> decide
      obtain ⟨rfl, hrest⟩ := inside_inj hq closed closed' hbody
      exact ⟨rfl, hrest⟩
    all_goals exact Shape.noConfusion hshape
  | .list [], y, r, r', hr, hr', h => by
    obtain ⟨-, -, hshape⟩ := lead_inj hr hr' h
    rcases y with (_ | _) | (_ | ⟨y, ys⟩) | _ | _ | _
    case list.nil => exact ⟨rfl, by simpa [Ast.dump] using h⟩
    case list.cons =>
      simp only [Ast.dump, cons_append, nil_append, append_assoc, cons.injEq, true_and] at h
      exact absurd h.symm (dump_ne_bracket (ends_items ys r'))
    all_goals exact Shape.noConfusion hshape
  | .list (x :: xs), y, r, r', hr, hr', h => by
    obtain ⟨-, -, hshape⟩ := lead_inj hr hr' h
    rcases y with (_ | _) | (_ | ⟨y, ys⟩) | _ | _ | _
    case list.nil =>
      simp only [Ast.dump, cons_append, nil_append, append_assoc, cons.injEq, true_and] at h
      exact absurd h (dump_ne_bracket (ends_items xs r))
    case list.cons =>
      simp only [Ast.dump, cons_append, nil_append, append_assoc, cons.injEq, true_and] at h
      obtain ⟨rfl, htail⟩ := dump_append_inj x y _ _ (ends_items xs r) (ends_items ys r') h
      obtain ⟨rfl, rfl⟩ := dumpItems_inj xs ys r r' htail
      exact ⟨rfl, rfl⟩
    all_goals exact Shape.noConfusion hshape
  | .named kind id fs, y, r, r', hr, hr', h => by
    obtain ⟨hlead, htail, hshape⟩ := lead_inj hr hr' h
    rcases y with (_ | _) | _ | ⟨kind', id', gs⟩ | _ | _
    case named =>
      obtain rfl : kind = kind' := Shape.named.inj hshape
      simp only [Ast.dump, append_assoc, cons_append, append_cancel_left_eq,
        cons.injEq, true_and] at h
      obtain ⟨rfl, hfields⟩ := word_inj (by decide) h
      obtain ⟨rfl, rfl⟩ := dumpFields_inj fs gs r r' (by simpa using hfields)
      exact ⟨rfl, rfl⟩
    all_goals exact Shape.noConfusion hshape
  | .binOp left op right, y, r, r', hr, hr', h => by
    obtain ⟨-, -, hshape⟩ := lead_inj hr hr' h
    rcases y with (_ | _) | _ | _ | ⟨left', op', right'⟩ | _
    case binOp =>
      simp only [Ast.dump, append_assoc, cons_append, nil_append,
        append_cancel_left_eq, cons.injEq, true_and] at h
      obtain ⟨rfl, hop⟩ := dump_append_inj left left' _ _ (ends_cons _ (Or.inl rfl))
        (ends_cons _ (Or.inl rfl)) h
      simp only [cons.injEq, true_and] at hop
      have hparen : Mark '(' := by decide
      obtain ⟨hcls, hright⟩ := run_inj (op_plain op) (op_plain op') (mark_head hparen)
        (mark_head hparen) hop
      simp only [cons.injEq, true_and] at hright
      obtain rfl := Operator.cls_inj hcls
      obtain ⟨rfl, hrest⟩ := dump_append_inj right right' _ _ (ends_cons _ (Or.inr (Or.inl rfl)))
        (ends_cons _ (Or.inr (Or.inl rfl))) hright
      exact ⟨rfl, (cons.inj hrest).2⟩
    all_goals exact Shape.noConfusion hshape
  | .node cls [], y, r, r', hr, hr', h => by
    obtain ⟨hlead, -, hshape⟩ := lead_inj hr hr' h
    rcases y with (_ | _) | _ | _ | _ | ⟨cls', _ | ⟨⟨g, w⟩, gs⟩⟩
    case node.nil =>
      obtain rfl : cls = cls' := OtherClass.ext (Word.ext hlead)
      exact ⟨rfl, append_cancel_left h⟩
    case node.cons =>
      obtain rfl : cls = cls' := OtherClass.ext (Word.ext hlead)
      simp only [Ast.dump, append_assoc, cons_append, nil_append,
        append_cancel_left_eq, cons.injEq, true_and] at h
      exact absurd h.symm (word_ne_mark (by decide) (by decide))
    all_goals exact Shape.noConfusion hshape
  | .node cls ((f, v) :: fs), y, r, r', hr, hr', h => by
    obtain ⟨hlead, -, hshape⟩ := lead_inj hr hr' h
    rcases y with (_ | _) | _ | _ | _ | ⟨cls', _ | ⟨⟨g, w⟩, gs⟩⟩
    case node.nil =>
      obtain rfl : cls = cls' := OtherClass.ext (Word.ext hlead)
      simp only [Ast.dump, append_assoc, cons_append, nil_append,
        append_cancel_left_eq, cons.injEq, true_and] at h
      exact absurd h (word_ne_mark (by decide) (by decide))
    case node.cons =>
      obtain rfl : cls = cls' := OtherClass.ext (Word.ext hlead)
      simp only [Ast.dump, append_assoc, cons_append, nil_append,
        append_cancel_left_eq, cons.injEq, true_and] at h
      obtain ⟨rfl, hvalue⟩ := word_inj (by decide) h
      obtain ⟨rfl, htail⟩ := dump_append_inj v w _ _ (ends_fields fs r) (ends_fields gs r') hvalue
      obtain ⟨rfl, rfl⟩ := dumpFields_inj fs gs r r' htail
      exact ⟨rfl, rfl⟩
    all_goals exact Shape.noConfusion hshape

theorem dumpItems_inj : ∀ (xs ys : List Ast) (r r' : List Char),
    dumpItems xs ++ ']' :: r = dumpItems ys ++ ']' :: r' → xs = ys ∧ r = r'
  | [], [], _, _, h => ⟨rfl, (cons.inj h).2⟩
  | [], _ :: _, _, _, h => by simp [dumpItems] at h
  | _ :: _, [], _, _, h => by simp [dumpItems] at h
  | x :: xs, y :: ys, r, r', h => by
    simp only [dumpItems, cons_append, append_assoc, cons.injEq, true_and] at h
    obtain ⟨rfl, htail⟩ := dump_append_inj x y _ _ (ends_items xs r) (ends_items ys r') h
    obtain ⟨rfl, rfl⟩ := dumpItems_inj xs ys r r' htail
    exact ⟨rfl, rfl⟩

theorem dumpFields_inj : ∀ (fs gs : List (Word × Ast)) (r r' : List Char),
    dumpFields fs ++ ')' :: r = dumpFields gs ++ ')' :: r' → fs = gs ∧ r = r'
  | [], [], _, _, h => ⟨rfl, (cons.inj h).2⟩
  | [], _ :: _, _, _, h => by simp [dumpFields] at h
  | _ :: _, [], _, _, h => by simp [dumpFields] at h
  | (f, v) :: fs, (g, w) :: gs, r, r', h => by
    simp only [dumpFields, cons_append, append_assoc, cons.injEq, true_and] at h
    obtain ⟨rfl, hvalue⟩ := word_inj (by decide) h
    obtain ⟨rfl, htail⟩ := dump_append_inj v w _ _ (ends_fields fs r) (ends_fields gs r') hvalue
    obtain ⟨rfl, rfl⟩ := dumpFields_inj fs gs r r' htail
    exact ⟨rfl, rfl⟩

end

theorem dump_inj {x y : Ast} (h : x.dump = y.dump) : x = y :=
  (dump_append_inj x y [] [] ends_nil ends_nil (by rw [h])).1

end Xtrax.DiversityQuota
