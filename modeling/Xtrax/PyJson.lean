import Xtrax.Dict
import Xtrax.Utf8

/-!
# JSON as Python reads and writes it

`loads` reads a document as `json.loads` does: white space between tokens, numbers, strings with
escapes, of which a high and a low surrogate are joined, and objects whose last entry for a key
counts.  It fails with the error that the document is not JSON, that an integer has too many
digits, or that the nesting is too deep for the interpreter.  `dumps` is `json.dumps` with sorted
keys, the separators `,` and `:`, and everything outside of printable ASCII escaped.

A string of Python is a list of code points, surrogates included.
-/

namespace Xtrax.PyJson

abbrev PyStr := List CodePoint

instance lawfulBEqPyStr : LawfulBEq PyStr := inferInstance

/-- The code point with a number; only numbers below `0x110000` occur. -/
def point (n : Nat) : CodePoint := Fin.ofNat 0x110000 n

/-- A string of characters. -/
def py (s : String) : PyStr := s.toList.map fun c => point c.toNat

/-- A `float`, by the decimal number it was read from: the double is that number rounded. -/
inductive PyFloat
  | decimal (negative : Bool) (digits : Nat) (exponent : Int)
  | nan
  | infinity (negative : Bool)

/-- What a JSON document stands for. -/
inductive PyVal
  | none
  | bool (b : Bool)
  | int (n : Int)
  | float (x : PyFloat)
  | str (s : PyStr)
  | list (vs : List PyVal)
  | dict (entries : List (PyStr × PyVal))

/-- `{k: v, ...}` -/
def PyVal.obj (entries : List (String × PyVal)) : PyVal := .dict (entries.map fun (k, v) => (py k, v))

/-- How `json.loads` fails: `JSONDecodeError`, the `ValueError` of an integer with too many digits,
`RecursionError`. -/
inductive LoadError
  | decode
  | digits
  | recursion
  deriving DecidableEq, Repr

/-- A step of the reader: what it reads, from which text, and the text that is left. -/
abbrev Scanner (α : Type) := List Char → Except LoadError (α × List Char)

/-! ### Numbers -/

/-- `sys.get_int_max_str_digits()`. -/
def maxDigits : Nat := 4300

/-- The digits of an integer part: no digit follows a leading zero. -/
def scanInteger : List Char → Option (List Char × List Char)
  | '0' :: text => some (['0'], text)
  | text =>
    match text.span Char.isDigit with
    | ([], _) => .none
    | (digits, rest) => some (digits, rest)

/-- A point is a fraction's only if a digit follows. -/
def scanFraction : List Char → List Char × List Char
  | '.' :: text =>
    match text.span Char.isDigit with
    | ([], _) => ([], '.' :: text)
    | (digits, rest) => (digits, rest)
  | text => ([], text)

/-- The digits of an exponent after its sign. -/
def scanExponentDigits (negative : Bool) (text : List Char) : Option (Int × List Char) :=
  match text.span Char.isDigit with
  | ([], _) => .none
  | (digits, rest) =>
    some ((if negative then -1 else 1) * (Nat.ofDigitChars 10 digits 0 : Int), rest)

/-- An exponent, if there is one. -/
def scanExponent : List Char → Option (Int × List Char)
  | e :: text =>
    if e = 'e' ∨ e = 'E' then
      match text with
      | '-' :: text => scanExponentDigits true text
      | '+' :: text => scanExponentDigits false text
      | text => scanExponentDigits false text
    else .none
  | [] => .none

/-- The number whose integer part has been read. -/
def scanRest (negative : Bool) (digits : List Char) (text : List Char) :
    Except LoadError (PyVal × List Char) :=
  let (fraction, text) := scanFraction text
  match fraction, scanExponent text with
  | [], .none =>
    if maxDigits < digits.length then .error .digits
    else .ok (.int ((if negative then -1 else 1) * (Nat.ofDigitChars 10 digits 0 : Int)), text)
  | fraction, exponent =>
    let power : Int := (exponent.map Prod.fst).getD 0
    .ok (.float (.decimal negative (Nat.ofDigitChars 10 (digits ++ fraction) 0)
      (power - fraction.length)), (exponent.map Prod.snd).getD text)

/-- `_match_number`. -/
def scanNumber (text : List Char) : Except LoadError (PyVal × List Char) :=
  match text with
  | '-' :: text =>
    match scanInteger text with
    | some (digits, rest) => scanRest true digits rest
    | .none => .error .decode
  | text =>
    match scanInteger text with
    | some (digits, rest) => scanRest false digits rest
    | .none => .error .decode

/-! ### Strings -/

def hexValue (c : Char) : Option Nat :=
  if '0' ≤ c ∧ c ≤ '9' then some (c.toNat - 48)
  else if 'a' ≤ c ∧ c ≤ 'f' then some (c.toNat - 87)
  else if 'A' ≤ c ∧ c ≤ 'F' then some (c.toNat - 55)
  else .none

def hexValue4 (a b c d : Char) : Option Nat := do
  let a ← hexValue a
  let b ← hexValue b
  let c ← hexValue c
  let d ← hexValue d
  return a * 4096 + b * 256 + c * 16 + d

/-- The characters after a backslash, other than `u`. -/
def unescape (c : Char) : Option Nat :=
  if c = '"' then some 34
  else if c = '\\' then some 92
  else if c = '/' then some 47
  else if c = 'b' then some 8
  else if c = 'f' then some 12
  else if c = 'n' then some 10
  else if c = 'r' then some 13
  else if c = 't' then some 9
  else .none

def consUnit (u : Option Nat) (r : Option (List Nat × List Char)) :
    Option (List Nat × List Char) := do
  let u ← u
  let (us, rest) ← r
  return (u :: us, rest)

/-- The units of a string up to its closing quote: characters and escapes one by one. -/
def scanUnits : List Char → Option (List Nat × List Char)
  | '"' :: text => some ([], text)
  | '\\' :: 'u' :: a :: b :: c :: d :: text => consUnit (hexValue4 a b c d) (scanUnits text)
  | '\\' :: e :: text => consUnit (unescape e) (scanUnits text)
  | c :: text =>
    if c = '\\' ∨ c.toNat < 0x20 then .none else consUnit (some c.toNat) (scanUnits text)
  | [] => .none

def isHigh (u : Nat) : Bool := 0xD800 ≤ u && u ≤ 0xDBFF

def isLow (u : Nat) : Bool := 0xDC00 ≤ u && u ≤ 0xDFFF

/-- A high and a low surrogate one after the other are one code point. -/
def joinPairs : List Nat → List Nat
  | h :: l :: us =>
    if isHigh h ∧ isLow l then (0x10000 + (h - 0xD800) * 0x400 + (l - 0xDC00)) :: joinPairs us
    else h :: joinPairs (l :: us)
  | us => us

/-- `scanstring`, after the opening quote. -/
def scanString (text : List Char) : Except LoadError (PyStr × List Char) :=
  match scanUnits text with
  | some (us, rest) => .ok ((joinPairs us).map point, rest)
  | .none => .error .decode

/-! ### Values -/

def isSpace (c : Char) : Bool := c = ' ' || c = '\t' || c = '\n' || c = '\r'

def skipSpace (text : List Char) : List Char := text.dropWhile isSpace

/-- The values of an array, from the first one to the closing bracket.  The number of values is at
most that of the characters. -/
def scanItems (scan : Scanner PyVal) : Nat → Scanner (List PyVal)
  | 0, _ => .error .decode
  | fuel + 1, text => do
    let (v, rest) ← scan text
    match skipSpace rest with
    | ']' :: rest => .ok ([v], rest)
    | ',' :: rest => do
      let (vs, rest) ← scanItems scan fuel (skipSpace rest)
      return (v :: vs, rest)
    | _ => .error .decode

/-- One member of an object. -/
def scanMember (scan : Scanner PyVal) : Scanner (PyStr × PyVal)
  | '"' :: text => do
    let (key, rest) ← scanString text
    match skipSpace rest with
    | ':' :: rest => do
      let (v, rest) ← scan (skipSpace rest)
      return ((key, v), rest)
    | _ => .error .decode
  | _ => .error .decode

/-- The members of an object, from the first key to the closing brace. -/
def scanMembers (scan : Scanner PyVal) : Nat → Scanner (List (PyStr × PyVal))
  | 0, _ => .error .decode
  | fuel + 1, text => do
    let (member, rest) ← scanMember scan text
    match skipSpace rest with
    | '}' :: rest => .ok ([member], rest)
    | ',' :: rest => do
      let (members, rest) ← scanMembers scan fuel (skipSpace rest)
      return (member :: members, rest)
    | _ => .error .decode

/-- The dictionary with the members of an object. -/
def ofMembers (members : List (PyStr × PyVal)) : PyVal :=
  .dict ((∅ : Dict PyStr PyVal).update members).entries

/-- What follows an opening brace. -/
def scanObject (scan : Scanner PyVal) (text : List Char) : Except LoadError (PyVal × List Char) :=
  match skipSpace text with
  | '}' :: rest => .ok (.dict [], rest)
  | text => do
    let (members, rest) ← scanMembers scan text.length text
    return (ofMembers members, rest)

/-- What follows an opening bracket. -/
def scanArray (scan : Scanner PyVal) (text : List Char) : Except LoadError (PyVal × List Char) :=
  match skipSpace text with
  | ']' :: rest => .ok (.list [], rest)
  | text => do
    let (vs, rest) ← scanItems scan text.length text
    return (.list vs, rest)

/-- The values that are written as a name. -/
def scanName : List Char → Option (PyVal × List Char)
  | 'n' :: 'u' :: 'l' :: 'l' :: text => some (.none, text)
  | 't' :: 'r' :: 'u' :: 'e' :: text => some (.bool true, text)
  | 'f' :: 'a' :: 'l' :: 's' :: 'e' :: text => some (.bool false, text)
  | 'N' :: 'a' :: 'N' :: text => some (.float .nan, text)
  | 'I' :: 'n' :: 'f' :: 'i' :: 'n' :: 'i' :: 't' :: 'y' :: text =>
    some (.float (.infinity false), text)
  | '-' :: 'I' :: 'n' :: 'f' :: 'i' :: 'n' :: 'i' :: 't' :: 'y' :: text =>
    some (.float (.infinity true), text)
  | _ => .none

/-- The values other than strings, lists and dictionaries. -/
def scanPlain : Scanner PyVal := fun text =>
  match scanName text with
  | some r => .ok r
  | .none => scanNumber text

/-- `scan_once`, with the levels of nesting that are left. -/
def scanOnce : Nat → Scanner PyVal
  | 0, '{' :: _ => .error .recursion
  | 0, '[' :: _ => .error .recursion
  | depth + 1, '{' :: text => scanObject (scanOnce depth) text
  | depth + 1, '[' :: text => scanArray (scanOnce depth) text
  | _, '"' :: text => do
    let (s, rest) ← scanString text
    return (.str s, rest)
  | _, text => scanPlain text

def loads (depth : Nat) (text : List Char) : Except LoadError PyVal :=
  match text with
  | '\uFEFF' :: _ => .error .decode
  | text => do
    let (v, rest) ← scanOnce depth (skipSpace text)
    if skipSpace rest = [] then return v else .error .decode

/-! ### Writing -/

/-- The units of a code point: two surrogates for one beyond `0xFFFF`. -/
def toUnits (c : CodePoint) : List Nat :=
  if c.val < 0x10000 then [c.val]
  else [0xD800 + (c.val - 0x10000) / 0x400, 0xDC00 + (c.val - 0x10000) % 0x400]

/-- What is written for one unit. -/
def escapeUnit (u : Nat) : List Char :=
  if u = 34 then ['\\', '"']
  else if u = 92 then ['\\', '\\']
  else if u = 10 then ['\\', 'n']
  else if u = 13 then ['\\', 'r']
  else if u = 9 then ['\\', 't']
  else if u = 12 then ['\\', 'f']
  else if u = 8 then ['\\', 'b']
  else if 0x20 ≤ u ∧ u ≤ 0x7E then [Char.ofNat u]
  else ['\\', 'u', Nat.digitChar (u / 4096), Nat.digitChar (u / 256 % 16),
    Nat.digitChar (u / 16 % 16), Nat.digitChar (u % 16)]

/-- A string after its opening quote. -/
def quoted (s : PyStr) : List Char := (s.flatMap toUnits).flatMap escapeUnit ++ ['"']

/-- `int.__repr__`. -/
def intText (n : Int) : List Char :=
  if n < 0 then '-' :: Nat.toDigits 10 n.natAbs else Nat.toDigits 10 n.natAbs

section Text

-- `float.__repr__`
variable (floatRepr : PyFloat → List Char)

mutual

/-- The text of a value, its members in the order they are listed. -/
def PyVal.text : PyVal → List Char
  | .none => ['n', 'u', 'l', 'l']
  | .bool true => ['t', 'r', 'u', 'e']
  | .bool false => ['f', 'a', 'l', 's', 'e']
  | .int n => intText n
  | .float x => floatRepr x
  | .str s => '"' :: quoted s
  | .list vs => '[' :: itemsText vs
  | .dict entries => '{' :: membersText entries

/-- An array after its opening bracket. -/
def itemsText : List PyVal → List Char
  | [] => [']']
  | [v] => v.text ++ [']']
  | v :: w :: vs => v.text ++ ',' :: itemsText (w :: vs)

/-- An object after its opening brace. -/
def membersText : List (PyStr × PyVal) → List Char
  | [] => ['}']
  | [(k, v)] => '"' :: (quoted k ++ ':' :: (v.text ++ ['}']))
  | (k, v) :: m :: entries =>
    '"' :: (quoted k ++ ':' :: (v.text ++ ',' :: membersText (m :: entries)))

end

end Text

/-- An entry in its place among entries that are in the order of their keys. -/
def insertEntry {β : Type} (k : PyStr) (v : β) : List (PyStr × β) → List (PyStr × β)
  | [] => [(k, v)]
  | e :: entries =>
    if k < e.1 then (k, v) :: e :: entries
    else if k = e.1 then (k, v) :: entries
    else e :: insertEntry k v entries

/-- Entries in the order of their keys, the last one for each. -/
def sortEntries {β : Type} (entries : List (PyStr × β)) : List (PyStr × β) :=
  entries.foldl (fun sorted e => insertEntry e.1 e.2 sorted) []

mutual

/-- The value with the entries of every dictionary in the order of their keys. -/
def PyVal.sortKeys : PyVal → PyVal
  | .list vs => .list (sortKeysItems vs)
  | .dict entries => .dict (sortEntries (sortKeysEntries entries))
  | v => v

def sortKeysItems : List PyVal → List PyVal
  | [] => []
  | v :: vs => v.sortKeys :: sortKeysItems vs

def sortKeysEntries : List (PyStr × PyVal) → List (PyStr × PyVal)
  | [] => []
  | (k, v) :: entries => (k, v.sortKeys) :: sortKeysEntries entries

end

mutual

/-- No integer has more digits than are written. -/
def PyVal.printable : PyVal → Bool
  | .int n => (Nat.toDigits 10 n.natAbs).length ≤ maxDigits
  | .list vs => printableItems vs
  | .dict entries => printableEntries entries
  | _ => true

def printableItems : List PyVal → Bool
  | [] => true
  | v :: vs => v.printable && printableItems vs

def printableEntries : List (PyStr × PyVal) → Bool
  | [] => true
  | (_, v) :: entries => v.printable && printableEntries entries

end

mutual

/-- The strings of a value, keys included. -/
def PyVal.strings : PyVal → List PyStr
  | .str s => [s]
  | .list vs => itemsStrings vs
  | .dict entries => entriesStrings entries
  | _ => []

def itemsStrings : List PyVal → List PyStr
  | [] => []
  | v :: vs => v.strings ++ itemsStrings vs

def entriesStrings : List (PyStr × PyVal) → List PyStr
  | [] => []
  | (k, v) :: entries => k :: (v.strings ++ entriesStrings entries)

end

/-- `json.dumps(v, sort_keys=True, separators=(",", ":"))`. -/
def dumps (floatRepr : PyFloat → List Char) (v : PyVal) : Option (List Char) :=
  if v.printable then some (v.sortKeys.text floatRepr) else .none

end Xtrax.PyJson
