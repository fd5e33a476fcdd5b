import Xtrax.PyJsonRoundTrip
import Xtrax.Toml

/-!
# The text of TOML documents

A reader of TOML documents of comments, one-level table headers and entries of one line, whose
values are basic strings, decimal numbers, booleans, arrays and inline tables.  What else TOML has
is refused, so a document that is read is a TOML document.

A value whose text is read whatever follows it in the document (`Reads`) is an item of an array,
a member of an inline table or an entry of a line; the texts of strings (`reads_quote`) and of
numbers (`reads_integer`, `reads_float`) are.
-/

namespace Toml

open Xtrax.PyJson (hexValue4 maxDigits scanInteger)

variable {F : Type}

/-- The texts of floats: `float.__repr__` and `float`. -/
structure FloatText (F : Type) where
  repr : F → List Char
  read : List Char → F

/-- A step of the reader: what it reads, and the text that is left. -/
abbrev Scanner (A : Type) := List Char → Option (A × List Char)

def isBlank (c : Char) : Bool := c = ' ' || c = '\t'

def skipBlanks (text : List Char) : List Char := text.dropWhile isBlank

/-- Control characters other than the tab stand in no string and no comment. -/
def isIllegal (c : Char) : Bool := (c.toNat < 0x20 && c ≠ '\t') || c.toNat = 0x7F

/-! ### Strings and keys -/

/-- A Unicode scalar value by its number. -/
def scalar (n : Nat) : Option Char := if n.isValidChar then some (Char.ofNat n) else none

/-- The characters after a backslash, other than `u` and `U`. -/
def unescape : Char → Option Char
  | '"' => some '"'
  | '\\' => some '\\'
  | 'b' => some '\x08'
  | 't' => some '\t'
  | 'n' => some '\n'
  | 'f' => some '\x0c'
  | 'r' => some '\r'
  | _ => none

def consChar (c : Option Char) (r : Option (List Char × List Char)) :
    Option (List Char × List Char) := do
  let c ← c
  let (s, rest) ← r
  return (c :: s, rest)

/-- A basic string after its opening quote. -/
def scanBody : List Char → Option (List Char × List Char)
  | '"' :: rest => some ([], rest)
  | '\\' :: 'u' :: a :: b :: c :: d :: rest =>
    consChar (hexValue4 a b c d >>= scalar) (scanBody rest)
  | '\\' :: 'U' :: a :: b :: c :: d :: a' :: b' :: c' :: d' :: rest =>
    consChar (do
      let high ← hexValue4 a b c d
      let low ← hexValue4 a' b' c' d'
      scalar (high * 65536 + low)) (scanBody rest)
  | '\\' :: c :: rest => consChar (unescape c) (scanBody rest)
  | c :: rest => if c = '\\' || isIllegal c then none else consChar (some c) (scanBody rest)
  | [] => none

/-- A basic string; three quotes open one of several lines. -/
def scanString : Scanner (List Char)
  | '"' :: '"' :: '"' :: _ => none
  | '"' :: rest => scanBody rest
  | _ => none

def isBareKey (c : Char) : Bool := c.isAlphanum || c = '_' || c = '-'

/-- A bare or a quoted key. -/
def scanKey (text : List Char) : Option (List Char × List Char) :=
  if text.head? = some '"' then scanString text
  else
    match text.span isBareKey with
    | ([], _) => none
    | (key, rest) => some (key, rest)

/-! ### Numbers -/

def scanSign : List Char → List Char × List Char
  | '+' :: rest => (['+'], rest)
  | '-' :: rest => (['-'], rest)
  | text => ([], text)

/-- A point and digits. -/
def scanFraction : List Char → List Char × List Char
  | '.' :: text =>
    match text.span Char.isDigit with
    | ([], _) => ([], '.' :: text)
    | (digits, rest) => ('.' :: digits, rest)
  | text => ([], text)

/-- A letter, a sign and digits. -/
def scanExponent : List Char → List Char × List Char
  | [] => ([], [])
  | e :: text =>
    if e = 'e' ∨ e = 'E' then
      let (sign, rest) := scanSign text
      match rest.span Char.isDigit with
      | ([], _) => ([], e :: text)
      | (digits, rest) => (e :: (sign ++ digits), rest)
    else ([], e :: text)

/-- A decimal integer of not too many digits, or a float. -/
def scanNumber (floats : FloatText F) (text : List Char) : Option (Value F × List Char) := do
  let (sign, text) := scanSign text
  let (digits, text) ← scanInteger text
  let (fraction, text) := scanFraction text
  let (exponent, text) := scanExponent text
  if fraction = [] ∧ exponent = [] then
    if maxDigits < digits.length then none
    else
      let n : Int := Nat.ofDigitChars 10 digits 0
      some (.integer (if sign = ['-'] then -n else n), text)
  else some (.float (floats.read (sign ++ digits ++ fraction ++ exponent)), text)

/-! ### Values -/

/-- One item or more with commas between them, up to the closing bracket. -/
def scanSeparated {A : Type} (scan : Scanner A) (close : Char) : Nat → Scanner (List A)
  | 0, _ => none
  | fuel + 1, text => do
    let (item, rest) ← scan text
    match skipBlanks rest with
    | [] => none
    | c :: rest =>
      if c = close then some ([item], rest)
      else if c = ',' then
        let (items, rest) ← scanSeparated scan close fuel (skipBlanks rest)
        some (item :: items, rest)
      else none

/-- A key, an equals sign and a value. -/
def scanMember (scan : Scanner (Value F)) (text : List Char) :
    Option ((String × Value F) × List Char) := do
  let (key, rest) ← scanKey text
  match skipBlanks rest with
  | '=' :: rest =>
    let (v, rest) ← scan (skipBlanks rest)
    some ((String.ofList key, v), rest)
  | _ => none

/-- An array after its opening bracket. -/
def scanArray (scan : Scanner (Value F)) (text : List Char) : Option (Value F × List Char) :=
  match skipBlanks text with
  | ']' :: rest => some (.array [], rest)
  | text => do
    let (items, rest) ← scanSeparated scan ']' text.length text
    some (.array items, rest)

/-- An inline table after its opening brace: each key once. -/
def scanTable (scan : Scanner (Value F)) (text : List Char) : Option (Value F × List Char) :=
  match skipBlanks text with
  | '}' :: rest => some (.table [], rest)
  | text => do
    let (entries, rest) ← scanSeparated (scanMember scan) '}' text.length text
    if (entries.map Prod.fst).Nodup then some (.table entries, rest) else none

/-- A value of at most `depth` levels. -/
def scanValue (floats : FloatText F) : Nat → Scanner (Value F)
  | 0, _ => none
  | depth + 1, text =>
    match text with
    | '"' :: rest => (scanString ('"' :: rest)).map fun (s, rest) => (.text (String.ofList s), rest)
    | '[' :: rest => scanArray (scanValue floats depth) rest
    | '{' :: rest => scanTable (scanValue floats depth) rest
    | 't' :: 'r' :: 'u' :: 'e' :: rest => some (.boolean true, rest)
    | 'f' :: 'a' :: 'l' :: 's' :: 'e' :: rest => some (.boolean false, rest)
    | text => scanNumber floats text

/-! ### Documents -/

inductive Statement (F : Type)
  | blank
  | header (key : String)
  | entry (key : String) (v : Value F)

/-- Nothing but blanks and a comment is left of a line. -/
def ended (text : List Char) : Bool :=
  match skipBlanks text with
  | [] => true
  | '#' :: comment => comment.all fun c => !isIllegal c
  | _ => false

/-- The statement of a line. -/
def scanLine (floats : FloatText F) (line : List Char) : Option (Statement F) :=
  match skipBlanks line with
  | '[' :: rest => do
    let (key, rest) ← scanKey (skipBlanks rest)
    match skipBlanks rest with
    | ']' :: rest => if ended rest then some (.header (String.ofList key)) else none
    | _ => none
  | text =>
    if ended text then some .blank
    else do
      let ((key, v), rest) ← scanMember (scanValue floats line.length) text
      if ended rest then some (.entry key v) else none

/-- The entries before the first header, and the tables in order, of which the last is open. -/
structure Doc (F : Type) where
  root : Entries F
  tables : List (String × Entries F)

/-- A statement added: no key and no header twice. -/
def Doc.add (d : Doc F) : Statement F → Option (Doc F)
  | .blank => some d
  | .header key =>
    if key ∈ d.root.map Prod.fst ∨ key ∈ d.tables.map Prod.fst then none
    else some { d with tables := d.tables ++ [(key, [])] }
  | .entry key v =>
    match d.tables.getLast? with
    | none => if key ∈ d.root.map Prod.fst then none else some { d with root := d.root ++ [(key, v)] }
    | some (header, entries) =>
      if key ∈ entries.map Prod.fst then none
      else some { d with tables := d.tables.dropLast ++ [(header, entries ++ [(key, v)])] }

def Doc.addLine (floats : FloatText F) (d : Doc F) (line : List Char) : Option (Doc F) := do
  let statement ← scanLine floats line
  d.add statement

/-- The document read so far. -/
def Doc.entries (d : Doc F) : Entries F :=
  d.root ++ d.tables.map fun (header, entries) => (header, .table entries)

def lines : List Char → List (List Char)
  | [] => [[]]
  | '\n' :: text => [] :: lines text
  | c :: text =>
    match lines text with
    | [] => [[c]]
    | line :: rest => (c :: line) :: rest

/-- A document, read line by line. -/
def loads (floats : FloatText F) (text : List Char) : Option (Entries F) :=
  ((lines text).foldlM (Doc.addLine floats) ⟨[], []⟩).map Doc.entries

end Toml
