import Mathlib

/-! # Rows of the unit index

An index file is JSON lines: a row for each committed artifact, and a trailer at the end of
a segment whose writer has closed it.  A file is its bytes.  What JSON makes of a line is
taken from outside (`Outside`), with the round trip of `json.dumps` and `json.loads`.

`parse` is how every file is read, `hasTrailer` how the end of a segment is, and `collapse`
keeps one row of each place.
-/
namespace Xtrax.UnitIndex

abbrev Bytes := List UInt8

/-! ## Rows -/

def schemaVersion : Int := 1

/-- One index row: where a unit's committed artifact is, and which commit it carries. -/
structure IndexRow where
  store : String
  locator : String
  unitKey : String
  inputDigest : String
  contentDigest : String
  recordDigest : String
  adapter : String
  writerId : String
  runId : String
  ts : Rat
  reusedFrom : Option (String × String × String) := none
  schemaVersion : Int := UnitIndex.schemaVersion
  deriving DecidableEq

/-- What two rows must agree on to be collapsed. -/
structure Place where
  unitKey : String
  inputDigest : String
  contentDigest : String
  store : String
  locator : String
  deriving DecidableEq, Repr

/-- The compaction key. -/
def IndexRow.unitId (r : IndexRow) : String × String := (r.unitKey, r.inputDigest)

def IndexRow.place (r : IndexRow) : Place where
  unitKey := r.unitKey
  inputDigest := r.inputDigest
  contentDigest := r.contentDigest
  store := r.store
  locator := r.locator

/-- Tuples compare as the lists of their components do. -/
def Place.key (p : Place) : List String :=
  [p.unitKey, p.inputDigest, p.contentDigest, p.store, p.locator]

/-- The checks of `IndexRow.from_dict` on an object whose fields have the right types. -/
def IndexRow.accepted (r : IndexRow) : Bool :=
  r.schemaVersion = UnitIndex.schemaVersion &&
    [r.store, r.locator, r.unitKey, r.inputDigest, r.contentDigest, r.recordDigest].all (· ≠ "") &&
    match r.reusedFrom with
    | none => true
    | some (a, b, c) => a ≠ "" && b ≠ "" && c ≠ ""

/-! ## Lines -/

/-- What a line decodes to. -/
inductive Line
  | torn
  /-- `{"closed": true}`. -/
  | trailer
  /-- An object with a row's fields, each of its type. -/
  | row (r : IndexRow)
  | other

def newline : UInt8 := 10

/-- `{"closed": true}`, without the newline. -/
def trailerText : Bytes := [123, 34, 99, 108, 111, 115, 101, 100, 34, 58, 32, 116, 114, 117, 101, 125]

/-- `not raw.strip()`. -/
def isBlank (l : Bytes) : Bool := l.all fun b => b ∈ ([32, 9, 10, 13, 11, 12] : List UInt8)

structure Outside where
  /-- `json.dumps` of a row; `none` stands for an exception. -/
  rowText : IndexRow → Option Bytes
  /-- `json.loads`. -/
  decode : Bytes → Line
  /-- `canonical_store`; `none` stands for an exception. -/
  canonicalStore : String → Option String
  decode_rowText : ∀ r text, rowText r = some text → decode text = .row r
  newline_not_mem : ∀ r text, rowText r = some text → newline ∉ text
  rowText_not_blank : ∀ r text, rowText r = some text → isBlank text = false
  rowText_no_trailer : ∀ r text l, rowText r = some text → l <:+: text → decode l ≠ .trailer
  trailer_no_row : ∀ r l, l <+: trailerText → decode l ≠ .row r

section
variable (O : Outside)

/-- The lines of a file that are read: the blank ones are skipped. -/
def lines (data : Bytes) : List Bytes := (data.splitOn newline).filter fun l => !isBlank l

/-- `_Parsed`.  Bad lines are given by their numbers. -/
structure Parsed where
  rows : List IndexRow
  torn : List Nat
  unreadable : List Nat

/-- The row of a line, if this code accepts it. -/
def rowOf? (l : Bytes) : Option IndexRow :=
  match O.decode l with
  | .row r => if r.accepted then some r else none
  | _ => none

def isTorn (l : Bytes) : Bool :=
  match O.decode l with
  | .torn => true
  | _ => false

def isUnreadable (l : Bytes) : Bool :=
  match O.decode l with
  | .row r => !r.accepted
  | .other => true
  | _ => false

def parse (data : Bytes) : Parsed :=
  let numbered := (data.splitOn newline).zipIdx 1 |>.filter fun l => !isBlank l.1
  { rows := (lines data).filterMap (rowOf? O)
    torn := (numbered.filter fun l => isTorn O l.1).map (·.2)
    unreadable := (numbered.filter fun l => isUnreadable O l.1).map (·.2) }

/-- How much of a file's end `_has_trailer` reads. -/
def tailSize : Nat := 4096

def tailOf (data : Bytes) : Bytes := (data.reverse.take tailSize).reverse

/-- `_has_trailer`: the last line of the file's tail. -/
def hasTrailer (data : Bytes) : Bool :=
  match (lines (tailOf data)).getLast? with
  | none => false
  | some l =>
    match O.decode l with
    | .trailer => true
    | _ => false

/-- The text of a file of rows. -/
def render : List IndexRow → Option Bytes
  | [] => some []
  | r :: rest =>
    match O.rowText r, render rest with
    | some text, some more => some (text ++ newline :: more)
    | _, _ => none

end

/-! ## Collapsing -/

/-- `(r.ts, r.record_digest) > (cur.ts, cur.record_digest)`. -/
def IndexRow.laterThan (r cur : IndexRow) : Bool :=
  cur.ts < r.ts || (r.ts = cur.ts && cur.recordDigest < r.recordDigest)

/-- One row put into `by_place`. -/
def putRow (r : IndexRow) : List IndexRow → List IndexRow
  | [] => [r]
  | cur :: rest =>
    if cur.place = r.place then (if r.laterThan cur then r else cur) :: rest
    else cur :: putRow r rest

def byPlace (rows : List IndexRow) : List IndexRow := rows.foldl (fun kept r => putRow r kept) []

/-- One `(unit_key, input_digest)` with more than one content digest. -/
structure Conflict where
  unitKey : String
  inputDigest : String
  contentDigests : List String
  deriving DecidableEq, Repr

structure Collapsed where
  kept : List IndexRow
  collapsed : Nat
  copies : Nat
  conflicts : List Conflict

/-- The content digests of a unit, sorted. -/
def contentsOf (kept : List IndexRow) (unitId : String × String) : List String :=
  ((kept.filter fun r => r.unitId = unitId).map IndexRow.contentDigest).dedup.insertionSort (· ≤ ·)

def collapse (rows : List IndexRow) : Collapsed :=
  let kept := (byPlace rows).insertionSort fun a b => a.place.key ≤ b.place.key
  let unitIds := (kept.map IndexRow.unitId).dedup.insertionSort fun a b => [a.1, a.2] ≤ [b.1, b.2]
  let content (r : IndexRow) := (r.unitId, r.contentDigest)
  { kept := kept
    collapsed := rows.length - kept.length
    copies := ((kept.map content).dedup.map fun k => kept.countP (content · = k) - 1).sum
    conflicts := unitIds.filterMap fun u =>
      if 1 < (contentsOf kept u).length then
        some { unitKey := u.1, inputDigest := u.2, contentDigests := contentsOf kept u }
      else none }

end Xtrax.UnitIndex
