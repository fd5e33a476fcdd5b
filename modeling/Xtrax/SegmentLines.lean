import Xtrax.PyJsonIndent
import Xtrax.PyJsonPieces
import Xtrax.TextLines
import Xtrax.UnitIndexLines

/-! # The lines of a segment, as JSON

A row is written as one line of JSON, and read as `json.loads` and `IndexRow.from_dict` make it of a
line.  `_parse` reads all lines of a file, `_has_trailer` the last one of its tail.

The lines are decoded here, and not taken from outside, so that the lines which a write has broken off
can be told from those it has finished.  A segment is ASCII, which `json.loads` takes for UTF-8.
-/
namespace Xtrax.SegmentLines

open List

open PyJson hiding newline
open UnitIndex
open TextLines (decodeUtf8 decodeUtf8_utf8)
open Results (lookup_eq_some lookup_perm)

/-! ## Rows -/

inductive Number
  | int (n : Int)
  | float (x : PyFloat)

def Number.val : Number → PyVal
  | int n => .int n
  | float x => .float x

/-- `IndexRow`, with the strings of Python. -/
structure IndexRow where
  store : PyStr
  locator : PyStr
  unitKey : PyStr
  inputDigest : PyStr
  contentDigest : PyStr
  recordDigest : PyStr
  adapter : PyStr
  writerId : PyStr
  runId : PyStr
  ts : Number
  reusedFrom : Option (PyStr × PyStr × PyStr) := none
  schemaVersion : Number := .int 1

def reusedVal : Option (PyStr × PyStr × PyStr) → PyVal
  | none => .none
  | some (a, b, c) => .list [.str a, .str b, .str c]

def IndexRow.toDict (r : IndexRow) : List (String × PyVal) :=
  [("schema_version", r.schemaVersion.val), ("store", .str r.store), ("locator", .str r.locator),
    ("unit_key", .str r.unitKey), ("input_digest", .str r.inputDigest),
    ("content_digest", .str r.contentDigest), ("record_digest", .str r.recordDigest),
    ("adapter", .str r.adapter), ("writer_id", .str r.writerId), ("run_id", .str r.runId),
    ("ts", r.ts.val), ("reused_from", reusedVal r.reusedFrom)]

/-- What a line is read as. -/
inductive Decoded
  /-- A `ValueError` of `json.loads`. -/
  | torn
  /-- An object with `closed` true. -/
  | trailer
  | row (r : IndexRow)
  /-- No object, or a `RowError`. -/
  | unreadable
  | raises

/-! ## `from_dict` -/

section FromDict

variable (d : List (PyStr × PyVal))

/-- `d.get(f)`. -/
def field (f : String) : PyVal := (d.lookup (py f)).getD .none

/-- A float that equals 1: the number it was read from is rounded to it. -/
def isOne : PyFloat → Bool
  | .decimal false digits exponent =>
    let x : ℚ := digits * (10 : ℚ) ^ exponent
    1 - (1 / 2) ^ 54 ≤ x && x ≤ 1 + (1 / 2) ^ 53
  | _ => false

/-- `not isinstance(version, bool) and version == SCHEMA_VERSION`. -/
def isVersion : PyVal → Bool
  | .int n => n = 1
  | .float x => isOne x
  | _ => false

/-- `float(ts)`; nothing where an integer is too large. -/
def floatOf : PyVal → Option PyFloat
  | .int n =>
    if n.natAbs < 2 ^ 1024 - 2 ^ 970 then some (.decimal (n < 0) n.natAbs 0) else none
  | .float x => some x
  | _ => none

def isNumber : PyVal → Bool
  | .int _ | .float _ => true
  | _ => false

def strOf : PyVal → PyStr
  | .str s => s
  | _ => []

def isStr : PyVal → Bool
  | .str _ => true
  | _ => false

def requiredStr : List String :=
  ["store", "locator", "unit_key", "input_digest", "content_digest", "record_digest"]

def strFields : List String := ["adapter", "writer_id", "run_id"]

/-- `reused_from`: nothing where it is refused. -/
def reusedOf : PyVal → Option (Option (PyStr × PyStr × PyStr))
  | .none => some none
  | .list [.str a, .str b, .str c] =>
    if a ≠ [] ∧ b ≠ [] ∧ c ≠ [] then some (some (a, b, c)) else none
  | _ => none

def fromDict : Decoded :=
  if !isVersion (field d "schema_version") then .unreadable
  else if requiredStr.any fun f => strOf (field d f) = [] then .unreadable
  else if strFields.any fun f => !isStr (field d f) then .unreadable
  else if !isNumber (field d "ts") then .unreadable
  else
    match reusedOf (field d "reused_from") with
    | none => .unreadable
    | some reusedFrom =>
      match floatOf (field d "ts") with
      | none => .raises
      | some ts => .row {
          store := strOf (field d "store")
          locator := strOf (field d "locator")
          unitKey := strOf (field d "unit_key")
          inputDigest := strOf (field d "input_digest")
          contentDigest := strOf (field d "content_digest")
          recordDigest := strOf (field d "record_digest")
          adapter := strOf (field d "adapter")
          writerId := strOf (field d "writer_id")
          runId := strOf (field d "run_id")
          ts := .float ts
          reusedFrom := reusedFrom }

/-- `obj.get("closed") is True`. -/
def isClosed : Bool :=
  match field d "closed" with
  | .bool b => b
  | _ => false

end FromDict

/-! ## Lines -/

/-- What the index takes from outside: how deep nesting may be, `repr` of a float, which writes digits,
signs and the names of NaN and the infinities, and `canonical_store`. -/
structure Interpreter where
  depth : Nat
  floatRepr : PyFloat → List Char
  /-- Nothing stands for an exception. -/
  canonicalStore : PyStr → Option PyStr
  two_le_depth : 2 ≤ depth
  floatRepr_lone : ∀ x, ∀ c ∈ floatRepr x, c ∈ loneChars

section

variable (I : Interpreter)

/-- `to_json_line`, without the newline; nothing where an integer has too many digits. -/
def IndexRow.text (r : IndexRow) : Option (List Char) := dumps I.floatRepr (.obj r.toDict)

/-- What `_parse` makes of a line. -/
def decode (line : Bytes) : Decoded :=
  match decodeUtf8 line with
  | none => .torn
  | some text =>
    match loads I.depth text with
    | .error .recursion => .raises
    | .error _ => .torn
    | .ok (.dict d) => if isClosed d then .trailer else fromDict d
    | .ok _ => .unreadable

/-- What the line of a row is read as: nothing unless it is a row. -/
def readBack (r : IndexRow) : Option IndexRow :=
  match r.text I with
  | none => none
  | some text =>
    match decode I (utf8 text) with
    | .row r' => some r'
    | _ => none

theorem readBack_eq (r : IndexRow) :
    readBack I r = (r.text I).bind fun text =>
      match loads I.depth text with
      | .ok (.dict d) =>
        if isClosed d then none else match fromDict d with
          | .row r' => some r'
          | _ => none
      | _ => none := by
  unfold readBack decode
  cases r.text I with
  | none => rfl
  | some text =>
    simp only [decodeUtf8_utf8, Option.bind_some]
    cases loads I.depth text with
    | error e => cases e <;> rfl
    | ok v =>
      cases v with
      | dict d => dsimp only; cases isClosed d <;> rfl
      | _ => rfl

/-- `_Parsed`, with the numbers of bad lines. -/
structure Parsed where
  rows : List IndexRow
  torn : List Nat
  unreadable : List Nat
  trailer : Bool

def Decoded.row? : Decoded → Option IndexRow
  | row r => some r
  | _ => none

def Decoded.isTorn : Decoded → Bool
  | torn => true
  | _ => false

def Decoded.isTrailer : Decoded → Bool
  | trailer => true
  | _ => false

def Decoded.isUnreadable : Decoded → Bool
  | unreadable => true
  | _ => false

def Decoded.isRaised : Decoded → Bool
  | raises => true
  | _ => false

/-- `_parse`; nothing where it raises. -/
def parse (data : Bytes) : Option Parsed :=
  let numbered := ((data.splitOn newline).zipIdx 1).filter fun l => !isBlank l.1
  let decoded := (lines data).map (decode I)
  if decoded.any Decoded.isRaised then none
  else some {
    rows := decoded.filterMap Decoded.row?
    torn := (numbered.filter fun l => (decode I l.1).isTorn).map (·.2)
    unreadable := (numbered.filter fun l => (decode I l.1).isUnreadable).map (·.2)
    trailer := decoded.any Decoded.isTrailer }

/-- Whether a line is an object with `closed` true; nothing where this raises. -/
def closedLine (line : Bytes) : Option Bool :=
  match decodeUtf8 line with
  | none => some false
  | some text =>
    match loads I.depth text with
    | .error .recursion => none
    | .error _ => some false
    | .ok (.dict d) => some (isClosed d)
    | .ok _ => some false

/-- `_has_trailer`; nothing where it raises. -/
def hasTrailer (data : Bytes) : Option Bool :=
  match (lines (tailOf data)).getLast? with
  | none => some false
  | some line => closedLine I line

end

/-! ## Whole lines and broken ones -/

/-- The text of an object with at most one list in it, and no object. -/
def Shallow (text : List Char) : Prop := ∃ body, text = '{' :: (body ++ ['}']) ∧ Flat body 1

section Shallow

variable {I : Interpreter} {r : IndexRow} {text p s : List Char}

theorem flat_reusedVal (reusedFrom : Option (PyStr × PyStr × PyStr)) :
    Flat ((reusedVal reusedFrom).text I.floatRepr) 1 := by
  cases reusedFrom with
  | none => exact (flat_lone ['n', 'u', 'l', 'l'] (by decide)).mono (by omega)
  | some abc =>
    refine (flat_itemsText fun v hv => ?_).bracket
    simp only [mem_cons, not_mem_nil, or_false] at hv
    rcases hv with rfl | rfl | rfl
    · exact flat_quoted _
    · exact flat_quoted _
    · exact flat_quoted _

theorem flat_number (n : Number) : Flat (n.val.text I.floatRepr) 0 := by
  cases n with
  | int n => exact flat_intText n
  | float x => exact flat_lone _ (I.floatRepr_lone x)

/-- How many lists a value of a row is. -/
def listCount : PyVal → Nat
  | .list _ => 1
  | _ => 0

theorem flat_field {e : String × PyVal} (he : e ∈ r.toDict) :
    e.2.sortKeys = e.2 ∧ Flat (e.2.text I.floatRepr) (listCount e.2) := by
  have hstr : ∀ s, (PyVal.str s).sortKeys = .str s ∧
      Flat ((PyVal.str s).text I.floatRepr) (listCount (.str s)) := fun s => ⟨rfl, flat_quoted s⟩
  have hnumber : ∀ n : Number, n.val.sortKeys = n.val ∧
      Flat (n.val.text I.floatRepr) (listCount n.val) := by
    intro n
    have hflat := flat_number (I := I) n
    cases n with
    | int n => exact ⟨rfl, hflat⟩
    | float x => exact ⟨rfl, hflat⟩
  have hreused : ∀ reusedFrom, (reusedVal reusedFrom).sortKeys = reusedVal reusedFrom ∧
      Flat ((reusedVal reusedFrom).text I.floatRepr) (listCount (reusedVal reusedFrom)) := by
    intro reusedFrom
    cases reusedFrom with
    | none => exact ⟨rfl, flat_lone ['n', 'u', 'l', 'l'] (by decide)⟩
    | some abc => exact ⟨rfl, flat_reusedVal (some abc)⟩
  simp only [IndexRow.toDict, mem_cons, not_mem_nil, or_false] at he
  rcases he with rfl | rfl | rfl | rfl | rfl | rfl | rfl | rfl | rfl | rfl | rfl | rfl
  all_goals first | exact hstr _ | exact hnumber _ | exact hreused _

theorem nodup_toDict (r : IndexRow) :
    ((r.toDict.map fun (k, v) => (py k, v)).map Prod.fst).Nodup := by
  show (([ "schema_version", "store", "locator", "unit_key", "input_digest", "content_digest",
    "record_digest", "adapter", "writer_id", "run_id", "ts", "reused_from"] : List String).map
      py).Nodup
  decide

/-- **The text of a row.** -/
theorem shallow_row (h : r.text I = some text) : Shallow text := by
  obtain ⟨-, rfl⟩ := PyJson.dumps_eq_some h
  have hnames := nodup_toDict r
  have hperm := written_perm hnames
  have hflat : ∀ e ∈ written (r.toDict.map fun (k, v) => (py k, v)),
      Flat (e.2.text I.floatRepr) (listCount e.2) := by
    intro e he
    obtain ⟨e', he', rfl⟩ := exists_of_mem_written hnames he
    obtain ⟨e'', he'', rfl⟩ := mem_map.mp he'
    obtain ⟨hsort, hflat⟩ := flat_field (I := I) he''
    rw [hsort]
    exact hflat
  have hne : written (r.toDict.map fun (k, v) => (py k, v)) ≠ [] := by
    intro hnil
    have hlength := hperm.length_eq
    rw [hnil] at hlength
    cases hlength
  obtain ⟨body, hbody, hflat⟩ := flat_members listCount hne hflat
  refine ⟨body, ?_, hflat.mono ?_⟩
  · rw [PyVal.obj, sortKeys_dict, PyVal.text, hbody]
  · have hnumber : ∀ n : Number, listCount n.val.sortKeys = 0 := fun n => by cases n <;> rfl
    have hreused : ∀ reusedFrom, listCount (reusedVal reusedFrom).sortKeys ≤ 1 :=
      fun reusedFrom => by cases reusedFrom <;> simp [reusedVal, PyVal.sortKeys, listCount]
    have hstr : ∀ s, listCount (PyVal.str s).sortKeys = 0 := fun _ => rfl
    rw [(hperm.map fun e => listCount e.2).sum_nat, map_map, map_map]
    simpa [IndexRow.toDict, hnumber, hstr] using hreused r.reusedFrom

theorem shallow_trailer : Shallow "\x7b\"closed\": true\x7d".toList :=
  ⟨"\"closed\": true".toList, by decide, by decide, by decide, by decide, by decide⟩

/-- **A beginning of an object's text** is torn. -/
theorem Shallow.beginning (h : Shallow text) (hp : p <+: text) (hne : p ≠ []) (hcut : p ≠ text) :
    ∃ e, loads I.depth p = .error e ∧ e ≠ .recursion := by
  obtain ⟨body, rfl, hflat⟩ := h
  cases p with
  | nil => exact absurd rfl hne
  | cons c q =>
    obtain ⟨rfl, hq⟩ := cons_prefix_cons.mp hp
    have hbody : q <+: body := by
      rcases prefix_concat_iff.mp hq with rfl | hq
      · exact absurd rfl hcut
      · exact hq
    obtain ⟨more, rfl⟩ := hbody
    have hlex := hflat.lex
    rw [lex_append] at hlex
    obtain ⟨spot, hspot, -⟩ := Option.bind_eq_some_iff.mp hlex
    have houter := outer_append hspot more
    refine loads_beginning (fun hbrace => ?_) ?_
    · have hmem := hflat.outer '}' (by rw [houter]; exact mem_append_left _ hbrace)
      revert hmem
      decide
    · have hopens := hflat.opens
      rw [opens, houter, countP_append] at hopens
      rw [opens_open (.inr rfl), opens]
      have hdepth := I.two_le_depth
      omega

theorem isClosed_eq_false {d : List (PyStr × PyVal)}
    (h : ∀ e ∈ d, e.1.head? ≠ some (point 'c'.toNat)) : isClosed d = false := by
  have hnone : d.lookup (py "closed") = none := by
    refine lookup_eq_none_iff.mpr fun e he => bne_iff_ne.mpr fun heq => ?_
    refine h e he ?_
    rw [← heq]
    rfl
  rw [isClosed, field, hnone]
  rfl

/-- **An end of a beginning of an object's text** has no key of a trailer. -/
theorem Shallow.piece (h : Shallow text) (hp : p <+: text) (hs : s <:+ p) (hne : s ≠ p)
    {d : List (PyStr × PyVal)} (hd : loads I.depth s = .ok (.dict d)) : isClosed d = false := by
  obtain ⟨body, rfl, hflat⟩ := h
  obtain ⟨front, rfl⟩ := hs
  cases front with
  | nil => exact absurd rfl hne
  | cons c front =>
    obtain ⟨rfl, more, hmore⟩ := cons_prefix_cons.mp hp
    have hmore : (front ++ s) ++ more = body ++ ['}'] := hmore
    have hwhole : lex .outside (body ++ ['}']) = some .outside := by
      rw [lex_append, hflat.lex]
      rfl
    have houter : ∀ c ∈ outer .outside (body ++ ['}']), c ∈ outsideChars ∨ c = '}' := by
      intro c hc
      rw [outer_append hflat.lex] at hc
      rcases mem_append.mp hc with hc | hc
      · exact .inl (hflat.outer c hc)
      · exact .inr (mem_singleton.mp hc)
    have hnot : ∀ c ∈ outsideChars, c ≠ '{' ∧ point c.toNat ≠ point 'c'.toNat := by decide
    rw [← hmore, lex_append] at hwhole
    obtain ⟨spot, hspot, -⟩ := Option.bind_eq_some_iff.mp hwhole
    have hmem : ∀ c ∈ outer .outside (front ++ s), c ∈ outsideChars ∨ c = '}' := by
      intro c hc
      refine houter c ?_
      rw [← hmore, outer_append hspot]
      exact mem_append_left _ hc
    refine isClosed_eq_false (loads_ending front ?_ ?_ ?_ hd)
    · rw [hspot]
      exact nofun
    · intro hbrace
      rcases hmem _ hbrace with hc | hc
      · exact (hnot _ hc).1 rfl
      · cases hc
    · intro c hc
      rcases hmem c hc with hc | rfl
      · exact (hnot c hc).2
      · decide

end Shallow

/-! ## Their bytes -/

section Bytes

variable {I : Interpreter} {r : IndexRow} {text p : List Char} {line l a b : Bytes}

theorem utf8_ascii (h : ∀ c ∈ text, PyJson.Printable c) :
    utf8 text = text.map fun c => c.val.toUInt8 := by
  induction text with
  | nil => rfl
  | cons c text ih =>
    obtain ⟨hc, htext⟩ := forall_mem_cons.mp h
    have hsize : c.utf8Size = 1 := Char.utf8Size_eq_one_iff.mpr (hc.2.trans (by decide))
    rw [utf8_cons, ih htext, map_cons, String.utf8EncodeChar_eq_singleton hsize]
    rfl

theorem utf8_cut (h : ∀ c ∈ text, PyJson.Printable c) (hcut : a ++ b = utf8 text) :
    ∃ p s, text = p ++ s ∧ a = utf8 p ∧ b = utf8 s := by
  rw [utf8_ascii h] at hcut
  obtain ⟨p, s, rfl, rfl, rfl⟩ := append_eq_map_iff.mp hcut
  obtain ⟨hp, hs⟩ := forall_mem_append.mp h
  exact ⟨p, s, rfl, (utf8_ascii hp).symm, (utf8_ascii hs).symm⟩

theorem Shallow.printable (h : Shallow text) : ∀ c ∈ text, PyJson.Printable c := by
  obtain ⟨body, rfl, hflat⟩ := h
  exact forall_mem_cons.mpr ⟨by decide, forall_mem_append.mpr ⟨hflat.printable, by decide⟩⟩

theorem Shallow.newline_not_mem (h : Shallow text) : newline ∉ utf8 text := by
  refine TextLines.newline_notMem_utf8 fun c hc heq => ?_
  have hprintable := h.printable c hc
  rw [heq] at hprintable
  exact absurd hprintable (by decide)

theorem Shallow.not_blank (h : Shallow text) (hp : p <+: text) (hne : p ≠ []) :
    isBlank (utf8 p) = false := by
  obtain ⟨body, rfl, -⟩ := h
  cases p with
  | nil => exact absurd rfl hne
  | cons c p =>
    obtain ⟨rfl, -⟩ := cons_prefix_cons.mp hp
    rfl

/-- **What of a line was written**: nothing that is read, or a beginning of it. -/
theorem Shallow.lines_written (h : Shallow text) (hl : l <+: utf8 text ++ [newline]) :
    lines l = [] ∧ ¬ utf8 text <+: l ∨
      ∃ p, p <+: text ∧ p ≠ [] ∧ lines l = [utf8 p] ∧ (p = text ↔ utf8 text <+: l) := by
  have hne : text ≠ [] := by
    obtain ⟨body, rfl, -⟩ := h
    exact nofun
  have hline : ∀ p, p <+: text → p ≠ [] → lines (utf8 p) = [utf8 p] := by
    intro p hp hpne
    have hnot : newline ∉ utf8 p := by
      intro hmem
      obtain ⟨s, rfl⟩ := hp
      exact h.newline_not_mem (by rw [utf8_append]; exact mem_append_left _ hmem)
    rw [lines_of_not_mem hnot, h.not_blank hp hpne]
    rfl
  rcases prefix_concat_iff.mp hl with rfl | hl
  · refine .inr ⟨text, prefix_rfl, hne, ?_, ?_⟩
    · rw [lines_append, hline text prefix_rfl hne]
      rfl
    · exact iff_of_true rfl (prefix_append ..)
  · obtain ⟨more, hmore⟩ := hl
    obtain ⟨p, s, rfl, rfl, rfl⟩ := utf8_cut h.printable hmore
    by_cases hpne : p = []
    · subst hpne
      refine .inl ⟨rfl, fun hprefix => hne ?_⟩
      exact utf8_injective (prefix_nil.mp hprefix)
    · refine .inr ⟨p, prefix_append .., hpne, hline p (prefix_append ..) hpne, ?_⟩
      constructor
      · intro heq
        exact heq ▸ prefix_rfl
      · intro hprefix
        have hle : utf8 p <+: utf8 (p ++ s) := ⟨utf8 s, (utf8_append p s).symm⟩
        exact utf8_injective (hle.eq_of_length_le hprefix.length_le)

/-! ### Decoding them -/

theorem decode_utf8 : decode I (utf8 text) =
    match loads I.depth text with
    | .error .recursion => .raises
    | .error _ => .torn
    | .ok (.dict d) => if isClosed d then .trailer else fromDict d
    | .ok _ => .unreadable := by
  rw [decode, decodeUtf8_utf8]

theorem fromDict_ne_trailer (d : List (PyStr × PyVal)) : fromDict d ≠ .trailer := by
  unfold fromDict
  split; · exact nofun
  split; · exact nofun
  split; · exact nofun
  split; · exact nofun
  split
  · exact nofun
  · split <;> exact nofun

/-- **The two readers** ask the same of a line. -/
theorem closedLine_eq_true : closedLine I line = some true ↔ decode I line = .trailer := by
  unfold closedLine decode
  cases decodeUtf8 line with
  | none => exact ⟨nofun, nofun⟩
  | some text =>
    cases hloads : loads I.depth text with
    | error e =>
      simp only [hloads]
      cases e <;> exact ⟨nofun, nofun⟩
    | ok v =>
      simp only [hloads]
      cases v with
      | dict d =>
        cases hclosed : isClosed d with
        | true => simp [hclosed]
        | false => simpa [hclosed] using fromDict_ne_trailer d
      | none | bool _ | int _ | float _ | str _ | list _ => exact ⟨nofun, nofun⟩

theorem length_le_utf8 (text : List Char) : text.length ≤ (utf8 text).length := by
  induction text with
  | nil => exact le_rfl
  | cons c text ih =>
    have hpos : 0 < c.utf8Size := Char.utf8Size_pos c
    rw [utf8_cons, length_append, String.length_utf8EncodeChar, length_cons]
    omega

theorem closedLine_ne_none (h : line.length ≤ I.depth) : closedLine I line ≠ none := by
  unfold closedLine
  cases hdecode : decodeUtf8 line with
  | none => exact nofun
  | some text =>
    have hlength : text.length ≤ line.length := by
      rw [← TextLines.utf8_of_decodeUtf8 hdecode]
      exact length_le_utf8 text
    have hopens : opens text ≤ text.length :=
      countP_le_length.trans (length_outer_le .outside text)
    have hdeep := loads_not_deep (hopens.trans (hlength.trans h))
    cases hloads : loads I.depth text with
    | error e =>
      simp only [hloads]
      cases e with
      | recursion => exact absurd hloads hdeep
      | decode | digits => exact nofun
    | ok v =>
      simp only [hloads]
      cases v <;> exact nofun

theorem decode_trailer : decode I trailerText = .trailer := by
  have htext : trailerText = utf8 "\x7b\"closed\": true\x7d".toList := by decide
  obtain ⟨levels, hlevels⟩ := Nat.exists_eq_add_of_le' I.two_le_depth
  rw [htext, decode_utf8, hlevels]
  rfl

theorem Shallow.decode_beginning (h : Shallow text) (hp : p <+: text) (hne : p ≠ [])
    (hcut : p ≠ text) : decode I (utf8 p) = .torn := by
  obtain ⟨e, hloads, he⟩ := h.beginning (I := I) hp hne hcut
  rw [decode_utf8, hloads]
  cases e with
  | recursion => exact absurd rfl he
  | decode | digits => rfl

theorem Shallow.decode_piece (h : Shallow text) (hp : p <+: text) (hl : l <:+ utf8 p)
    (hne : l ≠ utf8 p) : decode I l ≠ .trailer := by
  have hprintable : ∀ c ∈ p, PyJson.Printable c := fun c hc => h.printable c (hp.subset hc)
  obtain ⟨front, hfront⟩ := hl
  obtain ⟨q, s, rfl, rfl, rfl⟩ := utf8_cut hprintable hfront
  have hs : s ≠ q ++ s := fun heq => hne (congrArg utf8 heq)
  rw [decode_utf8]
  cases hloads : loads I.depth s with
  | error e => cases e <;> exact nofun
  | ok v =>
    cases v with
    | dict d =>
      have hclosed := h.piece hp (suffix_append ..) hs hloads
      simpa [hclosed] using fromDict_ne_trailer d
    | none | bool _ | int _ | float _ | str _ | list _ => exact nofun

end Bytes

end Xtrax.SegmentLines
