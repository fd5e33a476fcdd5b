import Xtrax.SegmentWriter

/-!
# The lines of the index, as JSON

What the index takes from outside (`Outside`), from JSON: a row has the text that a segment writer
gives it, and a line is what `json.loads` and `from_dict` make of it.  Times are whole numbers here,
and a row has a text where it is read back as it is.
-/

namespace Xtrax.UnitIndex.Json

open List SegmentLines
open PyJson hiding newline

/-- A string without surrogates. -/
def string? (s : PyStr) : Option String :=
  (s.mapM fun c => if Nat.isValidChar c then some (Char.ofNat c) else none).map String.ofList

/-- A whole number; a double has those up to `2 ^ 53`. -/
def whole? : Number → Option Int
  | .int n => some n
  | .float (.decimal negative digits (.ofNat exponent)) =>
    let n := digits * 10 ^ exponent
    if n ≤ 2 ^ 53 then some (if negative then -n else n) else none
  | .float _ => none

def strings : String × String × String → PyStr × PyStr × PyStr
  | (a, b, c) => (py a, py b, py c)

/-- The row as a segment writer has it. -/
def written (r : UnitIndex.IndexRow) : SegmentLines.IndexRow where
  store := py r.store
  locator := py r.locator
  unitKey := py r.unitKey
  inputDigest := py r.inputDigest
  contentDigest := py r.contentDigest
  recordDigest := py r.recordDigest
  adapter := py r.adapter
  writerId := py r.writerId
  runId := py r.runId
  ts := .int r.ts.num
  reusedFrom := r.reusedFrom.map strings
  schemaVersion := .int r.schemaVersion

def reused? : Option (PyStr × PyStr × PyStr) → Option (Option (String × String × String))
  | none => some none
  | some (a, b, c) => do return some (← string? a, ← string? b, ← string? c)

def row? (r : SegmentLines.IndexRow) : Option UnitIndex.IndexRow := do
  return {
    store := ← string? r.store
    locator := ← string? r.locator
    unitKey := ← string? r.unitKey
    inputDigest := ← string? r.inputDigest
    contentDigest := ← string? r.contentDigest
    recordDigest := ← string? r.recordDigest
    adapter := ← string? r.adapter
    writerId := ← string? r.writerId
    runId := ← string? r.runId
    ts := (← whole? r.ts : Int)
    reusedFrom := ← reused? r.reusedFrom
    schemaVersion := ← whole? r.schemaVersion }

def line : Decoded → Line
  | .torn => .torn
  | .trailer => .trailer
  | .row r => (row? r).elim .other .row
  | .unreadable | .raises => .other

/-- A segment is ASCII. -/
def ascii? (l : Bytes) : Option (List Char) :=
  if l.all (· < 128) then some (l.map fun b => Char.ofNat b.toNat) else none

def Line.row? : Line → Option UnitIndex.IndexRow
  | .row r => some r
  | _ => none

section

variable (I : Interpreter)

/-- `json.loads` of a line, and what is made of it. -/
def decodeLine (l : Bytes) : Line :=
  match ascii? l with
  | none => .torn
  | some text => line (match loads I.depth text with
    | .error .recursion => .raises
    | .error _ => .torn
    | .ok (.dict d) => if isClosed d then .trailer else fromDict d
    | .ok _ => .unreadable)

/-- `to_json_line`, without the newline. -/
def rowText (r : UnitIndex.IndexRow) : Option Bytes :=
  ((written r).text I).bind fun text =>
    if Line.row? (decodeLine I (utf8 text)) = some r then some (utf8 text) else none

end

section

variable {I : Interpreter} {text : List Char} {l : Bytes} {r : UnitIndex.IndexRow}

theorem ascii_utf8 (h : ∀ c ∈ text, PyJson.Printable c) : ascii? (utf8 text) = some text := by
  have hsmall : ∀ c ∈ text, c.val.toUInt8 < 128 ∧ Char.ofNat c.val.toUInt8.toNat = c := by
    intro c hc
    have hle := (h c hc).2
    have hval : c.val.toNat ≤ 126 := hle
    have hnat : c.val.toUInt8.toNat = c.val.toNat := by
      rw [UInt32.toNat_toUInt8, Nat.mod_eq_of_lt (by omega)]
    refine ⟨UInt8.lt_iff_toNat_lt.mpr ?_, ?_⟩
    · rw [hnat]
      exact Nat.lt_of_le_of_lt hval (by decide)
    · rw [hnat]
      exact Char.ofNat_toNat c
  rw [ascii?, utf8_ascii h, if_pos, map_map]
  · exact congrArg some ((map_congr_left fun c hc => (hsmall c hc).2).trans (map_id' text))
  · simpa using fun c hc => (hsmall c hc).1

theorem decodeLine_utf8 (h : ∀ c ∈ text, PyJson.Printable c) :
    decodeLine I (utf8 text) = line (decode I (utf8 text)) := by
  rw [decodeLine, ascii_utf8 h]
  exact (congrArg line decode_utf8).symm

theorem line_eq_trailer {d : Decoded} (h : line d = .trailer) : d = .trailer := by
  cases d with
  | trailer => rfl
  | row r =>
    rw [line] at h
    cases hrow : row? r <;> rw [hrow] at h <;> cases h
  | torn | unreadable | raises => cases h

theorem decode_nil : decode I [] = .torn := by
  obtain ⟨levels, hlevels⟩ := Nat.exists_eq_add_of_le' I.two_le_depth
  rw [← utf8_nil, decode_utf8, hlevels]
  rfl

theorem rowText_eq_some (h : rowText I r = some l) : ∃ text, (written r).text I = some text ∧
    l = utf8 text ∧ decodeLine I l = .row r := by
  obtain ⟨text, htext, h⟩ := Option.bind_eq_some_iff.mp h
  split at h
  · rename_i hrow
    obtain rfl := Option.some.inj h
    refine ⟨text, htext, rfl, ?_⟩
    cases hline : decodeLine I (utf8 text) with
    | row r' => rw [hline] at hrow; rw [Option.some.inj hrow]
    | torn | trailer | other => rw [hline] at hrow; cases hrow
  · cases h

theorem decode_infix (htext : Shallow text) (hr : decodeLine I (utf8 text) = .row r)
    (hl : l <:+: utf8 text) : decodeLine I l ≠ .trailer := by
  obtain ⟨before, after, hcut⟩ := hl
  obtain ⟨p, t, rfl, hp, -⟩ := utf8_cut htext.printable hcut
  have hprintable : ∀ c ∈ p, PyJson.Printable c := fun c hc =>
    htext.printable c (mem_append_left _ hc)
  obtain ⟨q, s, rfl, rfl, rfl⟩ := utf8_cut hprintable hp
  rw [decodeLine_utf8 fun c hc => hprintable c (mem_append_right _ hc)]
  intro htrailer
  have htrailer := line_eq_trailer htrailer
  have hprefix : q ++ s <+: q ++ s ++ t := prefix_append ..
  by_cases hs : utf8 s = utf8 (q ++ s)
  · obtain rfl : q = [] := by simpa using congrArg length (utf8_injective hs)
    by_cases hempty : s = []
    · rw [hempty, utf8_nil, decode_nil] at htrailer
      cases htrailer
    by_cases hwhole : s = s ++ t
    · rw [decodeLine_utf8 htext.printable, nil_append, ← hwhole, htrailer] at hr
      cases hr
    · rw [htext.decode_beginning (p := s) hprefix hempty hwhole] at htrailer
      cases htrailer
  · exact htext.decode_piece hprefix ⟨utf8 q, (utf8_append q s).symm⟩ hs htrailer

theorem decode_trailer_prefix (h : l <+: trailerText) : decodeLine I l ≠ .row r := by
  have htext : trailerText = utf8 "\x7b\"closed\": true\x7d".toList := by decide
  obtain ⟨more, hmore⟩ := h
  obtain ⟨p, s, hps, rfl, -⟩ := utf8_cut shallow_trailer.printable (hmore.trans htext)
  have hp : p <+: "\x7b\"closed\": true\x7d".toList := ⟨s, hps.symm⟩
  rw [decodeLine_utf8 fun c hc => shallow_trailer.printable c (hp.subset hc)]
  by_cases hempty : p = []
  · rw [hempty, utf8_nil, decode_nil]
    exact nofun
  by_cases hwhole : p = "\x7b\"closed\": true\x7d".toList
  · rw [hwhole, ← htext, decode_trailer]
    exact nofun
  · rw [shallow_trailer.decode_beginning hp hempty hwhole]
    exact nofun

end

def outside (I : Interpreter) (canonicalStore : String → Option String) : Outside where
  rowText := rowText I
  decode := decodeLine I
  canonicalStore := canonicalStore
  decode_rowText r text h := (rowText_eq_some h).choose_spec.2.2
  newline_not_mem r l h := by
    obtain ⟨text, htext, rfl, -⟩ := rowText_eq_some h
    exact (shallow_row htext).newline_not_mem
  rowText_not_blank r l h := by
    obtain ⟨text, htext, rfl, -⟩ := rowText_eq_some h
    have hshallow := shallow_row htext
    refine hshallow.not_blank prefix_rfl ?_
    obtain ⟨body, rfl, -⟩ := hshallow
    exact nofun
  rowText_no_trailer r text l h hl := by
    obtain ⟨text, htext, rfl, hrow⟩ := rowText_eq_some h
    exact decode_infix (shallow_row htext) hrow hl
  trailer_no_row r l := decode_trailer_prefix

end Xtrax.UnitIndex.Json
