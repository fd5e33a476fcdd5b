import Xtrax.LedgerReader
import Xtrax.PyJsonTorn

/-!
# The reader that skips keeps every row of a close that returned

In every run whose events meet their condition, the reader comes to its end, and what it yields is
the records of the closes that returned, in the order of these closes, merged with what it would
yield without their rows (`iterRows_of_reaches`).
-/

namespace Xtrax.LedgerText

open List List Option PyJson TextLines Interleaving LastWins

/-! ### The order of the names -/

theorem ofDigitChars_cons_zero (c : Char) (digits : List Char) :
    Nat.ofDigitChars 10 (c :: digits) 0 =
      10 ^ digits.length * (c.toNat - '0'.toNat) + Nat.ofDigitChars 10 digits 0 := by
  rw [Nat.ofDigitChars_cons, Nat.ofDigitChars_eq_ofDigitChars_zero]
  simp

theorem ofDigitChars_lt {digits : List Char} (h : ∀ c ∈ digits, c.isDigit = true) :
    Nat.ofDigitChars 10 digits 0 < 10 ^ digits.length := by
  induction digits with
  | nil => exact Nat.zero_lt_one
  | cons c digits ih =>
    have hrest := ih fun c' hc' => h c' (mem_cons_of_mem c hc')
    obtain ⟨hlow, hhigh⟩ := Char.isDigit_iff_toNat.mp (h c mem_cons_self)
    have hc : c.toNat - '0'.toNat ≤ 9 := Nat.sub_le_sub_right hhigh '0'.toNat
    rw [ofDigitChars_cons_zero, length_cons, pow_succ]
    have := Nat.mul_le_mul_left (10 ^ digits.length) hc
    omega

theorem digits_append_le (s : List Char) {a b : List Char} (hlen : a.length = b.length)
    (ha : ∀ c ∈ a, c.isDigit = true) (hb : ∀ c ∈ b, c.isDigit = true)
    (h : Nat.ofDigitChars 10 a 0 ≤ Nat.ofDigitChars 10 b 0) : a ++ s ≤ b ++ s := by
  induction a generalizing b with
  | nil =>
    obtain rfl := eq_nil_of_length_eq_zero hlen.symm
    exact le_refl s
  | cons c a ih =>
    cases b with
    | nil => cases hlen
    | cons d b =>
      have hlen' := Nat.succ.inj hlen
      have hlta := ofDigitChars_lt fun c' hc' => ha c' (mem_cons_of_mem c hc')
      have hltb := ofDigitChars_lt fun c' hc' => hb c' (mem_cons_of_mem d hc')
      obtain ⟨hc, -⟩ := Char.isDigit_iff_toNat.mp (ha c mem_cons_self)
      obtain ⟨hd, -⟩ := Char.isDigit_iff_toNat.mp (hb d mem_cons_self)
      rw [ofDigitChars_cons_zero, ofDigitChars_cons_zero, hlen'] at h
      rw [hlen'] at hlta
      rcases lt_trichotomy c.toNat d.toNat with hlt | heq | hgt
      · exact le_of_lt (show c :: (a ++ s) < d :: (b ++ s) from List.Lex.rel hlt)
      · have hcd : c = d := Char.ext (UInt32.toNat_inj.mp heq)
        subst hcd
        exact cons_le_cons c (ih hlen' (fun c' hc' => ha c' (mem_cons_of_mem c hc'))
          (fun c' hc' => hb c' (mem_cons_of_mem c hc')) (by omega))
      · have hdigit : d.toNat - '0'.toNat + 1 ≤ c.toNat - '0'.toNat := by omega
        have := Nat.mul_le_mul_left (10 ^ b.length) hdigit
        rw [Nat.mul_add, Nat.mul_one] at this
        omega

theorem fileName_le {n m : Nat} (h : n ≤ m) (hm : m < 100000) :
    Ledger.fileName n ≤ Ledger.fileName m := by
  have hlength : ∀ k < 100000, ((Nat.toDigits 10 k).leftpad 5 '0').length = 5 := by
    intro k hk
    rw [length_leftpad]
    exact Nat.max_eq_left ((Nat.length_toDigits_le_iff (by decide) (by decide)).mpr hk)
  have hdigits : ∀ k, ∀ c ∈ (Nat.toDigits 10 k).leftpad 5 '0', c.isDigit = true := by
    intro k c hc
    rcases mem_append.mp hc with hc | hc
    · rw [eq_of_mem_replicate hc]
      rfl
    · exact isDigit_toDigits k c hc
  have hvalue : ∀ k, Nat.ofDigitChars 10 ((Nat.toDigits 10 k).leftpad 5 '0') 0 = k := by
    intro k
    rw [leftpad, Nat.ofDigitChars_append, Nat.ofDigitChars_replicate_zero, Nat.mul_zero,
      Nat.ofDigitChars_ten_toDigits]
  rw [String.le_iff_toList_le]
  simp only [Ledger.fileName, String.toList_append, String.toList_ofList]
  refine digits_append_le _ ?_ (hdigits n) (hdigits m) ?_
  · rw [hlength n (by omega), hlength m hm]
  · rw [hvalue, hvalue]
    exact h

/-! ### Lists that are merged -/

/-- The third list holds the elements of the other two, each list in its order. -/
inductive Merges {α : Type} : List α → List α → List α → Prop
  | nil : Merges [] [] []
  | left (a : α) {as bs cs : List α} (h : Merges as bs cs) : Merges (a :: as) bs (a :: cs)
  | right (b : α) {as bs cs : List α} (h : Merges as bs cs) : Merges as (b :: bs) (b :: cs)

namespace Merges

variable {α : Type} {as as' bs bs' cs cs' : List α}

theorem append (h : Merges as bs cs) (h' : Merges as' bs' cs') :
    Merges (as ++ as') (bs ++ bs') (cs ++ cs') := by
  induction h with
  | nil => exact h'
  | left a h ih => exact .left a ih
  | right b h ih => exact .right b ih

theorem rights (bs : List α) : Merges [] bs bs := by
  induction bs with
  | nil => exact .nil
  | cons b bs ih => exact .right b ih

theorem append_rights (h : Merges as bs cs) (bs' : List α) : Merges as (bs ++ bs') (cs ++ bs') := by
  have happend := h.append (rights bs')
  rwa [append_nil] at happend

theorem concat_left (h : Merges as bs cs) (a : α) : Merges (as ++ [a]) bs (cs ++ [a]) := by
  have happend := h.append (.left a .nil)
  rwa [append_nil] at happend

theorem filter_left (h : Merges as bs cs) {p : α → Bool} (hbs : ∀ b ∈ bs, p b = false) :
    cs.filter p = as.filter p := by
  induction h with
  | nil => rfl
  | left a h ih => rw [filter_cons, filter_cons, ih hbs]
  | right b h ih =>
    rw [filter_cons, hbs b mem_cons_self]
    exact ih fun b' hb' => hbs b' (mem_cons_of_mem b hb')

end Merges

/-! ### Reading pieces -/

section

variable {depth : Nat}

/-- The end of the bytes is the end of a line. -/
def Clean (bytes : Bytes) : Prop := bytes = [] ∨ ∃ bytes', bytes = bytes' ++ [10]

theorem readFile_utf8 (text : List Char) : readFile depth (utf8 text) =
    flatten <$> (splitLines false text).mapM (readLenient depth) := by
  rw [readFile, decodeUtf8_utf8]

theorem readFile_eq_ok {bytes : Bytes} {rows : List RunLedgerRecord}
    (h : readFile depth bytes = .ok rows) : ∃ text, bytes = utf8 text ∧
      ∃ rowss, (splitLines false text).mapM (readLenient depth) = .ok rowss ∧
        rowss.flatten = rows := by
  unfold readFile at h
  split at h
  · rename_i text htext
    obtain ⟨rowss, hrows, h⟩ := Results.bind_eq_ok.mp h
    exact ⟨text, (utf8_of_decodeUtf8 htext).symm, rowss, hrows, Except.ok.inj h⟩
  · cases h

theorem splitLines_clean {text : List Char} (h : Clean (utf8 text)) (rest : List Char) :
    splitLines false (text ++ rest) = splitLines false text ++ splitLines false rest := by
  rcases h with h | ⟨bytes, h⟩
  · have htext : text = [] := utf8_injective (h.trans utf8_nil.symm)
    subst htext
    rfl
  · obtain ⟨text', rfl, -⟩ := utf8_eq_concat h
    rw [append_assoc, singleton_append]
    exact splitLines_append text' rest false

theorem readFile_append {a b : Bytes} {rows rows' : List RunLedgerRecord} (hclean : Clean a)
    (ha : readFile depth a = .ok rows) (hb : readFile depth b = .ok rows') :
    readFile depth (a ++ b) = .ok (rows ++ rows') := by
  obtain ⟨text, rfl, rowss, hrowss, rfl⟩ := readFile_eq_ok ha
  obtain ⟨text', rfl, rowss', hrowss', rfl⟩ := readFile_eq_ok hb
  rw [← utf8_append, readFile_utf8, splitLines_clean hclean, mapM_append, hrowss, hrowss',
    ← flatten_append]
  rfl

theorem contained_iff {line : List Char} :
    Contained depth line ↔ ∃ rows, readLenient depth line = .ok rows := by
  rw [Contained, not_escapes_iff, readLenient]
  split
  · exact ⟨fun _ => ⟨[], rfl⟩, fun _ => .inl ‹_›⟩
  · rename_i hblank
    cases hread : readLine depth line with
    | ok r => exact ⟨fun _ => ⟨[r], rfl⟩, fun _ => .inr nofun⟩
    | error e =>
      by_cases he : e.skipped = true
      · exact ⟨fun _ => ⟨[], if_pos he⟩, fun _ => .inr fun _ h => Except.error.inj h ▸ he⟩
      · constructor
        · rintro (h | h)
          · exact absurd h hblank
          · exact absurd (h e rfl) he
        · rintro ⟨rows, h⟩
          exact absurd (h.symm.trans (if_neg he)) nofun

/-- **Harmless bytes are those that are read to their end.** -/
theorem harmless_iff {bytes : Bytes} :
    Harmless depth bytes ↔ ∃ rows, readFile depth bytes = .ok rows := by
  constructor
  · rintro ⟨text, htext, hlines⟩
    obtain ⟨rowss, hrowss⟩ := Results.exists_mapM fun line hline =>
      contained_iff.mp (hlines line hline)
    exact ⟨rowss.flatten, by rw [readFile, htext]; exact congrArg (flatten <$> ·) hrowss⟩
  · rintro ⟨rows, hrows⟩
    obtain ⟨text, rfl, rowss, hrowss, -⟩ := readFile_eq_ok hrows
    refine ⟨text, decodeUtf8_utf8 text, fun line hline => contained_iff.mpr ?_⟩
    obtain ⟨rows, -, h⟩ := Results.exists_of_forall₂ (Results.mapM_eq_ok.mp hrowss) hline
    exact ⟨rows, h⟩

theorem unterminated_append {a b : Bytes} (ha : Clean a) (hb : 10 ∉ b) :
    unterminated (a ++ b) = b := by
  induction b using reverseRecOn with
  | nil =>
    rw [append_nil]
    rcases ha with rfl | ⟨a, rfl⟩
    · exact rtakeWhile_nil _
    · exact rtakeWhile_concat_neg _ _ _ (by decide)
  | append_singleton b x ih =>
    rw [mem_append, not_or] at hb
    have hx : x ≠ 10 := fun h => hb.2 (h ▸ mem_singleton_self x)
    rw [← append_assoc, unterminated, rtakeWhile_concat, if_pos (decide_eq_true hx)]
    exact congrArg (· ++ [x]) (ih hb.1)

end

/-! ### One row -/

section

variable {floatRepr : PyFloat → List Char} {depth : Nat} {r : RunRecord} {text : List Char}

/-- The text of a record's row. -/
structure RowLine (floatRepr : PyFloat → List Char) (r : RunRecord) (text : List Char) : Prop where
  bytes : rowBytes floatRepr r = utf8 (text ++ ['\n'])
  printable : ∀ c ∈ text, PyJson.Printable c

/-- The record is read from the whole text, and no record from a part of it. -/
structure RowText (floatRepr : PyFloat → List Char) (depth : Nat) (r : RunRecord)
    (text : List Char) : Prop extends RowLine floatRepr r text where
  opens : ∃ rest, text = '{' :: rest
  whole : readLine depth text = .ok r.val
  torn : ∀ p, Torn p text → readLine depth p = .error .ledgerRecord

theorem exists_rowLine (hline : (r.val.toJsonLine floatRepr).isSome = true) :
    ∃ text, dumps floatRepr r.val.toDict = some text ∧ RowLine floatRepr r text := by
  obtain ⟨line, hline⟩ := isSome_iff_exists.mp hline
  obtain ⟨text, hdumps, rfl⟩ := map_eq_some_iff.mp hline
  refine ⟨text, hdumps, by rw [rowBytes, hline]; rfl, ?_⟩
  rw [(PyJson.dumps_eq_some hdumps).2]
  exact printable_text (shaped_toDict r.property 0).sortKeys

theorem exists_rowText (hline : (r.val.toJsonLine floatRepr).isSome = true) (hw : Writes r)
    (depth : Nat) : ∃ text, RowText floatRepr (depth + 4) r text := by
  obtain ⟨text, hdumps, hrow⟩ := exists_rowLine hline
  have htext := (PyJson.dumps_eq_some hdumps).2
  have hwritable := dumps_writable (shaped_toDict r.property depth) hw hdumps
  have hdict : r.val.toDict.sortKeys = .dict (written r.val.members) := sortKeys_dict r.val.members
  refine ⟨text, hrow, ?_, ?_, fun p hp => ?_⟩
  · rw [htext, hdict]
    exact ⟨_, rfl⟩
  · rw [readLine, htext, loads_text hwritable]
    exact readRowUpgrading_toDict r.property
  · rw [htext, hdict] at hp
    rw [hdict] at hwritable
    rw [readLine, loads_torn hwritable hp]

theorem isLineBreak_printable {c : Char} (h : PyJson.Printable c) : isLineBreak c = false := by
  obtain ⟨hlow, hhigh⟩ := h
  unfold isLineBreak
  rw [decide_eq_false_iff_not]
  simp only [mem_cons, not_mem_nil, or_false]
  omega

theorem take_utf8 {text : List Char} (h : ∀ c ∈ text, c.toNat < 0x80) (n : Nat) :
    (utf8 text).take n = utf8 (text.take n) := by
  have hmap : ∀ s : List Char, (∀ c ∈ s, c.toNat < 0x80) →
      utf8 s = s.map fun c => UInt8.ofNat c.toNat := by
    intro s hs
    induction s with
    | nil => rfl
    | cons c s ih =>
      have hc : c.val.toNat ≤ 0x7f := Nat.le_of_lt_succ (hs c mem_cons_self)
      rw [utf8_cons, ih fun d hd => hs d (mem_cons_of_mem c hd), map_cons]
      unfold String.utf8EncodeChar
      rw [if_pos hc]
      rfl
  rw [hmap text h, hmap (text.take n) fun c hc => h c (mem_of_mem_take hc), map_take]

theorem RowLine.take_cases (h : RowLine floatRepr r text) (n : Nat) :
    (rowBytes floatRepr r).take n = rowBytes floatRepr r ∨
      ∃ p, p <+: text ∧ (rowBytes floatRepr r).take n = utf8 p := by
  have hascii : ∀ c ∈ text ++ ['\n'], c.toNat < 0x80 := by
    intro c hc
    rcases mem_append.mp hc with hc | hc
    · exact Nat.lt_of_le_of_lt (h.printable c hc).2 (by decide)
    · obtain rfl := mem_singleton.mp hc
      decide
  rw [h.bytes, take_utf8 hascii]
  by_cases hn : n ≤ text.length
  · exact .inr ⟨text.take n, take_prefix n text, by rw [take_append_of_le_length hn]⟩
  · refine .inl (congrArg utf8 (take_of_length_le ?_))
    rw [length_append, length_singleton]
    omega

namespace RowText

theorem readLenient_whole (h : RowText floatRepr depth r text) :
    readLenient depth text = .ok [r.val] := by
  obtain ⟨rest, rfl⟩ := h.opens
  rw [readLenient, all_cons, show isWhitespace '{'.toNat = false from rfl, h.whole]
  rfl

theorem readFile_row (h : RowText floatRepr depth r text) :
    readFile depth (rowBytes floatRepr r) = .ok [r.val] := by
  have hlines := splitLines_terminated fun c hc => isLineBreak_printable (h.printable c hc)
  rw [h.bytes, readFile_utf8, hlines, mapM_cons, h.readLenient_whole]
  rfl

/-- **A row that breaks off is harmless.** -/
theorem harmless_prefix (h : RowText floatRepr depth r text) {p : List Char} (hp : p <+: text) :
    Harmless depth (utf8 p) := by
  have hbreak : ∀ c ∈ p, isLineBreak c = false :=
    fun c hc => isLineBreak_printable (h.printable c (hp.subset hc))
  refine ⟨p, decodeUtf8_utf8 p, fun line hline => ?_⟩
  by_cases hnil : p = []
  · subst hnil
    cases hline
  · rw [splitLines_line hbreak hnil] at hline
    obtain rfl := mem_singleton.mp hline
    refine .inr (not_escapes_iff.mpr fun e he => ?_)
    by_cases hwhole : line = text
    · rw [hwhole, h.whole] at he
      cases he
    · rw [h.torn line ⟨hp, hwhole⟩] at he
      exact Except.error.inj he ▸ rfl

end RowText

end

/-! ### One segment -/

section

variable {floatRepr : PyFloat → List Char} {depth : Nat} {segment : Segment}
  {bytes tail : Bytes} {rows rows' others : List RunLedgerRecord} {r : RunRecord} {text : List Char}
  {w : Write}

/-- The records of the closes that returned, in a segment. -/
def records (segment : Segment) : List RunLedgerRecord := segment.filterMap Write.record

/-- The segment without the rows of these closes. -/
def foreignWrites (segment : Segment) : Segment := segment.filter fun w => !w.isRow

/-- Bytes that are complete lines up to a tail, with the rows of the lines. -/
def Lines (depth : Nat) (bytes tail : Bytes) (rows : List RunLedgerRecord) : Prop :=
  ∃ lines, bytes = lines ++ tail ∧ Clean lines ∧ readFile depth lines = .ok rows

theorem clean_append {a b : Bytes} (ha : Clean a) (hb : Clean b) : Clean (a ++ b) := by
  rcases hb with rfl | ⟨b, rfl⟩
  · rwa [append_nil]
  · exact .inr ⟨a ++ b, (append_assoc a b [10]).symm⟩

theorem Lines.complete (h : Lines depth bytes tail rows) {new : Bytes} (hclean : Clean (tail ++ new))
    (hread : readFile depth (tail ++ new) = .ok rows') :
    Lines depth (bytes ++ new) [] (rows ++ rows') := by
  obtain ⟨lines, rfl, hlines, hrows⟩ := h
  refine ⟨lines ++ (tail ++ new), ?_, clean_append hlines hclean, readFile_append hlines hrows hread⟩
  rw [append_nil, append_assoc]

theorem Lines.extend (h : Lines depth bytes tail rows) (new : Bytes) :
    Lines depth (bytes ++ new) (tail ++ new) rows := by
  obtain ⟨lines, rfl, hlines, hrows⟩ := h
  exact ⟨lines, append_assoc lines tail new, hlines, hrows⟩

theorem Lines.read (h : Lines depth bytes tail rows) (htail : readFile depth tail = .ok rows') :
    readFile depth bytes = .ok (rows ++ rows') := by
  obtain ⟨lines, rfl, hlines, hrows⟩ := h
  exact readFile_append hlines hrows htail

/-- A segment is complete lines up to a harmless tail, and the rows of its lines are those of the
closes that returned merged with the rows of the other lines. -/
structure Sound (floatRepr : PyFloat → List Char) (depth : Nat) (segment : Segment) (tail : Bytes)
    (rows others : List RunLedgerRecord) : Prop where
  lines : Lines depth (contents floatRepr segment) tail rows
  foreign : Lines depth (contents floatRepr (foreignWrites segment)) tail others
  newline : 10 ∉ tail
  harmless : Harmless depth tail
  merges : Merges (records segment) others rows

theorem readFile_nil : readFile depth [] = .ok [] := rfl

theorem harmless_nil : Harmless depth [] := harmless_iff.mpr ⟨[], readFile_nil⟩

theorem sound_nil : Sound floatRepr depth [] [] [] [] where
  lines := ⟨[], rfl, .inl rfl, readFile_nil⟩
  foreign := ⟨[], rfl, .inl rfl, readFile_nil⟩
  newline := not_mem_nil
  harmless := harmless_nil
  merges := .nil

theorem Sound.unterminated (h : Sound floatRepr depth segment tail rows others) :
    unterminated (contents floatRepr segment) = tail := by
  obtain ⟨lines, hbytes, hlines, -⟩ := h.lines
  rw [hbytes]
  exact unterminated_append hlines h.newline

theorem contents_concat (segment : Segment) (w : Write) :
    contents floatRepr (segment ++ [w]) = contents floatRepr segment ++ w.bytes floatRepr := by
  rw [contents, flatMap_append, flatMap_singleton]
  rfl

theorem records_concat (segment : Segment) (w : Write) :
    records (segment ++ [w]) = records segment ++ w.record.toList := by
  rw [records, filterMap_append]
  cases w <;> rfl

theorem foreignWrites_concat (segment : Segment) (hw : w.isRow = false) :
    foreignWrites (segment ++ [w]) = foreignWrites segment ++ [w] := by
  rw [foreignWrites, filter_append, filter_cons, hw]
  rfl

theorem record_of_not_isRow (hw : w.isRow = false) : w.record = none := by
  cases w with
  | row r => cases hw
  | torn r n => rfl
  | foreign line => rfl

/-- A write that ends a line: what the line yields is accepted with and without the other rows. -/
theorem Sound.complete (h : Sound floatRepr depth segment tail rows others) (hw : w.isRow = false)
    (hclean : Clean (tail ++ w.bytes floatRepr))
    (hread : readFile depth (tail ++ w.bytes floatRepr) = .ok rows') :
    Sound floatRepr depth (segment ++ [w]) [] (rows ++ rows') (others ++ rows') where
  lines := contents_concat segment w ▸ h.lines.complete hclean hread
  foreign := by
    rw [foreignWrites_concat segment hw, contents_concat]
    exact h.foreign.complete hclean hread
  newline := not_mem_nil
  harmless := harmless_nil
  merges := by
    rw [records_concat, record_of_not_isRow hw, toList_none, append_nil]
    exact h.merges.append_rights rows'

theorem Sound.extend (h : Sound floatRepr depth segment tail rows others) (hw : w.isRow = false)
    (hnewline : 10 ∉ w.bytes floatRepr) (hharmless : Harmless depth (tail ++ w.bytes floatRepr)) :
    Sound floatRepr depth (segment ++ [w]) (tail ++ w.bytes floatRepr) rows others where
  lines := contents_concat segment w ▸ h.lines.extend _
  foreign := by
    rw [foreignWrites_concat segment hw, contents_concat]
    exact h.foreign.extend _
  newline := by
    rw [mem_append, not_or]
    exact ⟨h.newline, hnewline⟩
  harmless := hharmless
  merges := by
    rw [records_concat, record_of_not_isRow hw, toList_none, append_nil]
    exact h.merges

theorem Sound.row (h : Sound floatRepr depth segment [] rows others)
    (hr : RowText floatRepr depth r text) :
    Sound floatRepr depth (segment ++ [.row r]) [] (rows ++ [r.val]) others where
  lines := by
    rw [contents_concat]
    refine h.lines.complete (.inr ⟨utf8 text, ?_⟩) hr.readFile_row
    rw [nil_append, Write.bytes, hr.bytes, utf8_append]
    rfl
  foreign := by
    rw [foreignWrites, filter_append, show [Write.row r].filter _ = [] from rfl, append_nil]
    exact h.foreign
  newline := not_mem_nil
  harmless := h.harmless
  merges := by
    rw [records_concat]
    exact h.merges.concat_left r.val

/-- A segment is as it should be. -/
def SoundSegment (floatRepr : PyFloat → List Char) (depth : Nat) (segment : Segment) : Prop :=
  ∃ tail rows others, Sound floatRepr depth segment tail rows others

theorem SoundSegment.foreign (h : SoundSegment floatRepr depth segment) {line : Bytes}
    (hline : Harmless depth (unterminated (contents floatRepr segment) ++ (line ++ [10]))) :
    SoundSegment floatRepr depth (segment ++ [.foreign line]) := by
  obtain ⟨tail, rows, others, h⟩ := h
  rw [h.unterminated] at hline
  obtain ⟨rows', hrows'⟩ := harmless_iff.mp hline
  exact ⟨[], _, _, h.complete rfl (.inr ⟨tail ++ line, (append_assoc tail line [10]).symm⟩) hrows'⟩

theorem SoundSegment.torn (h : SoundSegment floatRepr depth segment)
    (hline : (r.val.toJsonLine floatRepr).isSome = true) {n : Nat}
    (hharmless : Harmless depth (unterminated (contents floatRepr segment) ++ (rowBytes floatRepr r).take n)) :
    SoundSegment floatRepr depth (segment ++ [.torn r n]) := by
  obtain ⟨tail, rows, others, h⟩ := h
  obtain ⟨text, -, hr⟩ := exists_rowLine hline
  rw [h.unterminated] at hharmless
  rcases hr.take_cases n with hwhole | ⟨p, hp, htake⟩
  -- the whole row has reached the file
  · obtain ⟨rows', hrows'⟩ := harmless_iff.mp hharmless
    refine ⟨[], _, _, h.complete rfl (.inr ⟨tail ++ utf8 text, ?_⟩) hrows'⟩
    rw [Write.bytes, hwhole, hr.bytes, utf8_append, ← append_assoc]
    rfl
  · refine ⟨_, _, _, h.extend rfl ?_ hharmless⟩
    rw [Write.bytes, htake]
    refine newline_notMem_utf8 fun c hc => ?_
    rintro rfl
    exact absurd (hr.printable _ (hp.subset hc)) (by decide)

theorem RowText.harmless_take (hr : RowText floatRepr depth r text) (n : Nat) :
    Harmless depth ((rowBytes floatRepr r).take n) := by
  rcases hr.take_cases n with hwhole | ⟨p, hp, htake⟩
  · rw [hwhole]
    exact harmless_iff.mpr ⟨_, hr.readFile_row⟩
  · rw [htake]
    exact hr.harmless_prefix hp

theorem SoundSegment.row (h : SoundSegment floatRepr depth segment)
    (hr : RowText floatRepr depth r text) (hopen : unterminated (contents floatRepr segment) = []) :
    SoundSegment floatRepr depth (segment ++ [.row r]) := by
  obtain ⟨tail, rows, others, h⟩ := h
  obtain rfl := h.unterminated.symm.trans hopen
  exact ⟨_, _, _, h.row hr⟩

end

/-! ### All segments -/

section

variable {floatRepr : PyFloat → List Char} {depth : Nat} {segments : List Segment} {i : Nat}
  {w : Write} {s : Root}

theorem mem_appendTo {segment : Segment} (h : segment ∈ appendTo segments i w) :
    segment ∈ segments ∨ segment = segments.getD i [] ++ [w] := by
  induction segments generalizing i with
  | nil => exact .inr (mem_singleton.mp h)
  | cons first segments ih =>
    cases i with
    | zero =>
      rcases mem_cons.mp h with rfl | h
      · exact .inr rfl
      · exact .inl (mem_cons_of_mem first h)
    | succ i =>
      rcases mem_cons.mp h with rfl | h
      · exact .inl mem_cons_self
      · rcases ih h with h | rfl
        · exact .inl (mem_cons_of_mem first h)
        · exact .inr rfl

theorem length_appendTo_lt {n : Nat} (hlen : segments.length < n) (hi : i ≤ segments.length)
    (hn : i + 1 < n) : (appendTo segments i w).length < n := by
  induction segments generalizing i n with
  | nil =>
    rw [Nat.le_zero.mp hi] at hn
    exact hn
  | cons first segments ih =>
    cases i with
    | zero => exact hlen
    | succ i =>
      rw [length_cons] at hlen hi
      have := ih (i := i) (n := n - 1) (by omega) (by omega) (by omega)
      rw [appendTo, length_cons]
      omega

theorem records_appendTo (hw : w.isRow = false) :
    (appendTo segments i w).flatMap records = segments.flatMap records := by
  have hrecords : ∀ segment, records (segment ++ [w]) = records segment := by
    intro segment
    rw [records_concat, record_of_not_isRow hw, toList_none, append_nil]
  induction segments generalizing i with
  | nil =>
    rw [appendTo, flatMap_singleton]
    exact hrecords []
  | cons first segments ih =>
    cases i with
    | zero => rw [appendTo, flatMap_cons, flatMap_cons, hrecords]
    | succ i => rw [appendTo, flatMap_cons, flatMap_cons, ih]

theorem records_appendTo_last (hi : segments.length ≤ i + 1) :
    (appendTo segments i w).flatMap records = segments.flatMap records ++ w.record.toList := by
  induction segments generalizing i with
  | nil =>
    rw [appendTo, flatMap_singleton]
    exact records_concat [] w
  | cons first segments ih =>
    cases i with
    | zero =>
      obtain rfl := eq_nil_of_length_eq_zero (Nat.le_zero.mp (Nat.le_of_succ_le_succ hi))
      rw [appendTo, flatMap_singleton, flatMap_singleton]
      exact records_concat first w
    | succ i =>
      rw [appendTo, flatMap_cons, flatMap_cons, ih (Nat.le_of_succ_le_succ hi), append_assoc]

theorem activeSegment_bounds (floatRepr : PyFloat → List Char) (segments : List Segment) :
    activeSegment floatRepr segments ≤ segments.length ∧
    segments.length ≤ activeSegment floatRepr segments + 1 := by
  unfold activeSegment
  split
  · split
    · omega
    · omega
  · rename_i h
    rw [getLast?_eq_none_iff.mp h]
    exact ⟨le_rfl, Nat.zero_le 1⟩

/-- The invariant of the runs that keep the condition. -/
structure Inv (floatRepr : PyFloat → List Char) (depth : Nat) (s : Root) : Prop where
  sound : ∀ segment ∈ s.segments, SoundSegment floatRepr depth segment
  returned : s.returned = s.segments.flatMap records
  count : s.segments.length < 100000

theorem soundSegment_getD (h : ∀ segment ∈ segments, SoundSegment floatRepr depth segment)
    (i : Nat) : SoundSegment floatRepr depth (segments.getD i []) := by
  rw [getD_eq_getElem?_getD]
  cases hget : segments[i]? with
  | none => exact ⟨[], [], [], sound_nil⟩
  | some segment => exact h segment (mem_of_getElem? hget)

theorem Inv.append (h : Inv floatRepr depth s) (hi : i ≤ s.segments.length) (hcount : i < 99999)
    (hsound : SoundSegment floatRepr depth (s.segments.getD i [] ++ [w])) :
    (∀ segment ∈ appendTo s.segments i w, SoundSegment floatRepr depth segment) ∧
      (appendTo s.segments i w).length < 100000 := by
  refine ⟨fun segment hsegment => ?_, length_appendTo_lt h.count hi (by omega)⟩
  rcases mem_appendTo hsegment with hmem | rfl
  · exact h.sound segment hmem
  · exact hsound

theorem inv_step {s s' : Root} {a : Event} (h : Inv floatRepr (depth + 4) s)
    (hmeets : Meets floatRepr (depth + 4) s a) (hs : step floatRepr s a = some s') :
    Inv floatRepr (depth + 4) s' := by
  obtain ⟨hle, hlast⟩ := activeSegment_bounds floatRepr s.segments
  have hsound := soundSegment_getD h.sound
  cases a with
  | close r =>
    obtain ⟨hcount, hwrites, hopen⟩ := hmeets
    rw [step] at hs
    split at hs
    · rename_i hline
      obtain rfl := some.inj hs
      obtain ⟨text, hr⟩ := exists_rowText hline hwrites depth
      obtain ⟨hall, hlen⟩ := h.append hle hcount ((hsound _).row hr hopen)
      refine ⟨hall, ?_, hlen⟩
      rw [records_appendTo_last hlast, h.returned]
      rfl
    · cases hs
  | closeFails r reached =>
    cases reached with
    | none =>
      obtain rfl := some.inj hs
      exact h
    | some n =>
      obtain ⟨hcount, hmeets⟩ := hmeets
      rw [step] at hs
      split at hs
      · rename_i hline
        obtain rfl := some.inj hs
        have hharmless : Harmless (depth + 4)
            (openLine floatRepr s.segments (activeSegment floatRepr s.segments) ++
              (rowBytes floatRepr r).take n) := by
          rcases hmeets with ⟨hwrites, hopen⟩ | hharmless
          · obtain ⟨text, hr⟩ := exists_rowText hline hwrites depth
            rw [hopen]
            exact hr.harmless_take n
          · exact hharmless
        obtain ⟨hall, hlen⟩ := h.append hle hcount ((hsound _).torn hline hharmless)
        exact ⟨hall, h.returned.trans (records_appendTo rfl).symm, hlen⟩
      · cases hs
  | foreign i line =>
    obtain ⟨hcount, hharmless⟩ := hmeets
    rw [step] at hs
    split at hs
    · rename_i hi
      obtain rfl := some.inj hs
      obtain ⟨hall, hlen⟩ := h.append hi hcount ((hsound i).foreign hharmless)
      exact ⟨hall, h.returned.trans (records_appendTo rfl).symm, hlen⟩
    · cases hs

theorem inv_of_reaches (h : (ledger floatRepr).Reaches (Meets floatRepr (depth + 4)) s) :
    Inv floatRepr (depth + 4) s := by
  refine h.invariant ?_ fun s a s' hs hmeets hstep => inv_step hs hmeets hstep
  rintro s rfl
  exact ⟨nofun, rfl, by decide⟩

/-! ### Reading all segments -/

theorem files_sorted (h : s.segments.length < 100000) :
    sortedFiles (s.files floatRepr) = s.files floatRepr := by
  refine mergeSort_of_pairwise (pairwise_iff_getElem.mpr fun i j hi hj hij => ?_)
  rw [Root.files, length_mapIdx] at hi hj
  simp only [Root.files, getElem_mapIdx]
  exact decide_eq_true (fileName_le (by omega) (by omega))

theorem iterRows_files (h : s.segments.length < 100000) :
    iterRows depth [] (s.files floatRepr) =
      flatten <$> (s.segments.map (contents floatRepr)).mapM (readFile depth) := by
  rw [iterRows, files_sorted h, show sortedFiles [] = [] from mergeSort_nil, nil_append]
  have hcontents : (s.files floatRepr).map Prod.snd = s.segments.map (contents floatRepr) := by
    apply ext_getElem?
    intro i
    rw [Root.files, getElem?_map, getElem?_mapIdx, getElem?_map, Option.map_map]
    rfl
  rw [hcontents]

theorem exists_rows (h : ∀ segment ∈ segments, SoundSegment floatRepr depth segment) :
    ∃ rowss otherss, (segments.map (contents floatRepr)).mapM (readFile depth) = .ok rowss ∧
      ((segments.map foreignWrites).map (contents floatRepr)).mapM (readFile depth) = .ok otherss ∧
      Merges (segments.flatMap records) otherss.flatten rowss.flatten := by
  induction segments with
  | nil => exact ⟨[], [], rfl, rfl, .nil⟩
  | cons segment segments ih =>
    obtain ⟨tail, rows, others, hsegment⟩ := h segment mem_cons_self
    obtain ⟨rowss, otherss, hrows, hothers, hmerges⟩ :=
      ih fun segment' hmem => h segment' (mem_cons_of_mem segment hmem)
    obtain ⟨rest, hrest⟩ := harmless_iff.mp hsegment.harmless
    refine ⟨(rows ++ rest) :: rowss, (others ++ rest) :: otherss, ?_, ?_, ?_⟩
    · rw [map_cons, mapM_cons, hsegment.lines.read hrest, hrows]
      rfl
    · rw [map_cons, map_cons, mapM_cons, hsegment.foreign.read hrest, hothers]
      rfl
    · rw [flatMap_cons, flatten_cons, flatten_cons]
      exact (hsegment.merges.append_rights rest).append hmerges

theorem foldl_eq_lastFor (runId : PyStr) (rows : List RunLedgerRecord) :
    rows.foldl (fun found r => if r.runId = runId then some r else found) none =
      lastFor RunLedgerRecord.runId runId rows := by
  induction rows using reverseRecOn with
  | nil => rfl
  | append_singleton rows r ih => rw [foldl_append, foldl_cons, foldl_nil, ih, lastFor_concat]

/-- **One bad line hides nothing else.**  In every run whose events meet their condition, the reader
comes to its end.  It yields each record whose close returned once, in the order of the closes,
merged with what it would yield without the rows of these closes, and a run id that none of the
latter carries leads to the last record with it. -/
theorem iterRows_of_reaches (depth : Nat) {s : Root}
    (h : (ledger floatRepr).Reaches (Meets floatRepr (depth + 4)) s) :
    ∃ rows others, iterRows (depth + 4) [] (s.files floatRepr) = .ok rows ∧
      iterRows (depth + 4) [] (s.foreign.files floatRepr) = .ok others ∧
      Merges s.returned others rows ∧
      ∀ runId, (∀ r ∈ others, r.runId ≠ runId) →
        findRun (depth + 4) [] (s.files floatRepr) runId =
          .ok (lastFor RunLedgerRecord.runId runId s.returned) := by
  have hinv := inv_of_reaches h
  obtain ⟨rowss, otherss, hrows, hothers, hmerges⟩ := exists_rows hinv.sound
  have hcount : s.foreign.segments.length < 100000 := by
    rw [Root.foreign, List.length_map]
    exact hinv.count
  have hiter : iterRows (depth + 4) [] (s.files floatRepr) = .ok rowss.flatten := by
    rw [iterRows_files hinv.count, hrows]
    rfl
  have hiter' : iterRows (depth + 4) [] (s.foreign.files floatRepr) = .ok otherss.flatten := by
    rw [iterRows_files hcount]
    exact congrArg (List.flatten <$> ·) hothers
  rw [← hinv.returned] at hmerges
  refine ⟨_, _, hiter, hiter', hmerges, fun runId hforeign => ?_⟩
  rw [findRun, hiter]
  refine congrArg Except.ok ((foldl_eq_lastFor runId rowss.flatten).trans ?_)
  rw [lastFor, lastFor, hmerges.filter_left fun r hr => decide_eq_false (hforeign r hr)]

end

/-! ### Runs -/

/-- The row of a run `a` without anything captured. -/
def bareRecord : RunLedgerRecord where
  runId := py "a"
  kind := .train
  derivedFrom := .none
  telemetryStatus := .complete
  statusReason := .none
  ir := []
  context := ⟨[], .nil⟩
  schemaVersion := 2
  ts := .str (py "2026-01-01T00:00:00+00:00")
  provenance := { values := provenanceFields.map Prod.snd, distributions := ⟨[], .nil⟩ }

theorem bareRecord_built : bareRecord.Built where
  schemaVersion := rfl
  runId := rfl
  derivedFrom := .inl rfl
  parent := nofun
  statusReason := .inl rfl
  status := fun h => absurd rfl h
  ts := ⟨_, rfl⟩
  ir := nofun
  values := by
    refine ⟨rfl, ?_⟩
    simp only [bareRecord, provenanceFields, map_cons, map_nil, forall_mem_cons]
    simp [Plain]
  distributions := nofun

def bareRun : RunRecord := ⟨bareRecord, bareRecord_built⟩

/-- A text for floats, of which the records have none. -/
def noFloats : PyFloat → List Char := fun _ => []

theorem iterRows_of_reaches_text :
    ∃ rows others,
      iterRows 4 [] (Root.files noFloats ⟨[[.foreign [120], .row bareRun]], [bareRecord]⟩) =
        .ok rows ∧
      iterRows 4 [] (Root.files noFloats
        (Root.foreign ⟨[[.foreign [120], .row bareRun]], [bareRecord]⟩)) = .ok others ∧
      Merges [bareRecord] others rows ∧
      ∀ runId, (∀ r ∈ others, r.runId ≠ runId) →
        findRun 4 [] (Root.files noFloats ⟨[[.foreign [120], .row bareRun]], [bareRecord]⟩) runId =
          .ok (lastFor RunLedgerRecord.runId runId [bareRecord]) := by
  have hline : Harmless 4 ([] ++ ([120] ++ [10])) := by
    refine ⟨['x', '\n'], decodeUtf8_utf8 ['x', '\n'], fun line hl => ?_⟩
    obtain rfl := List.mem_singleton.mp (show line ∈ [['x']] from hl)
    exact contained_iff.mpr ⟨[], rfl⟩
  have hwrites : Writes bareRun := by
    unfold Writes Unpaired
    decide
  exact iterRows_of_reaches 0
    (.next (.next (.start rfl) (a := .foreign 0 [120]) ⟨by decide, hline⟩ rfl) (a := .close bareRun)
      ⟨by decide, hwrites, rfl⟩ rfl)

theorem bareRun_line : ∃ rest, rowBytes noFloats bareRun = utf8 ('{' :: rest ++ ['\n']) ∧
    ∀ c ∈ '{' :: rest, PyJson.Printable c := by
  have hwrites : Writes bareRun := by
    unfold Writes Unpaired
    decide
  obtain ⟨text, hr⟩ := exists_rowText rfl hwrites 0
  obtain ⟨rest, rfl⟩ := hr.opens
  exact ⟨rest, hr.bytes, hr.printable⟩

/-- An object without `run_id` ends the reader with a `KeyError`, and one byte of a row that broke
off makes the next row unreadable. -/
theorem returned_row_hidden :
    (∃ s, (ledger noFloats).Reachable s ∧ s.returned = [bareRecord] ∧
      iterRows 1000 [] (s.files noFloats) = .error .keyError) ∧
    ∃ s, (ledger noFloats).Reachable s ∧ s.returned = [bareRecord] ∧
      iterRows 1000 [] (s.files noFloats) = .ok [] := by
  obtain ⟨rest, hrow, hprint⟩ := bareRun_line
  constructor
  · let version := utf8 "\x7b\"schema_version\":2\x7d".toList
    refine ⟨⟨[[.foreign version, .row bareRun]], [bareRecord]⟩,
      .next (.next (.start rfl) (a := .foreign 0 version) trivial rfl) (a := .close bareRun)
        trivial rfl, rfl, ?_⟩
    have hbytes : contents noFloats [.foreign version, .row bareRun] =
        utf8 ("\x7b\"schema_version\":2\x7d".toList ++ '\n' :: ('{' :: rest ++ ['\n'])) := by
      rw [contents, List.flatMap_cons, List.flatMap_singleton, Write.bytes, Write.bytes, hrow,
        List.append_assoc]
      exact (utf8_append _ ('\n' :: ('{' :: rest ++ ['\n']))).symm
    have hprintable : ("\x7b\"schema_version\":2\x7d".toList.all fun c =>
        decide (PyJson.Printable c)) = true := rfl
    have hversion := splitLines_terminated fun c hc =>
      isLineBreak_printable (printable_of_all _ hprintable c hc)
    rw [iterRows_files (by decide), List.map_singleton, hbytes, List.mapM_cons, readFile_utf8,
      splitLines_append, hversion, List.singleton_append, List.mapM_cons]
    rfl
  · refine ⟨⟨[[.torn bareRun 1, .row bareRun]], [bareRecord]⟩,
      .next (.next (.start rfl) (a := .closeFails bareRun (some 1)) trivial rfl)
        (a := .close bareRun) trivial rfl, rfl, ?_⟩
    have hbytes : contents noFloats [.torn bareRun 1, .row bareRun] =
        utf8 (('{' :: '{' :: rest) ++ ['\n']) := by
      rw [contents, List.flatMap_cons, List.flatMap_singleton, Write.bytes, Write.bytes, hrow]
      rfl
    have hlines : splitLines false (('{' :: '{' :: rest) ++ ['\n']) = ['{' :: '{' :: rest] :=
      splitLines_terminated fun c hc => isLineBreak_printable
        (printable_cons (by decide) hprint c hc)
    rw [iterRows_files (by decide), List.map_singleton, hbytes, List.mapM_cons, readFile_utf8,
      hlines, List.mapM_cons]
    rfl

end Xtrax.LedgerText
