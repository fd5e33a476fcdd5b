import Xtrax.SegmentLines

/-! # Writing a segment

`SegmentWriter` appends a line for each row, and a trailer when it closes.  Every write may stop after
any of its bytes, and `fsync` may fail: the call raises, and the next write begins with a newline.

So the lines of the file are the lines of what was written of each call (`lines_run`), and what was
written of a call is its whole line, or a beginning which neither reader takes for a row or a trailer.
-/
namespace Xtrax.SegmentLines

open List Option

open PyJson (PyStr py)
open UnitIndex

/-! ## Writes that fail -/

/-- How a write ends. -/
inductive Fate
  | done
  /-- It stops after so many bytes, or after all of them. -/
  | stops (n : Nat)
  /-- All bytes are written, and `fsync` fails. -/
  | unsynced

/-- What of some bytes gets into the file. -/
def Fate.reaches (fate : Fate) (bytes : Bytes) : Bytes :=
  match fate with
  | stops n => bytes.take n
  | done | unsynced => bytes

def Fate.returns : Fate → Bool
  | done => true
  | stops _ | unsynced => false

/-- `SegmentWriter`, and the bytes of its file. -/
structure Segment where
  writerId : PyStr
  data : Bytes := []
  /-- `_fd is not None`. -/
  isOpen : Bool := true
  closed : Bool := false
  clean : Bool := true
  rowsWritten : Nat := 0

/-- What a call comes to. -/
structure Reply where
  returned : Bool
  /-- What was written of the call's own line. -/
  written : Bytes := []

/-- What ends the fragment a failed write left. -/
def Segment.ahead (s : Segment) : Bytes := if s.clean then [] else [newline]

def Segment.write (s : Segment) (line : Bytes) (fate : Fate) : Segment × Reply :=
  if s.isOpen then
    let bytes := fate.reaches (s.ahead ++ line)
    ({ s with data := s.data ++ bytes, clean := fate.returns },
      { returned := fate.returns, written := bytes.drop s.ahead.length })
  else (s, { returned := false })

section

variable (I : Interpreter)

def IndexRow.stored (r : IndexRow) : Option IndexRow :=
  (I.canonicalStore r.store).map fun store => { r with store := store }

def Segment.append (s : Segment) (r : IndexRow) (fate : Fate) : Segment × Reply :=
  if s.closed then (s, { returned := false })
  else if r.writerId ≠ s.writerId then (s, { returned := false })
  else
    match r.stored I with
    | none => (s, { returned := false })
    | some row =>
      match row.text I with
      | none => (s, { returned := false })
      | some text =>
        let (s', reply) := s.write (utf8 text ++ [newline]) fate
        if reply.returned then ({ s' with rowsWritten := s'.rowsWritten + 1 }, reply)
        else (s', reply)

def Segment.close (s : Segment) (fate : Fate) : Segment × Reply :=
  if s.closed then (s, { returned := true })
  else if !s.isOpen then ({ s with closed := true }, { returned := true })
  else
    let (s', reply) := { s with closed := true }.write (trailerText ++ [newline]) fate
    ({ s' with isOpen := false }, reply)

inductive Call
  | append (r : IndexRow) (fate : Fate)
  | close (fate : Fate)

def step (s : Segment) : Call → Segment × Reply
  | .append r fate => s.append I r fate
  | .close fate => s.close fate

/-- Some calls, each with what it comes to. -/
def run (s : Segment) : List Call → Segment × List (Call × Reply)
  | [] => (s, [])
  | c :: calls =>
    let (s', reply) := step I s c
    let (last, history) := run s' calls
    (last, (c, reply) :: history)

/-! ## What is asked of them -/

/-- What the reader makes of the line of a row; nothing where the row is not accepted. -/
def IndexRow.reading (r : IndexRow) : Option IndexRow := (r.stored I).bind (readBack I)

def Call.row? : Call → Option IndexRow
  | append r _ => some r
  | close _ => none

/-- The rows passed to `append`. -/
def appended (calls : List Call) : List IndexRow := calls.filterMap Call.row?

/-- The row of an `append` that returned. -/
def returnedRow? (h : Call × Reply) : Option IndexRow := if h.2.returned then h.1.row? else none

/-- The rows whose `append` returned. -/
def returned (history : List (Call × Reply)) : List IndexRow := history.filterMap returnedRow?

/-- The whole trailer object was written. -/
def TrailerWritten (history : List (Call × Reply)) : Prop :=
  ∃ h ∈ history, h.1.row? = none ∧ trailerText <+: h.2.written

/-- The line of a call, without the newline. -/
def Call.line : Call → Option Bytes
  | append r _ => ((r.stored I).bind (·.text I)).map utf8
  | close _ => some trailerText

variable {I} {s s' : Segment} {c : Call} {reply : Reply} {fate : Fate} {h : Call × Reply}
  {calls : List Call} {history : List (Call × Reply)} {line l : Bytes} {text : List Char}

/-! ## One call -/

/-- A call writes nothing. -/
structure Idle (s : Segment) (c : Call) (s' : Segment) (reply : Reply) : Prop where
  data : s'.data = s.data
  clean : s'.clean = s.clean
  written : reply.written = []
  refused : c.row? ≠ none → reply.returned = false

/-- A call writes some of a line. -/
structure Wrote (s : Segment) (line : Bytes) (fate : Fate) (s' : Segment) (reply : Reply) : Prop where
  data : s'.data = s.data ++ fate.reaches (s.ahead ++ (line ++ [newline]))
  clean : s'.clean = fate.returns
  written : reply.written = (fate.reaches (s.ahead ++ (line ++ [newline]))).drop s.ahead.length
  returned : reply.returned = fate.returns

theorem write_wrote (line : List UInt8) (fate : Fate) (hopen : s.isOpen = true) :
    Wrote s line fate (s.write (line ++ [newline]) fate).1 (s.write (line ++ [newline]) fate).2 := by
  rw [Segment.write, if_pos hopen]
  exact ⟨rfl, rfl, rfl, rfl⟩

/-- **What a call can do.** -/
theorem step_cases (h : step I s c = (s', reply)) :
    (s.closed = true → s'.closed = true) ∧ (c.row? = none → s'.closed = true) ∧
      (Idle s c s' reply ∨
        s.closed = false ∧ ∃ line fate, c.line I = some line ∧ Wrote s line fate s' reply) := by
  cases c with
  | append r fate =>
    simp only [step, Segment.append] at h
    by_cases hclosed : s.closed = true
    · rw [if_pos hclosed] at h
      obtain ⟨rfl, rfl⟩ := Prod.mk.inj h
      exact ⟨id, nofun, .inl ⟨rfl, rfl, rfl, fun _ => rfl⟩⟩
    · rw [if_neg hclosed] at h
      refine ⟨fun htrue => absurd htrue hclosed, nofun, ?_⟩
      by_cases hid : r.writerId ≠ s.writerId
      · rw [if_pos hid] at h
        obtain ⟨rfl, rfl⟩ := Prod.mk.inj h
        exact .inl ⟨rfl, rfl, rfl, fun _ => rfl⟩
      · rw [if_neg hid] at h
        cases hstored : r.stored I with
        | none =>
          simp only [hstored] at h
          obtain ⟨rfl, rfl⟩ := Prod.mk.inj h
          exact .inl ⟨rfl, rfl, rfl, fun _ => rfl⟩
        | some row =>
          cases htext : row.text I with
          | none =>
            simp only [hstored, htext] at h
            obtain ⟨rfl, rfl⟩ := Prod.mk.inj h
            exact .inl ⟨rfl, rfl, rfl, fun _ => rfl⟩
          | some text =>
            simp only [hstored, htext] at h
            by_cases hopen : s.isOpen = true
            · have hwrote := write_wrote (utf8 text) fate hopen
              refine .inr ⟨by simpa using hclosed, utf8 text, fate, ?_, ?_⟩
              · simp [Call.line, hstored, htext]
              · split at h
                · obtain ⟨rfl, rfl⟩ := Prod.mk.inj h
                  exact ⟨hwrote.data, hwrote.clean, hwrote.written, hwrote.returned⟩
                · obtain ⟨rfl, rfl⟩ := Prod.mk.inj h
                  exact hwrote
            · rw [Segment.write, if_neg hopen, if_neg nofun] at h
              obtain ⟨rfl, rfl⟩ := Prod.mk.inj h
              exact .inl ⟨rfl, rfl, rfl, fun _ => rfl⟩
  | close fate =>
    simp only [step, Segment.close] at h
    by_cases hclosed : s.closed = true
    · rw [if_pos hclosed] at h
      obtain ⟨rfl, rfl⟩ := Prod.mk.inj h
      exact ⟨id, fun _ => hclosed, .inl ⟨rfl, rfl, rfl, fun hrow => absurd rfl hrow⟩⟩
    · rw [if_neg hclosed] at h
      by_cases hopen : s.isOpen = true
      · rw [if_neg (by simp [hopen])] at h
        obtain ⟨rfl, rfl⟩ := Prod.mk.inj h
        have hwrote := write_wrote (s := { s with closed := true }) trailerText fate hopen
        have hlater : ∀ line, ({ s with closed := true }.write line fate).1.closed = true := by
          intro line
          rw [Segment.write, if_pos hopen]
        exact ⟨fun _ => hlater _, fun _ => hlater _, .inr ⟨by simpa using hclosed, trailerText, fate, rfl,
          hwrote.data, hwrote.clean, hwrote.written, hwrote.returned⟩⟩
      · rw [if_pos (by simpa using hopen)] at h
        obtain ⟨rfl, rfl⟩ := Prod.mk.inj h
        exact ⟨fun _ => rfl, fun _ => rfl, .inl ⟨rfl, rfl, rfl, fun hrow => absurd rfl hrow⟩⟩

/-! ## What is in the file -/

theorem Fate.reaches_prefix (fate : Fate) (bytes : Bytes) : fate.reaches bytes <+: bytes := by
  cases fate with
  | stops n => exact take_prefix n bytes
  | done | unsynced => exact prefix_rfl

theorem Fate.reaches_of_returns (hreturns : fate.returns = true) (bytes : Bytes) :
    fate.reaches bytes = bytes := by
  cases fate with
  | done => rfl
  | stops | unsynced => cases hreturns

theorem lines_of_ended {front : Bytes} (hended : Ended front) (more : Bytes) :
    lines (front ++ more) = lines front ++ lines more := by
  rcases hended with rfl | ⟨front, rfl⟩
  · rfl
  · rw [append_assoc, singleton_append, lines_append, lines_append]
    simp [lines_of_not_mem, isBlank]

theorem ended_ahead (hended : s.clean = true → Ended s.data) : Ended (s.data ++ s.ahead) := by
  by_cases hclean : s.clean = true
  · simpa [Segment.ahead, hclean] using hended hclean
  · exact .inr ⟨s.data, by simp [Segment.ahead, hclean]⟩

theorem lines_ahead : lines (s.data ++ s.ahead) = lines s.data := by
  by_cases hclean : s.clean = true
  · simp [Segment.ahead, hclean]
  · simp [Segment.ahead, hclean, lines_append, lines_of_not_mem, isBlank]

theorem Wrote.data_cases (h : Wrote s line fate s' reply) :
    s'.data = s.data ++ s.ahead ++ reply.written ∨
      s'.data = s.data ∧ reply.written = [] ∧ fate.returns = false := by
  have hprefix := fate.reaches_prefix (s.ahead ++ (line ++ [newline]))
  have hdata := h.data
  have hwritten := h.written
  by_cases hshort : (fate.reaches (s.ahead ++ (line ++ [newline]))).length < s.ahead.length
  · right
    have hempty : fate.reaches (s.ahead ++ (line ++ [newline])) = [] := by
      have hahead : s.ahead.length ≤ 1 := by
        unfold Segment.ahead
        split <;> simp
      exact eq_nil_of_length_eq_zero (by omega)
    refine ⟨by simpa [hempty] using hdata, by simpa [hempty] using hwritten, ?_⟩
    by_contra hreturns
    rw [Fate.reaches_of_returns (by simpa using hreturns)] at hempty
    simp at hempty
  · left
    obtain ⟨more, hmore⟩ : s.ahead <+: fate.reaches (s.ahead ++ (line ++ [newline])) :=
      prefix_of_prefix_length_le (prefix_append ..) hprefix (by omega)
    rw [← hmore] at hdata hwritten
    rw [hdata, hwritten, drop_left, append_assoc]

/-- **What a write puts in the file.** -/
theorem Wrote.fits (h : Wrote s line fate s' reply) :
    reply.written <+: line ++ [newline] ∧
      (reply.returned = true → reply.written = line ++ [newline]) := by
  rw [h.written, h.returned]
  constructor
  · have hdrop := (fate.reaches_prefix (s.ahead ++ (line ++ [newline]))).drop s.ahead.length
    rwa [drop_left] at hdrop
  · intro hreturns
    rw [Fate.reaches_of_returns hreturns, drop_left]

theorem Wrote.lines (h : Wrote s line fate s' reply) (hended : s.clean = true → Ended s.data) :
    lines s'.data = UnitIndex.lines s.data ++ UnitIndex.lines reply.written := by
  rcases h.data_cases with hdata | ⟨hdata, hwritten, -⟩
  · rw [hdata, lines_of_ended (ended_ahead hended), lines_ahead]
  · rw [hdata, hwritten]
    simp [lines_of_not_mem, isBlank]

theorem Wrote.ended (h : Wrote s line fate s' reply) (hclean : s'.clean = true) :
    Ended s'.data := by
  have hreturns : fate.returns = true := h.clean ▸ hclean
  rcases h.data_cases with hdata | ⟨-, -, hnot⟩
  · refine .inr ⟨s.data ++ s.ahead ++ line, ?_⟩
    rw [hdata, h.fits.2 (h.returned.trans hreturns), append_assoc _ line]
  · rw [hnot] at hreturns
    cases hreturns

/-- The file ends with a trailer. -/
def Trailed (data : Bytes) : Prop :=
  ∃ front rest, Ended front ∧ rest <+: [newline] ∧ data = front ++ (trailerText ++ rest)

theorem Wrote.trailed (h : Wrote s trailerText fate s' reply)
    (hended : s.clean = true → Ended s.data) (hwhole : trailerText <+: reply.written) :
    Trailed s'.data := by
  rcases h.data_cases with hdata | ⟨-, hwritten, -⟩
  · obtain ⟨rest, hrest⟩ := hwhole
    have hfits := h.fits.1
    rw [← hrest] at hfits hdata
    exact ⟨s.data ++ s.ahead, rest, ended_ahead hended, (prefix_append_right_inj _).mp hfits, hdata⟩
  · rw [hwritten] at hwhole
    cases prefix_nil.mp hwhole

/-! ## Runs -/

/-- What was written of a call fits its line. -/
structure Fits (I : Interpreter) (h : Call × Reply) : Prop where
  written : h.2.written = [] ∨ ∃ line, h.1.line I = some line ∧ h.2.written <+: line ++ [newline]
  complete : h.1.row? ≠ none → h.2.returned = true →
    ∃ line, h.1.line I = some line ∧ h.2.written = line ++ [newline]

theorem step_fits (h : step I s c = (s', reply)) : Fits I (c, reply) := by
  obtain ⟨-, -, hidle | ⟨-, line, fate, hline, hwrote⟩⟩ := step_cases h
  · refine ⟨.inl hidle.written, fun hrow hreturned => ?_⟩
    rw [hidle.refused hrow] at hreturned
    cases hreturned
  · exact ⟨.inr ⟨line, hline, hwrote.fits.1⟩,
      fun _ hreturned => ⟨line, hline, hwrote.fits.2 hreturned⟩⟩

/-- **One call** adds the lines of what was written of it. -/
theorem step_lines (h : step I s c = (s', reply)) (hended : s.clean = true → Ended s.data) :
    (s'.clean = true → Ended s'.data) ∧ lines s'.data = lines s.data ++ lines reply.written := by
  obtain ⟨-, -, hidle | ⟨-, line, fate, -, hwrote⟩⟩ := step_cases h
  · rw [hidle.data, hidle.clean, hidle.written]
    exact ⟨hended, by simp [lines_of_not_mem, isBlank]⟩
  · exact ⟨hwrote.ended, hwrote.lines hended⟩

theorem run_cons (h : run I s (c :: calls) = (s', history)) :
    ∃ middle reply rest, step I s c = (middle, reply) ∧ run I middle calls = (s', rest) ∧
      history = (c, reply) :: rest := by
  obtain ⟨rfl, rfl⟩ := Prod.mk.inj h
  exact ⟨_, _, _, rfl, rfl, rfl⟩

/-- **The lines of the file** are those of what was written of each call. -/
theorem lines_run (h : run I s calls = (s', history)) (hended : s.clean = true → Ended s.data) :
    lines s'.data = lines s.data ++ history.flatMap fun h => lines h.2.written := by
  induction calls generalizing s history with
  | nil =>
    obtain ⟨rfl, rfl⟩ := Prod.mk.inj h
    simp
  | cons c calls ih =>
    obtain ⟨middle, reply, rest, hstep, hrun, rfl⟩ := run_cons h
    obtain ⟨hmiddle, hlines⟩ := step_lines hstep hended
    rw [ih hrun hmiddle, hlines, flatMap_cons, append_assoc]

theorem run_fits (h : run I s calls = (s', history)) : ∀ h ∈ history, Fits I h := by
  induction calls generalizing s history with
  | nil =>
    obtain ⟨-, rfl⟩ := Prod.mk.inj h
    exact forall_mem_nil _
  | cons c calls ih =>
    obtain ⟨middle, reply, rest, hstep, hrun, rfl⟩ := run_cons h
    exact forall_mem_cons.mpr ⟨step_fits hstep, ih hrun⟩

theorem run_calls (h : run I s calls = (s', history)) : history.map Prod.fst = calls := by
  induction calls generalizing s history with
  | nil =>
    obtain ⟨-, rfl⟩ := Prod.mk.inj h
    rfl
  | cons c calls ih =>
    obtain ⟨middle, reply, rest, -, hrun, rfl⟩ := run_cons h
    rw [map_cons, ih hrun]

theorem run_closed (h : run I s calls = (s', history)) (hclosed : s.closed = true) :
    s'.data = s.data ∧ ∀ h ∈ history, h.2.written = [] := by
  induction calls generalizing s history with
  | nil =>
    obtain ⟨rfl, rfl⟩ := Prod.mk.inj h
    exact ⟨rfl, forall_mem_nil _⟩
  | cons c calls ih =>
    obtain ⟨middle, reply, rest, hstep, hrun, rfl⟩ := run_cons h
    obtain ⟨hlater, -, hidle | ⟨hopen, -⟩⟩ := step_cases hstep
    · obtain ⟨hdata, hwritten⟩ := ih hrun (hlater hclosed)
      exact ⟨hdata.trans hidle.data, forall_mem_cons.mpr ⟨hidle.written, hwritten⟩⟩
    · rw [hclosed] at hopen
      cases hopen

/-- **A whole trailer** is the end of the file. -/
theorem run_trailed (h : run I s calls = (s', history)) (hended : s.clean = true → Ended s.data)
    (htrailer : TrailerWritten history) : Trailed s'.data := by
  induction calls generalizing s history with
  | nil =>
    obtain ⟨-, rfl⟩ := Prod.mk.inj h
    obtain ⟨_, hmem, -⟩ := htrailer
    cases hmem
  | cons c calls ih =>
    obtain ⟨middle, reply, rest, hstep, hrun, rfl⟩ := run_cons h
    obtain ⟨written, hmem, hrow, hwhole⟩ := htrailer
    rcases mem_cons.mp hmem with rfl | hmem
    · obtain ⟨-, hcloses, hidle | ⟨-, line, fate, hline, hwrote⟩⟩ := step_cases hstep
      · rw [hidle.written] at hwhole
        cases prefix_nil.mp hwhole
      · -- nothing is written after the trailer
        cases c with
        | append r fate => cases hrow
        | close fate' =>
          obtain rfl := some.inj hline
          rw [(run_closed hrun (hcloses hrow)).1]
          exact hwrote.trailed hended hwhole
    · exact ih hrun (step_lines hstep hended).1 ⟨written, hmem, hrow, hwhole⟩

/-! ## What is read of it -/

theorem readBack_eq_some {r r' : IndexRow} (h : readBack I r = some r') :
    ∃ text, r.text I = some text ∧ decode I (utf8 text) = .row r' := by
  unfold readBack at h
  cases htext : r.text I with
  | none => simp [htext] at h
  | some text =>
    simp only [htext] at h
    cases hdecode : decode I (utf8 text) with
    | row r'' =>
      simp only [hdecode] at h
      rw [some.inj h] at hdecode
      exact ⟨text, rfl, hdecode⟩
    | torn | trailer | unreadable | raises => simp [hdecode] at h

/-- What a call's whole line is read as. -/
def Call.whole (I : Interpreter) (c : Call) : Decoded → Prop
  | .row r => ∃ r', c.row? = some r' ∧ r'.reading I = some r
  | .trailer => c.row? = none
  | _ => False

theorem shallow_line (haccepted : ∀ r ∈ c.row?, (r.reading I).isSome) (hline : c.line I = some line) :
    ∃ text, line = utf8 text ∧ Shallow text ∧ c.whole I (decode I line) := by
  cases c with
  | append r fate =>
    obtain ⟨r', hreading⟩ := isSome_iff_exists.mp (haccepted r rfl)
    obtain ⟨row, hstored, hread⟩ := bind_eq_some_iff.mp hreading
    obtain ⟨text, htext, hdecode⟩ := readBack_eq_some hread
    obtain rfl : utf8 text = line := by simpa [Call.line, hstored, htext] using hline
    refine ⟨text, rfl, shallow_row htext, ?_⟩
    rw [hdecode]
    exact ⟨r, rfl, hreading⟩
  | close fate =>
    obtain rfl := some.inj hline
    have htext : trailerText = utf8 "\x7b\"closed\": true\x7d".toList := by decide
    refine ⟨_, htext, shallow_trailer, ?_⟩
    rw [decode_trailer]
    rfl

/-- **What a line of the file is**: the whole line of a call, or a torn beginning of it. -/
theorem Fits.lines_cases (hfits : Fits I h) (haccepted : ∀ r ∈ h.1.row?, (r.reading I).isSome) :
    lines h.2.written = [] ∧ (∀ line, h.1.line I = some line → ¬ line <+: h.2.written) ∨
      ∃ text p, h.1.line I = some (utf8 text) ∧ Shallow text ∧ p <+: text ∧
        lines h.2.written = [utf8 p] ∧ (p = text ↔ utf8 text <+: h.2.written) ∧
        (p = text → h.1.whole I (decode I (utf8 p))) ∧ (p ≠ text → decode I (utf8 p) = .torn) := by
  rcases hfits.written with hnone | ⟨line, hline, hwritten⟩
  · refine .inl ⟨by rw [hnone]; rfl, fun line hline hprefix => ?_⟩
    obtain ⟨text, rfl, hshallow, -⟩ := shallow_line haccepted hline
    rw [hnone] at hprefix
    have hempty := prefix_nil.mp hprefix
    obtain ⟨body, rfl, -⟩ := hshallow
    cases hempty
  · obtain ⟨text, rfl, hshallow, hwhole⟩ := shallow_line haccepted hline
    rcases hshallow.lines_written hwritten with ⟨hempty, hnot⟩ | ⟨p, hp, hne, hlines, hiff⟩
    · refine .inl ⟨hempty, fun line hline' => ?_⟩
      rw [hline] at hline'
      obtain rfl := some.inj hline'
      exact hnot
    · refine .inr ⟨text, p, hline, hshallow, hp, hlines, hiff, ?_, hshallow.decode_beginning hp hne⟩
      rintro rfl
      exact hwhole

/-! ## Reading the whole file -/

/-- What `_parse` should make of a history. -/
structure Reads (I : Interpreter) (history : List (Call × Reply)) (decoded : List Decoded) : Prop where
  raised : decoded.any Decoded.isRaised = false
  atLeast : ((returned history).map (·.reading I)).Sublist ((decoded.filterMap Decoded.row?).map some)
  atMost : ((decoded.filterMap Decoded.row?).map some).Sublist
    ((appended (history.map Prod.fst)).map (·.reading I))
  trailer : decoded.any Decoded.isTrailer = true ↔ TrailerWritten history

theorem Reads.append {history' : List (Call × Reply)} {decoded decoded' : List Decoded}
    (hreads : Reads I history decoded) (hreads' : Reads I history' decoded') :
    Reads I (history ++ history') (decoded ++ decoded') where
  raised := by rw [any_append, hreads.raised, hreads'.raised]; rfl
  atLeast := by simpa [returned] using hreads.atLeast.append hreads'.atLeast
  atMost := by simpa [appended] using hreads.atMost.append hreads'.atMost
  trailer := by
    rw [any_append, Bool.or_eq_true, hreads.trailer, hreads'.trailer]
    simp [TrailerWritten, or_and_right, exists_or]

theorem trailerWritten_singleton :
    TrailerWritten [h] ↔ h.1.row? = none ∧ trailerText <+: h.2.written := by simp [TrailerWritten]

theorem trailerWritten_of_close (hopen : s.isOpen = true) (hclosed : s.closed = false)
    (h : step I s (.close fate) = (s', reply)) (hreturned : reply.returned = true) :
    TrailerWritten [(.close fate, reply)] := by
  have hwrote := write_wrote (s := { s with closed := true }) trailerText fate hopen
  have hwrite : ({ s with closed := true }.write (trailerText ++ [newline]) fate).2 = reply := by
    simpa [step, Segment.close, hclosed, hopen] using congrArg Prod.snd h
  rw [hwrite] at hwrote
  have hfate : fate.returns = true := hwrote.returned ▸ hreturned
  rw [trailerWritten_singleton, hwrote.written, Fate.reaches_of_returns hfate, drop_left]
  exact ⟨rfl, prefix_append ..⟩

theorem Fits.returnedRow_eq_none (hfits : Fits I h)
    (hnot : ∀ line, h.1.line I = some line → ¬ line <+: h.2.written) : returnedRow? h = none := by
  unfold returnedRow?
  split
  next hreturned =>
    by_contra hrow
    obtain ⟨line, hline, hwritten⟩ := hfits.complete hrow hreturned
    exact hnot line hline (hwritten ▸ prefix_append ..)
  · rfl

theorem not_trailerWritten (hnot : ∀ line, h.1.line I = some line → ¬ line <+: h.2.written) :
    ¬ TrailerWritten [h] := by
  rw [trailerWritten_singleton]
  rintro ⟨hrow, hwhole⟩
  obtain ⟨c, reply⟩ := h
  cases c with
  | append r fate => cases hrow
  | close fate => exact hnot trailerText rfl hwhole

theorem Fits.reads (hfits : Fits I h) (haccepted : ∀ r ∈ h.1.row?, (r.reading I).isSome) :
    Reads I [h] ((lines h.2.written).map (decode I)) := by
  rcases hfits.lines_cases haccepted with
    ⟨hempty, hnot⟩ | ⟨text, p, hline, -, -, hlines, hiff, hwhole, htorn⟩
  · rw [hempty]
    refine ⟨rfl, ?_, nil_sublist _, ?_⟩
    · simp [returned, hfits.returnedRow_eq_none hnot]
    · exact iff_of_false nofun (not_trailerWritten hnot)
  · rw [hlines, map_singleton]
    by_cases heq : p = text
    · -- the whole line
      have hdecode := hwhole heq
      cases hread : decode I (utf8 p) with
      | row r =>
        rw [hread] at hdecode
        obtain ⟨r', hrow, hreading⟩ := hdecode
        refine ⟨rfl, ?_, ?_, ?_⟩
        · have hone : (returned [h]).Sublist [r'] := by
            unfold returned returnedRow?
            by_cases hreturned : h.2.returned = true <;> simp [hreturned, hrow]
          simpa [Decoded.row?, hreading] using hone.map (·.reading I)
        · simp [appended, hrow, hreading, Decoded.row?]
        · simp [trailerWritten_singleton, Decoded.isTrailer, hrow]
      | trailer =>
        rw [hread] at hdecode
        have hrow : h.1.row? = none := hdecode
        refine ⟨rfl, ?_, nil_sublist _, ?_⟩
        · simp [returned, returnedRow?, hrow]
        · obtain ⟨c, reply⟩ := h
          cases c with
          | append r fate => cases hrow
          | close fate =>
            rw [trailerWritten_singleton, some.inj hline]
            exact iff_of_true rfl ⟨rfl, hiff.mp heq⟩
      | torn | unreadable | raises =>
        rw [hread] at hdecode
        exact hdecode.elim
    · -- a torn one
      have hnot : ∀ line, h.1.line I = some line → ¬ line <+: h.2.written := by
        intro line hline'
        rw [hline] at hline'
        obtain rfl := some.inj hline'
        exact fun hprefix => heq (hiff.mpr hprefix)
      rw [htorn heq]
      refine ⟨rfl, ?_, nil_sublist _, ?_⟩
      · simp [returned, hfits.returnedRow_eq_none hnot]
      · exact iff_of_false nofun (not_trailerWritten hnot)

theorem reads_history (hfits : ∀ h ∈ history, Fits I h)
    (haccepted : ∀ h ∈ history, ∀ r ∈ h.1.row?, (r.reading I).isSome) :
    Reads I history ((history.flatMap fun h => lines h.2.written).map (decode I)) := by
  induction history with
  | nil =>
    refine ⟨rfl, nil_sublist _, nil_sublist _, iff_of_false nofun ?_⟩
    rintro ⟨h, hmem, -⟩
    cases hmem
  | cons h history ih =>
    obtain ⟨hfit, hfits⟩ := forall_mem_cons.mp hfits
    obtain ⟨haccept, haccepted⟩ := forall_mem_cons.mp haccepted
    rw [flatMap_cons, map_append]
    exact (hfit.reads haccept).append (ih hfits haccepted)

/-! ## Reading its end -/

theorem ended_suffix {front data : Bytes} (hended : Ended data) (hsuffix : front <:+ data) :
    Ended front := by
  rcases hended with rfl | ⟨rest, rfl⟩
  · exact .inl (suffix_nil.mp hsuffix)
  · rcases suffix_concat_iff.mp hsuffix with rfl | ⟨more, rfl, -⟩
    · exact .inl rfl
    · exact .inr ⟨more, rfl⟩

/-- **A trailer at the end** is found: the tail holds all of it. -/
theorem Trailed.hasTrailer {data : Bytes} (htrailed : Trailed data) :
    hasTrailer I data = some true := by
  obtain ⟨front, rest, hended, hrest, rfl⟩ := htrailed
  have hlength : (trailerText ++ rest).length ≤ tailSize := by
    have hle := hrest.length_le
    simp only [length_append, length_singleton] at hle ⊢
    have hsizes : trailerText.length = 16 ∧ tailSize = 4096 := ⟨rfl, rfl⟩
    omega
  obtain ⟨more, htail⟩ : trailerText ++ rest <:+ tailOf (front ++ (trailerText ++ rest)) := by
    refine suffix_of_suffix_length_le (suffix_append ..) (tailOf_suffix _) ?_
    simp only [tailOf, length_reverse, length_take, length_append] at hlength ⊢
    omega
  have hmore : more <:+ front := by
    have hsuffix := tailOf_suffix (front ++ (trailerText ++ rest))
    rw [← htail] at hsuffix
    obtain ⟨before, hbefore⟩ := hsuffix
    rw [← append_assoc] at hbefore
    exact ⟨before, append_cancel_right hbefore⟩
  have hlines : lines (trailerText ++ rest) = [trailerText] := by
    rcases prefix_cons_iff.mp hrest with rfl | ⟨rest, rfl, hnil⟩
    · decide
    · rw [prefix_nil.mp hnil]
      decide
  rw [SegmentLines.hasTrailer, ← htail, lines_of_ended (ended_suffix hended hmore), hlines,
    getLast?_concat]
  exact closedLine_eq_true.mpr decode_trailer

theorem mem_lines_tail {data : Bytes} (hl : l ∈ lines (tailOf data)) :
    ∃ l' ∈ lines data, l <:+ l' := by
  obtain ⟨front, hfront⟩ := tailOf_suffix data
  rw [lines, mem_filter] at hl
  obtain ⟨hmem, hblank⟩ := hl
  obtain ⟨l', hmem', hsuffix⟩ := suffix_of_mem_splitOn front hmem
  rw [hfront] at hmem'
  refine ⟨l', mem_filter.mpr ⟨hmem', ?_⟩, hsuffix⟩
  by_contra hblank'
  have hall : isBlank l' = true := by simpa using hblank'
  have hpart : isBlank l = true :=
    all_eq_true.mpr fun b hb => all_eq_true.mp hall b (hsuffix.subset hb)
  simp [hpart] at hblank

theorem Fits.not_trailer (hfits : Fits I h) (haccepted : ∀ r ∈ h.1.row?, (r.reading I).isSome)
    (hnot : ¬ TrailerWritten [h]) {l' : Bytes} (hmem : l' ∈ lines h.2.written) (hl : l <:+ l') :
    decode I l ≠ .trailer := by
  rcases hfits.lines_cases haccepted with
    ⟨hempty, -⟩ | ⟨text, p, hline, hshallow, hp, hlines, hiff, hwhole, htorn⟩
  · rw [hempty] at hmem
    cases hmem
  · rw [hlines, mem_singleton] at hmem
    subst hmem
    by_cases heq : l = utf8 p
    · subst heq
      by_cases hcut : p = text
      · intro htrailer
        have hclose := hwhole hcut
        rw [htrailer] at hclose
        refine hnot (trailerWritten_singleton.mpr ⟨hclose, ?_⟩)
        obtain ⟨c, reply⟩ := h
        cases c with
        | append r fate => cases hclose
        | close fate =>
          rw [some.inj hline]
          exact hiff.mp hcut
      · rw [htorn hcut]
        exact nofun
    · exact hshallow.decode_piece hp hl heq

/-- **A segment without a whole trailer** has none in its tail. -/
theorem hasTrailer_ne_true {data : Bytes}
    (hdata : lines data = history.flatMap fun h => lines h.2.written)
    (hfits : ∀ h ∈ history, Fits I h)
    (haccepted : ∀ h ∈ history, ∀ r ∈ h.1.row?, (r.reading I).isSome)
    (hnot : ¬ TrailerWritten history) : hasTrailer I data ≠ some true := by
  unfold hasTrailer
  cases hlast : (lines (tailOf data)).getLast? with
  | none => exact nofun
  | some l =>
    obtain ⟨l', hmem, hsuffix⟩ := mem_lines_tail (mem_of_getLast? hlast)
    rw [hdata, mem_flatMap] at hmem
    obtain ⟨h, hh, hmem⟩ := hmem
    have hone : ¬ TrailerWritten [h] := by
      rintro ⟨h', hh', htrailer⟩
      rw [mem_singleton.mp hh'] at htrailer
      exact hnot ⟨h, hh, htrailer⟩
    intro htrue
    exact (hfits h hh).not_trailer (haccepted h hh) hone hmem hsuffix (closedLine_eq_true.mp htrue)

theorem hasTrailer_ne_none {data : Bytes} (hdepth : tailSize ≤ I.depth) :
    hasTrailer I data ≠ none := by
  unfold hasTrailer
  cases hlast : (lines (tailOf data)).getLast? with
  | none => exact nofun
  | some l =>
    refine closedLine_ne_none ?_
    have hmem := (mem_filter.mp (mem_of_getLast? hlast)).1
    have hle := (mem_splitOn hmem).1.length_le
    have htail : (tailOf data).length ≤ tailSize := by
      simp only [tailOf, length_reverse, length_take]
      omega
    omega

/-! ## Both readers -/

/-- **Whatever fails, a segment keeps its rows.**  Reading it gives back every row whose `append`
returned, in their order, and nothing but rows that were passed to `append`; and each of the two readers
sees a trailer just where all of it was written. -/
theorem parse_run {writerId : PyStr} (haccepted : ∀ r ∈ appended calls, (r.reading I).isSome)
    (hrun : run I { writerId := writerId } calls = (s, history)) :
    ∃ parsed, parse I s.data = some parsed ∧
      ((returned history).map (·.reading I)).Sublist (parsed.rows.map some) ∧
      (parsed.rows.map some).Sublist ((appended calls).map (·.reading I)) ∧
      (parsed.trailer = true ↔ TrailerWritten history) ∧
      (hasTrailer I s.data = some true ↔ TrailerWritten history) ∧
      (tailSize ≤ I.depth → hasTrailer I s.data ≠ none) := by
  have hended : (({ writerId := writerId } : Segment).clean = true → Ended []) := fun _ => .inl rfl
  have hfits := run_fits hrun
  have hcalls := run_calls hrun
  have hdata : lines s.data = history.flatMap fun h => lines h.2.written := by
    rw [lines_run hrun hended]
    simp [lines_of_not_mem, isBlank]
  have haccepted' : ∀ h ∈ history, ∀ r ∈ h.1.row?, (r.reading I).isSome := by
    intro h hh r hr
    refine haccepted r (List.mem_filterMap.mpr ⟨h.1, ?_, hr⟩)
    rw [← hcalls]
    exact List.mem_map_of_mem hh
  have hreads := reads_history hfits haccepted'
  rw [← hdata] at hreads
  have hatMost := hreads.atMost
  rw [hcalls] at hatMost
  refine ⟨_, by simp only [parse, hreads.raised]; rfl, hreads.atLeast, hatMost, hreads.trailer,
    ⟨fun htrue => ?_, fun hwritten => ?_⟩, hasTrailer_ne_none⟩
  · by_contra hnot
    exact hasTrailer_ne_true hdata hfits haccepted' hnot htrue
  · exact (run_trailed hrun hended hwritten).hasTrailer

end

namespace FailedWrites

def interpreter : Interpreter where
  depth := 10000
  floatRepr _ := ['0', '.', '0']
  canonicalStore := some
  two_le_depth := by decide
  floatRepr_lone _ := by decide

def row : IndexRow where
  store := py "/store"
  locator := py "out/a"
  unitKey := py "u"
  inputDigest := py "i"
  contentDigest := py "c"
  recordDigest := py "r"
  adapter := py "zarr"
  writerId := py "host-1-nojob-0-ab"
  runId := py "run"
  ts := .int 7

/-- A write that stops inside its row, one that returns, one that is not synced, and a trailer that is
cut off. -/
def calls : List Call :=
  [.append row (.stops 40), .append row .done, .append row .unsynced, .close (.stops 7)]

def ran : Segment × List (Call × Reply) := run interpreter { writerId := row.writerId } calls

theorem parse_ran : returned ran.2 = [row] ∧
    ∃ parsed, parse interpreter ran.1.data = some parsed ∧
      ((returned ran.2).map (·.reading interpreter)).Sublist (parsed.rows.map some) ∧
      (parsed.rows.map some).Sublist ((appended calls).map (·.reading interpreter)) ∧
      (parsed.trailer = true ↔ TrailerWritten ran.2) ∧
      (hasTrailer interpreter ran.1.data = some true ↔ TrailerWritten ran.2) ∧
      (tailSize ≤ interpreter.depth → hasTrailer interpreter ran.1.data ≠ none) := by
  have hreading : (row.reading interpreter).isSome = true := by
    have hstored : row.stored interpreter = some row := rfl
    rw [IndexRow.reading, hstored, Option.bind_some, readBack_eq]
    decide +kernel
  refine ⟨rfl, parse_run ?_ (rfl : run interpreter { writerId := row.writerId } calls = ran)⟩
  intro r hr
  have happended : appended calls = [row, row, row] := rfl
  rw [happended] at hr
  obtain rfl : r = row := by simpa using hr
  exact hreading

end FailedWrites

end Xtrax.SegmentLines
