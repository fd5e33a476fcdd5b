import Xtrax.UnitIndex

/-! # Lines that stay what they are

A file is only written at its end, and the next write of a writer that has failed begins
with a newline.  So a whole line stays a line (`Written.append`), a writer that has not
begun to close leaves no trailer for `_has_trailer` to find (`NoTrailer.append_row`), and
closing a segment changes none of its rows (`Settling.close`).
-/
namespace Xtrax.UnitIndex

open List

/-! ## Splitting at newlines -/

section
variable {α : Type} {a : α} {l xs ys : List α}

theorem infix_of_separator (h : l <:+: xs ++ a :: ys) (ha : a ∉ l) : l <:+: xs ∨ l <:+: ys := by
  rcases infix_append_iff.mp h with hx | hy | ⟨l₁, l₂, rfl, hsuffix, hprefix⟩
  · exact .inl hx
  · rcases infix_cons_iff.mp hy with hpre | hy
    · cases l with
      | nil => exact .inl ( nil_infix)
      | cons b l =>
        obtain ⟨rfl, -⟩ := cons_prefix_cons.mp hpre
        exact absurd (mem_cons_self ..) ha
    · exact .inr hy
  · cases l₂ with
    | nil =>
      rw [append_nil]
      exact .inl hsuffix.isInfix
    | cons b l₂ =>
      obtain ⟨rfl, -⟩ := cons_prefix_cons.mp hprefix
      exact absurd (mem_append_right _ (mem_cons_self ..)) ha

theorem mem_splitOn [BEq α] [LawfulBEq α] (h : l ∈ xs.splitOn a) : l <:+: xs ∧ a ∉ l := by
  -- on the length: what is after the first separator is shorter
  induction hn : xs.length using Nat.strong_induction_on generalizing xs with
  | h n ih =>
    by_cases hmem : a ∈ xs
    · obtain ⟨front, rest, rfl, hfront⟩ := eq_append_cons_of_mem hmem
      rw [splitOn_append_cons_self_of_not_mem hfront] at h
      rcases mem_cons.mp h with rfl | h
      · exact ⟨(prefix_append l (a :: rest)).isInfix, hfront⟩
      · have hlt : rest.length < n := by
          rw [← hn, length_append, length_cons]
          omega
        obtain ⟨hpart, hnot⟩ := ih rest.length hlt h rfl
        have hsuffix : rest <:+ front ++ a :: rest :=
          (suffix_cons a rest).trans (suffix_append ..)
        exact ⟨hpart.trans hsuffix.isInfix, hnot⟩
    · rw [splitOn_eq_singleton hmem, mem_singleton] at h
      subst h
      exact ⟨infix_rfl, hmem⟩

theorem suffix_of_mem_splitOn [BEq α] [LawfulBEq α] (front : List α) (h : l ∈ xs.splitOn a) :
    ∃ l' ∈ (front ++ xs).splitOn a, l <:+ l' := by
  induction front with
  | nil => exact ⟨l, h, suffix_rfl⟩
  | cons b front ih =>
    obtain ⟨l', hmem, hsuffix⟩ := ih
    rw [cons_append, splitOn_cons_eq_if_modifyHead]
    by_cases hb : b = a
    · rw [if_pos (by simpa using hb)]
      exact ⟨l', mem_cons_of_mem _ hmem, hsuffix⟩
    · rw [if_neg (by simpa using hb)]
      cases hsplit : (front ++ xs).splitOn a with
      | nil => exact absurd hsplit (splitOn_ne_nil a _)
      | cons first rest =>
        rw [hsplit] at hmem
        rcases mem_cons.mp hmem with rfl | hmem
        · exact ⟨b :: l', mem_cons_self .., hsuffix.trans (suffix_cons b l')⟩
        · exact ⟨l', mem_cons_of_mem _ hmem, hsuffix⟩

end

theorem lines_append (A B : Bytes) : lines (A ++ newline :: B) = lines A ++ lines B := by
  rw [lines, splitOn_append_cons_self, filter_append]
  rfl

theorem lines_of_not_mem {l : Bytes} (h : newline ∉ l) :
    lines l = if isBlank l then [] else [l] := by
  rw [lines, splitOn_eq_singleton h]
  cases hblank : isBlank l <;> simp [hblank]

/-! ## What a file holds -/

section
variable (O : Outside)

/-- A line of the file is a row of the place. -/
def Holds (data : Bytes) (p : Place) : Prop := ∃ l ∈ lines data, ∃ r, O.decode l = .row r ∧ r.place = p

/-- What has been written ends where a line does. -/
def Ended (data : Bytes) : Prop := data = [] ∨ ∃ front, data = front ++ [newline]

/-- The text is a whole line of the file. -/
def Written (data text : Bytes) : Prop :=
  ∃ front rest, Ended front ∧ data = front ++ (text ++ newline :: rest)

/-- No line, nor a piece of one, is a trailer. -/
def NoTrailer (data : Bytes) : Prop :=
  ∀ l, l <:+: data → newline ∉ l → isBlank l = false → O.decode l ≠ .trailer

/-- Nothing that is still to be written changes the rows. -/
def Settling (data todo : Bytes) : Prop :=
  ∀ t, t <+: todo → ∀ p, Holds O (data ++ t) p ↔ Holds O data p

variable {O} {data more text A B l : Bytes} {p : Place} {r : IndexRow}

theorem holds_append : Holds O (A ++ newline :: B) p ↔ Holds O A p ∨ Holds O B p := by
  unfold Holds
  rw [lines_append]
  constructor
  · rintro ⟨l, hl, hrow⟩
    rcases mem_append.mp hl with hl | hl
    · exact .inl ⟨l, hl, hrow⟩
    · exact .inr ⟨l, hl, hrow⟩
  · rintro (⟨l, hl, hrow⟩ | ⟨l, hl, hrow⟩)
    · exact ⟨l, mem_append_left _ hl, hrow⟩
    · exact ⟨l, mem_append_right _ hl, hrow⟩

theorem not_holds_nil : ¬ Holds O [] p := by
  rintro ⟨l, hl, -⟩
  rw [lines_of_not_mem (not_mem_nil)] at hl
  exact not_mem_nil hl

theorem holds_of_ended (h : Ended A) : Holds O (A ++ B) p ↔ Holds O A p ∨ Holds O B p := by
  rcases h with rfl | ⟨front, rfl⟩
  · simp [not_holds_nil]
  · have hfront : Holds O (front ++ [newline]) p ↔ Holds O front p := by
      rw [holds_append]
      simp [not_holds_nil]
    rw [hfront, append_assoc]
    exact holds_append

theorem Written.append (h : Written data text) (more : Bytes) : Written (data ++ more) text := by
  obtain ⟨front, rest, hended, rfl⟩ := h
  exact ⟨front, rest ++ more, hended, by simp⟩

theorem Written.holds (h : Written data text) (htext : O.rowText r = some text) :
    Holds O data r.place := by
  obtain ⟨front, rest, hended, rfl⟩ := h
  refine (holds_of_ended hended).mpr (.inr (holds_append.mpr (.inl ⟨text, ?_, r, ?_, rfl⟩)))
  · rw [lines_of_not_mem (O.newline_not_mem r text htext), O.rowText_not_blank r text htext]
    exact mem_singleton.mpr rfl
  · exact O.decode_rowText r text htext

/-! ## Trailers -/

theorem NoTrailer.part (h : NoTrailer O data) (hpiece : more <:+: data) : NoTrailer O more :=
  fun l hl => h l (hl.trans hpiece)

theorem tailOf_suffix (data : Bytes) : tailOf data <:+ data := by
  rw [← reverse_prefix, tailOf, reverse_reverse]
  exact take_prefix ..

/-- **What `_has_trailer` finds** was written by a writer that closes. -/
theorem NoTrailer.not_hasTrailer (h : NoTrailer O data) : hasTrailer O data = false := by
  have htail : NoTrailer O (tailOf data) := h.part (tailOf_suffix data).isInfix
  unfold hasTrailer
  cases hlast : (lines (tailOf data)).getLast? with
  | none => rfl
  | some l =>
    obtain ⟨hmem, hblank⟩ := mem_filter.mp (mem_of_getLast? hlast)
    obtain ⟨hpart, hnot⟩ := mem_splitOn hmem
    have hdecode := htail l hpart hnot (by simpa using hblank)
    cases hline : O.decode l with
    | trailer => exact absurd hline hdecode
    | torn | row | other => simp [hline]

theorem noTrailer_nil : NoTrailer O [] := by
  intro l hl _ hblank
  obtain rfl := infix_nil.mp hl
  cases hblank

theorem noTrailer_row (htext : O.rowText r = some text) : NoTrailer O (text ++ [newline]) := by
  intro l hl hnot _
  rcases infix_of_separator hl hnot with hl | hl
  · exact O.rowText_no_trailer r text l htext hl
  · exact O.rowText_no_trailer r text l htext (hl.trans nil_infix)

theorem NoTrailer.append_row (h : NoTrailer O data) (htext : O.rowText r = some text) :
    NoTrailer O (data ++ newline :: (text ++ [newline])) := by
  intro l hl hnot
  rcases infix_of_separator hl hnot with hl | hl
  · exact h l hl hnot
  · exact noTrailer_row htext l hl hnot

theorem NoTrailer.append_row_of_ended (h : NoTrailer O data) (hended : Ended data)
    (htext : O.rowText r = some text) : NoTrailer O (data ++ (text ++ [newline])) := by
  rcases hended with rfl | ⟨front, rfl⟩
  · exact noTrailer_row htext
  · have hfront : NoTrailer O front := h.part (prefix_append ..).isInfix
    simpa using hfront.append_row htext

theorem newline_not_mem_trailerText : newline ∉ trailerText := by decide

theorem not_holds_trailer (h : l <+: trailerText ++ [newline]) : ¬ Holds O l p := by
  have hbegin : ∀ t, t <+: trailerText → ¬ Holds O t p := by
    rintro t ht ⟨l, hl, r, hrow, -⟩
    have hnot : newline ∉ t := fun hmem => newline_not_mem_trailerText (ht.subset hmem)
    rw [lines_of_not_mem hnot] at hl
    split at hl
    · cases hl
    · obtain rfl := mem_singleton.mp hl
      exact O.trailer_no_row r l ht hrow
  rcases prefix_concat_iff.mp h with rfl | h
  · rw [holds_append]
    exact not_or.mpr ⟨hbegin _ prefix_rfl, not_holds_nil⟩
  · exact hbegin l h

/-- **Closing** changes no row. -/
theorem Settling.close (hended : Ended data) : Settling O data (trailerText ++ [newline]) := by
  intro t ht p
  rw [holds_of_ended hended]
  exact or_iff_left (not_holds_trailer ht)

theorem Settling.close_failed : Settling O data (newline :: (trailerText ++ [newline])) := by
  intro t ht p
  cases t with
  | nil => rw [append_nil]
  | cons b t =>
    obtain ⟨rfl, hrest⟩ := cons_prefix_cons.mp ht
    rw [holds_append]
    exact or_iff_left (not_holds_trailer hrest)

theorem Settling.write (h : Settling O data (A ++ B)) : Settling O (data ++ A) B := by
  intro t ht p
  rw [append_assoc, h (A ++ t) ((prefix_append_right_inj A).mpr ht), h A (prefix_append ..)]

/-! ## Reading and writing whole files -/

theorem not_isUnreadable {l : Bytes} (hgood : (parse O data).unreadable = []) (hl : l ∈ lines data) :
    isUnreadable O l = false := by
  by_contra hbad
  obtain ⟨hmem, hblank⟩ := mem_filter.mp hl
  obtain ⟨i, hi⟩ := mem_iff_getElem?.mp hmem
  have hnumbered : (l, i + 1) ∈ (data.splitOn newline).zipIdx 1 := by
    refine mk_mem_zipIdx_iff_le_and_getElem?_sub.mpr ⟨by omega, ?_⟩
    simpa using hi
  have hmem : i + 1 ∈ (parse O data).unreadable := by
    refine mem_map.mpr ⟨(l, i + 1), mem_filter.mpr ⟨mem_filter.mpr ⟨hnumbered, hblank⟩, ?_⟩, rfl⟩
    rwa [Bool.not_eq_false] at hbad
  rw [hgood] at hmem
  cases hmem

theorem accepted_of_readable {l : Bytes} {r : IndexRow} (hgood : (parse O data).unreadable = [])
    (hl : l ∈ lines data) (hrow : O.decode l = .row r) : r.accepted = true := by
  have h := not_isUnreadable hgood hl
  unfold isUnreadable at h
  rw [hrow] at h
  simpa using h

theorem holds_parse (hgood : (parse O data).unreadable = []) (h : Holds O data p) :
    ∃ r ∈ (parse O data).rows, r.place = p := by
  obtain ⟨l, hl, r, hrow, rfl⟩ := h
  refine ⟨r, mem_filterMap.mpr ⟨l, hl, ?_⟩, rfl⟩
  rw [rowOf?, hrow]
  exact if_pos (accepted_of_readable hgood hl hrow)

theorem holds_render {rows : List IndexRow} (hdata : render O rows = some data) (hr : r ∈ rows) :
    Holds O data r.place := by
  induction rows generalizing data with
  | nil => cases hr
  | cons r' rows ih =>
    unfold render at hdata
    cases htext : O.rowText r' with
    | none => simp [htext] at hdata
    | some text =>
      cases hmore : render O rows with
      | none => simp [htext, hmore] at hdata
      | some more =>
        obtain rfl : text ++ newline :: more = data := by simpa [htext, hmore] using hdata
        rcases mem_cons.mp hr with rfl | hr
        · exact Written.holds ⟨[], more, .inl rfl, rfl⟩ htext
        · exact holds_append.mpr (.inr (ih hmore hr))

end

/-! ## Collapsing -/

theorem putRow_place (r : IndexRow) (kept : List IndexRow) :
    ∃ r' ∈ putRow r kept, r'.place = r.place := by
  induction kept with
  | nil => exact ⟨r, mem_singleton.mpr rfl, rfl⟩
  | cons cur rest ih =>
    unfold putRow
    split
    · rename_i hplace
      refine ⟨_, mem_cons_self .., ?_⟩
      split
      · rfl
      · exact hplace
    · obtain ⟨r', hr', hplace⟩ := ih
      exact ⟨r', mem_cons_of_mem _ hr', hplace⟩

theorem putRow_keeps (r : IndexRow) {kept : List IndexRow} {x : IndexRow} (hx : x ∈ kept) :
    ∃ r' ∈ putRow r kept, r'.place = x.place := by
  induction kept with
  | nil => cases hx
  | cons cur rest ih =>
    unfold putRow
    split
    · rename_i hplace
      rcases mem_cons.mp hx with rfl | hx
      · refine ⟨_, mem_cons_self .., ?_⟩
        split
        · exact hplace.symm
        · rfl
      · exact ⟨x, mem_cons_of_mem _ hx, rfl⟩
    · rcases mem_cons.mp hx with rfl | hx
      · exact ⟨x, mem_cons_self .., rfl⟩
      · obtain ⟨r', hr', hplace⟩ := ih hx
        exact ⟨r', mem_cons_of_mem _ hr', hplace⟩

/-- **Collapsing** keeps a row of every place. -/
theorem collapse_place {rows : List IndexRow} {r : IndexRow} (hr : r ∈ rows) :
    ∃ r' ∈ (collapse rows).kept, r'.place = r.place := by
  have hfold : ∀ (rows kept : List IndexRow) (x : IndexRow), x ∈ rows ∨ (∃ y ∈ kept, y.place = x.place) →
      ∃ r' ∈ rows.foldl (fun kept r => putRow r kept) kept, r'.place = x.place := by
    intro rows
    induction rows with
    | nil =>
      rintro kept x (hx | hkept)
      · cases hx
      · exact hkept
    | cons r rows ih =>
      rintro kept x (hx | ⟨y, hy, hplace⟩)
      · rcases mem_cons.mp hx with rfl | hx
        · exact ih _ x (.inr (putRow_place x kept))
        · exact ih _ x (.inl hx)
      · obtain ⟨r', hr', hplace'⟩ := putRow_keeps r hy
        exact ih _ x (.inr ⟨r', hr', hplace'.trans hplace⟩)
  obtain ⟨r', hr', hplace⟩ := hfold rows [] r (.inl hr)
  exact ⟨r', (mem_insertionSort _).mpr hr', hplace⟩

end Xtrax.UnitIndex
