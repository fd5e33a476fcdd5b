import Xtrax.PyJsonWriter

/-!
# Documents that break off

A beginning of a value's text that is not all of it is read as nothing, or as a number that ends
with the text (`scanOnce_torn`).  A beginning of a dictionary's text is therefore no document
(`loads_torn`): a line whose writer was interrupted is told from a line that was finished.
-/

namespace Xtrax.PyJson

open List

variable {p : List Char}

/-! ### Beginnings of a text -/

/-- A beginning of a text that is not all of it. -/
def Torn (p text : List Char) : Prop := p <+: text ∧ p ≠ text

theorem not_torn_nil (p : List Char) : ¬ Torn p [] := fun h => h.2 (prefix_nil.mp h.1)

theorem torn_cons {p text : List Char} {c : Char} (h : Torn p (c :: text)) :
    p = [] ∨ ∃ q, p = c :: q ∧ Torn q text := by
  cases p with
  | nil => exact .inl rfl
  | cons d q =>
    obtain ⟨rfl, hq⟩ := cons_prefix_cons.mp h.1
    exact .inr ⟨q, rfl, hq, fun heq => h.2 (congrArg (d :: ·) heq)⟩

theorem torn_append {p a b : List Char} (h : Torn p (a ++ b)) :
    Torn p a ∨ ∃ q, p = a ++ q ∧ Torn q b := by
  induction a generalizing p with
  | nil => exact .inr ⟨p, rfl, h⟩
  | cons c a ih =>
    rcases torn_cons h with rfl | ⟨q, rfl, hq⟩
    · exact .inl ⟨List.nil_prefix, nofun⟩
    · rcases ih hq with hq | ⟨r, rfl, hr⟩
      · refine .inl ⟨cons_prefix_cons.mpr ⟨rfl, hq.1⟩, fun heq => hq.2 ?_⟩
        exact (cons.inj heq).2
      · exact .inr ⟨r, rfl, hr⟩

theorem scanUnits_escapeUnit_torn {u : Nat} (h : Torn p (escapeUnit u)) : scanUnits p = .none := by
  have hpair : ∀ c, Torn p ['\\', c] → scanUnits p = .none := by
    intro c hp
    rcases torn_cons hp with rfl | ⟨q, rfl, hq⟩
    · rfl
    · rcases torn_cons hq with rfl | ⟨r, rfl, hr⟩
      · rfl
      · exact absurd hr (not_torn_nil r)
  unfold escapeUnit at h
  split_ifs at h
  · exact hpair _ h
  · exact hpair _ h
  · exact hpair _ h
  · exact hpair _ h
  · exact hpair _ h
  · exact hpair _ h
  · exact hpair _ h
  · rcases torn_cons h with rfl | ⟨q, rfl, hq⟩
    · rfl
    · exact absurd hq (not_torn_nil q)
  · rcases torn_cons h with rfl | ⟨_, rfl, h1⟩
    · rfl
    rcases torn_cons h1 with rfl | ⟨_, rfl, h2⟩
    · rfl
    rcases torn_cons h2 with rfl | ⟨_, rfl, h3⟩
    · rfl
    rcases torn_cons h3 with rfl | ⟨_, rfl, h4⟩
    · rfl
    rcases torn_cons h4 with rfl | ⟨_, rfl, h5⟩
    · rfl
    rcases torn_cons h5 with rfl | ⟨q, rfl, h6⟩
    · rfl
    · exact absurd h6 (not_torn_nil q)

theorem scanUnits_torn {us : List Nat} (hus : ∀ u ∈ us, u < 0x10000)
    (h : Torn p (us.flatMap escapeUnit ++ ['"'])) : scanUnits p = .none := by
  induction us generalizing p with
  | nil =>
    rcases torn_cons h with rfl | ⟨q, rfl, hq⟩
    · rfl
    · exact absurd hq (not_torn_nil q)
  | cons u us ih =>
    rw [List.flatMap_cons, List.append_assoc] at h
    rcases torn_append h with h | ⟨q, rfl, hq⟩
    · exact scanUnits_escapeUnit_torn h
    · rw [scanUnits_escapeUnit (hus u List.mem_cons_self),
        ih (fun u' hu' => hus u' (List.mem_cons_of_mem u hu')) hq]
      rfl

theorem scanString_torn {s : PyStr} (h : Torn p (quoted s)) : scanString p = .error .decode := by
  unfold scanString
  rw [scanUnits_torn mem_flatMap_toUnits_lt h]

section

variable {floatRepr : PyFloat → List Char} {depth : Nat} {v : PyVal} {scan : Scanner PyVal}
  {entries : List (PyStr × PyVal)} {p : List Char} {vs : List PyVal}

/-- Every value is read back and its text starts like a value. -/
def Reads (scan : Scanner PyVal) (floatRepr : PyFloat → List Char) (v : PyVal) : Prop :=
  (∀ rest, Ends rest → scan (v.text floatRepr ++ rest) = .ok (v, rest)) ∧
    ∀ rest, skipSpace (v.text floatRepr ++ rest) = v.text floatRepr ++ rest

theorem text_opens (floatRepr : PyFloat → List Char) (h : Writable depth v) :
    ∃ c text, v.text floatRepr = c :: text ∧ Opens c := (Writer.compact floatRepr).opens h.stored 0

theorem reads_text (floatRepr : PyFloat → List Char) (h : Writable depth v) :
    Reads (scanOnce depth) floatRepr v := by
  have hread := (Writer.compact floatRepr).readsText h.stored 0
  exact ⟨fun rest hrest => hread.scan rest hrest.numberEnds, hread.skipSpace⟩

theorem scanMember_text {k : PyStr} (hk : Unpaired k) (h : Reads scan floatRepr v)
    {rest : List Char} (hrest : Ends rest) :
    scanMember scan ('"' :: (quoted k ++ ':' :: (v.text floatRepr ++ rest))) =
      .ok ((k, v), rest) := by
  rw [scanMember, scanString_quoted hk]
  show (scan (skipSpace (v.text floatRepr ++ rest)) >>= _) = _
  rw [h.2, h.1 rest hrest]
  rfl

theorem itemsText_opens (floatRepr : PyFloat → List Char) (hne : vs ≠ [])
    (h : ∀ v ∈ vs, Writable depth v) : ∃ c text, itemsText floatRepr vs = c :: text ∧ Opens c := by
  cases vs with
  | nil => exact absurd rfl hne
  | cons v vs =>
    obtain ⟨c, text, htext, hc⟩ := text_opens floatRepr (h v mem_cons_self)
    exact ⟨c, _, by rw [itemsText_cons, htext, cons_append], hc⟩

theorem membersText_quote (floatRepr : PyFloat → List Char) (hne : entries ≠ []) :
    ∃ text, membersText floatRepr entries = '"' :: text := by
  cases entries with
  | nil => exact absurd rfl hne
  | cons e entries => exact ⟨_, membersText_cons floatRepr e.1 e.2 entries⟩

/-- What is read of a text that breaks off: nothing, or a number that ends with the text. -/
def Fails (scan : Scanner PyVal) (p : List Char) : Prop :=
  scan p = .error .decode ∨ ∃ w, scan p = .ok (w, [])

/-- A value that is read back, and fails where its text breaks off. -/
structure Robust (scan : Scanner PyVal) (floatRepr : PyFloat → List Char) (v : PyVal) : Prop where
  reads : Reads scan floatRepr v
  torn : ∀ p, Torn p (v.text floatRepr) → Fails scan p ∧ skipSpace p = p

theorem scanItems_torn (hne : vs ≠ []) (h : ∀ v ∈ vs, Robust scan floatRepr v) (fuel : Nat)
    (hp : Torn p (itemsText floatRepr vs)) :
    scanItems scan fuel p = .error .decode ∧ skipSpace p = p := by
  induction vs generalizing fuel p with
  | nil => exact absurd rfl hne
  | cons v vs ih =>
    have hv := h v mem_cons_self
    -- the text ends within the first value
    have hfirst : ∀ q, Fails scan q → scanItems scan fuel q = .error .decode := by
      intro q hq
      cases fuel with
      | zero => rfl
      | succ fuel =>
        rcases hq with hq | ⟨w, hq⟩
        · rw [scanItems, hq]; rfl
        · rw [scanItems, hq]; rfl
    have hvalue : scanItems scan fuel (v.text floatRepr) = .error .decode := by
      have hread := hv.reads.1 [] ends_nil
      rw [append_nil] at hread
      exact hfirst _ (.inr ⟨v, hread⟩)
    have hskip : ∀ q, skipSpace (v.text floatRepr ++ q) = v.text floatRepr ++ q := hv.reads.2
    cases vs with
    | nil =>
      rw [itemsText] at hp
      rcases torn_append hp with hp | ⟨q, rfl, hq⟩
      · exact ⟨hfirst p (hv.torn p hp).1, (hv.torn p hp).2⟩
      · rcases torn_cons hq with rfl | ⟨r, rfl, hr⟩
        · rw [append_nil]
          exact ⟨hvalue, by simpa using hskip []⟩
        · exact absurd hr (not_torn_nil r)
    | cons w vs =>
      rw [itemsText] at hp
      rcases torn_append hp with hp | ⟨q, rfl, hq⟩
      · exact ⟨hfirst p (hv.torn p hp).1, (hv.torn p hp).2⟩
      · refine ⟨?_, hskip q⟩
        rcases torn_cons hq with rfl | ⟨r, rfl, hr⟩
        · rw [append_nil]
          exact hvalue
        · cases fuel with
          | zero => rfl
          | succ fuel =>
            obtain ⟨htail, hspace⟩ := ih (cons_ne_nil w vs)
              (fun u hu => h u (mem_cons_of_mem v hu)) fuel hr
            rw [scanItems, hv.reads.1 _ (ends_cons (.inl rfl) r)]
            show (scanItems scan fuel (skipSpace r) >>= _) = _
            rw [hspace, htail]
            rfl

/-- One member of an object whose text breaks off: before its value ends, or right after it. -/
theorem scanMember_torn {k : PyStr} (hk : Unpaired k) (hv : Robust scan floatRepr v)
    {tail p : List Char} (hp : Torn p ('"' :: (quoted k ++ ':' :: (v.text floatRepr ++ tail)))) :
    (scanMember scan p = .error .decode ∨ ∃ m, scanMember scan p = .ok (m, [])) ∨
      ∃ q, p = '"' :: (quoted k ++ ':' :: (v.text floatRepr ++ q)) ∧ Torn q tail := by
  rcases torn_cons hp with rfl | ⟨q, rfl, hq⟩
  · exact .inl (.inl rfl)
  rcases torn_append hq with hq | ⟨q1, rfl, hq1⟩
  · refine .inl (.inl ?_)
    rw [scanMember, scanString_torn hq]
    rfl
  rcases torn_cons hq1 with rfl | ⟨q2, rfl, hq2⟩
  · refine .inl (.inl ?_)
    rw [scanMember, scanString_quoted hk]
    rfl
  rcases torn_append hq2 with hq2 | ⟨q3, rfl, hq3⟩
  · obtain ⟨hfails, hspace⟩ := hv.torn q2 hq2
    have hmember : scanMember scan ('"' :: (quoted k ++ ':' :: q2)) =
        (scan q2 >>= fun read => return ((k, read.1), read.2)) := by
      rw [scanMember, scanString_quoted hk]
      show (scan (skipSpace q2) >>= _) = _
      rw [hspace]
    rw [hmember]
    rcases hfails with hfails | ⟨w, hfails⟩
    · exact .inl (.inl (by rw [hfails]; rfl))
    · exact .inl (.inr ⟨(k, w), by rw [hfails]; rfl⟩)
  · exact .inr ⟨q3, rfl, hq3⟩

theorem skipSpace_torn_quote {p text : List Char} (h : Torn p ('"' :: text)) :
    skipSpace p = p := by
  rcases torn_cons h with rfl | ⟨q, rfl, -⟩
  · rfl
  · exact skipSpace_opens (by decide) q

/-- The entries of a dictionary, each with a key and a value that are read back. -/
def RobustEntry (scan : Scanner PyVal) (floatRepr : PyFloat → List Char) (e : PyStr × PyVal) :
    Prop :=
  Unpaired e.1 ∧ Robust scan floatRepr e.2

theorem scanMembers_torn (hne : entries ≠ []) (h : ∀ e ∈ entries, RobustEntry scan floatRepr e)
    (fuel : Nat) (hp : Torn p (membersText floatRepr entries)) :
    scanMembers scan fuel p = .error .decode := by
  induction entries generalizing fuel p with
  | nil => exact absurd rfl hne
  | cons e entries ih =>
    obtain ⟨hkey, hvalue⟩ := h e mem_cons_self
    cases fuel with
    | zero => rfl
    | succ fuel =>
      have hfirst : (scanMember scan p = .error .decode ∨ ∃ m, scanMember scan p = .ok (m, [])) →
          scanMembers scan (fuel + 1) p = .error .decode := by
        rintro (hm | ⟨m, hm⟩)
        · rw [scanMembers, hm]; rfl
        · rw [scanMembers, hm]; rfl
      cases entries with
      | nil =>
        rw [membersText] at hp
        rcases scanMember_torn hkey hvalue hp with hm | ⟨q, rfl, hq⟩
        · exact hfirst hm
        · rcases torn_cons hq with rfl | ⟨r, rfl, hr⟩
          · exact hfirst (.inr ⟨_, scanMember_text hkey hvalue.reads ends_nil⟩)
          · exact absurd hr (not_torn_nil r)
      | cons m entries =>
        rw [membersText] at hp
        rcases scanMember_torn hkey hvalue hp with hm | ⟨q, rfl, hq⟩
        · exact hfirst hm
        · rcases torn_cons hq with rfl | ⟨r, rfl, hr⟩
          · exact hfirst (.inr ⟨_, scanMember_text hkey hvalue.reads ends_nil⟩)
          · have htail := ih (cons_ne_nil m entries)
              (fun u hu => h u (mem_cons_of_mem e hu)) fuel hr
            obtain ⟨text, htext⟩ :=
              membersText_quote floatRepr (cons_ne_nil m entries)
            rw [scanMembers, scanMember_text hkey hvalue.reads (ends_cons (.inl rfl) r)]
            show (scanMembers scan fuel (skipSpace r) >>= _) = _
            rw [skipSpace_torn_quote (htext ▸ hr), htail]
            rfl

theorem scanOnce_nil (depth : Nat) : scanOnce depth [] = .error .decode := by cases depth <;> rfl

theorem scanArray_torn (h : ∀ v ∈ vs, Robust scan floatRepr v) (hw : ∀ v ∈ vs, Writable depth v)
    (hp : Torn p (itemsText floatRepr vs)) : scanArray scan p = .error .decode := by
  cases p with
  | nil => rfl
  | cons c p =>
    by_cases hne : vs = []
    · subst hne
      rcases torn_cons hp with h1 | ⟨q, h1, hq⟩
      · cases h1
      · exact absurd hq (not_torn_nil q)
    · obtain ⟨c', text, htext, hc⟩ := itemsText_opens floatRepr hne hw
      rw [htext] at hp
      rcases torn_cons hp with h1 | ⟨q, h1, -⟩
      · cases h1
      · obtain ⟨rfl, rfl⟩ := cons.inj h1
        rw [scanArray_skip (skipSpace_opens hc _) hc.2.1, (scanItems_torn hne h _ (htext ▸ hp)).1]
        rfl

theorem scanObject_torn (h : ∀ e ∈ entries, RobustEntry scan floatRepr e)
    (hp : Torn p (membersText floatRepr entries)) : scanObject scan p = .error .decode := by
  cases p with
  | nil => rfl
  | cons c p =>
    by_cases hne : entries = []
    · subst hne
      rcases torn_cons hp with h1 | ⟨q, h1, hq⟩
      · cases h1
      · exact absurd hq (not_torn_nil q)
    · obtain ⟨text, htext⟩ := membersText_quote floatRepr hne
      have hmembers := scanMembers_torn hne h (c :: p).length hp
      rw [htext] at hp
      rcases torn_cons hp with h1 | ⟨q, h1, -⟩
      · cases h1
      · obtain ⟨rfl, rfl⟩ := cons.inj h1
        rw [scanObject_skip (skipSpace_opens (by decide) _) (by decide), hmembers]
        rfl

theorem torn_take {p text : List Char} (h : Torn p text) : ∃ k < text.length, p = text.take k := by
  obtain ⟨q, rfl⟩ := h.1
  refine ⟨p.length, ?_, take_left.symm⟩
  rw [length_append]
  have hq : q ≠ [] := by
    rintro rfl
    exact h.2 (append_nil p).symm
  have hlen := length_pos_iff.mpr hq
  omega

theorem scanOnce_int_torn {n : Int} (hn : (Nat.toDigits 10 n.natAbs).length ≤ maxDigits)
    (depth : Nat) (hp : Torn p (intText n)) : Fails (scanOnce depth) p := by
  rw [intText_eq] at hp
  generalize decide (n < 0) = negative at hp
  rcases torn_append hp with hp | ⟨q, rfl, hq⟩
  · cases negative with
    | false => exact absurd hp (not_torn_nil p)
    | true =>
      rcases torn_cons hp with rfl | ⟨q, rfl, hq⟩
      · exact .inl (scanOnce_nil depth)
      · exact absurd hq (not_torn_nil q)
  · by_cases hne : q = []
    · subst hne
      refine .inl ?_
      cases negative <;> cases depth <;> rfl
    · -- the digits that are left are those of a smaller number
      have hdigits : ∀ c ∈ q, c.isDigit = true :=
        fun c hc => isDigit_toDigits n.natAbs c (hq.1.subset hc)
      have hzero : q.head? = some '0' → q = ['0'] := by
        intro h0
        obtain ⟨r, hr⟩ := hq.1
        have hhead : (Nat.toDigits 10 n.natAbs).head? = some '0' := by
          rw [← hr, head?_append_of_ne_nil q hne, h0]
        have hall := toDigits_leading _ hhead
        rw [hall] at hq
        rcases torn_cons hq with rfl | ⟨q', -, hq'⟩
        · exact absurd rfl hne
        · exact absurd hq' (not_torn_nil q')
      have hlen : q.length ≤ maxDigits := Nat.le_trans hq.1.length_le hn
      have hscan := scanOnce_digits negative hne hdigits hzero hlen ends_nil.numberEnds depth
      rw [append_nil] at hscan
      exact .inr ⟨_, hscan⟩

theorem skipSpace_torn (h : Writable depth v) (hp : Torn p (v.text floatRepr)) :
    skipSpace p = p := by
  obtain ⟨c, text, htext, hc⟩ := text_opens floatRepr h
  rw [htext] at hp
  rcases torn_cons hp with rfl | ⟨q, rfl, -⟩
  · rfl
  · exact skipSpace_opens hc q

theorem robust_of_torn (h : Writable depth v)
    (htorn : ∀ p, Torn p (v.text floatRepr) → Fails (scanOnce depth) p) :
    Robust (scanOnce depth) floatRepr v where
  reads := reads_text floatRepr h
  torn := fun p hp => ⟨htorn p hp, skipSpace_torn h hp⟩

/-- **A value whose text breaks off** is not read, unless it is a number. -/
theorem scanOnce_torn (h : Writable depth v) :
    ∀ p, Torn p (v.text floatRepr) → Fails (scanOnce depth) p := by
  induction h with
  | @none depth =>
    intro p hp
    obtain ⟨k, hk, rfl⟩ := torn_take hp
    have hk' : k < 4 := hk
    refine .inl ?_
    interval_cases k <;> cases depth <;> rfl
  | @bool depth b =>
    intro p hp
    obtain ⟨k, hk, rfl⟩ := torn_take hp
    refine .inl ?_
    cases b with
    | true =>
      have hk' : k < 4 := hk
      interval_cases k <;> cases depth <;> rfl
    | false =>
      have hk' : k < 5 := hk
      interval_cases k <;> cases depth <;> rfl
  | @int depth n hn => exact fun p hp => scanOnce_int_torn hn depth hp
  | @str depth s hs =>
    intro p hp
    refine .inl ?_
    rw [PyVal.text] at hp
    rcases torn_cons hp with rfl | ⟨q, rfl, hq⟩
    · exact scanOnce_nil depth
    · cases depth with
      | zero => rw [scanOnce, scanString_torn hq]; rfl
      | succ depth => rw [scanOnce, scanString_torn hq]; rfl
  | @list depth vs hvs ih =>
    intro p hp
    refine .inl ?_
    rw [PyVal.text] at hp
    rcases torn_cons hp with rfl | ⟨q, rfl, hq⟩
    · exact scanOnce_nil (depth + 1)
    · rw [scanOnce]
      exact scanArray_torn (fun v hv => robust_of_torn (hvs v hv) (ih v hv)) hvs hq
  | @dict depth entries nodup keys h ih =>
    intro p hp
    refine .inl ?_
    rw [PyVal.text] at hp
    rcases torn_cons hp with rfl | ⟨q, rfl, hq⟩
    · exact scanOnce_nil (depth + 1)
    · rw [scanOnce]
      exact scanObject_torn (fun e he => ⟨keys e he, robust_of_torn (h e he) (ih e he)⟩) hq

theorem loads_of_scanOnce {text : List Char} (hspace : skipSpace text = text)
    (h : scanOnce depth text = .error .decode) : loads depth text = .error .decode := by
  unfold loads
  split
  · rfl
  · rw [hspace, h]
    rfl

/-- **A dictionary whose text breaks off** is no document. -/
theorem loads_torn (h : Writable depth (.dict entries))
    (hp : Torn p ((PyVal.dict entries).text floatRepr)) : loads depth p = .error .decode := by
  refine loads_of_scanOnce (skipSpace_torn h hp) ?_
  rw [PyVal.text] at hp
  rcases torn_cons hp with rfl | ⟨q, rfl, hq⟩
  · exact scanOnce_nil depth
  · cases h with
    | @dict depth _ nodup keys h =>
      rw [scanOnce]
      exact scanObject_torn
        (fun e he => ⟨keys e he, robust_of_torn (h e he) (scanOnce_torn (h e he))⟩) hq

end

end Xtrax.PyJson
