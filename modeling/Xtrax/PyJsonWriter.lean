import Xtrax.PyJsonNumber

/-!
# Writers of JSON

The ways in which `json.dumps` writes a value differ by the blanks around the parts of a list or a
dictionary (`Layout`).  What is written is read back whatever these are (`Writer.loads_text`).
-/

namespace Xtrax.PyJson

open List

/-! ### Values that are written -/

def WritesFloat (floatRepr : PyFloat → List Char) (x : PyFloat) : Prop :=
  ∃ sign digits fraction exponent, IsFloat sign digits fraction exponent ∧
    floatRepr x = sign ++ digits ++ fraction ++ exponent ∧
    decimalOf sign digits fraction exponent = x

/-- Values of at most `depth` levels that JSON holds: no infinite float and no NaN, no integer with
too many digits, no surrogates in a pair, every key once. -/
inductive Stored (floatRepr : PyFloat → List Char) : Nat → PyVal → Prop
  | none {depth} : Stored floatRepr depth .none
  | bool {depth} (b : Bool) : Stored floatRepr depth (.bool b)
  | int {depth} {n : Int} (h : (Nat.toDigits 10 n.natAbs).length ≤ maxDigits) :
    Stored floatRepr depth (.int n)
  | float {depth} {x : PyFloat} (h : WritesFloat floatRepr x) : Stored floatRepr depth (.float x)
  | str {depth} {s : PyStr} (h : Unpaired s) : Stored floatRepr depth (.str s)
  | list {depth} {vs : List PyVal} (h : ∀ v ∈ vs, Stored floatRepr depth v) :
    Stored floatRepr (depth + 1) (.list vs)
  | dict {depth} {entries : List (PyStr × PyVal)} (nodup : (entries.map Prod.fst).Nodup)
    (keys : ∀ e ∈ entries, Unpaired e.1) (h : ∀ e ∈ entries, Stored floatRepr depth e.2) :
    Stored floatRepr (depth + 1) (.dict entries)

/-! ### Blanks -/

/-- White space between tokens. -/
def Blank (text : List Char) : Prop := ∀ c ∈ text, isSpace c = true

theorem blank_nil : Blank [] := nofun

theorem blank_space : Blank [' '] := by simp [Blank, isSpace]

theorem skipSpace_blank {blank : List Char} (h : Blank blank) (text : List Char) :
    skipSpace (blank ++ text) = skipSpace text := dropWhile_append_of_pos h

theorem numberEnds_cons {c : Char} (h : c.isDigit = false ∧ c ≠ '.' ∧ c ≠ 'e' ∧ c ≠ 'E')
    (rest : List Char) : NumberEnds (c :: rest) := by
  intro c' hc'
  obtain rfl := Option.some.inj hc'
  exact h

theorem numberEnds_blank {blank : List Char} (h : Blank blank) {c : Char}
    (hc : c.isDigit = false ∧ c ≠ '.' ∧ c ≠ 'e' ∧ c ≠ 'E') (rest : List Char) :
    NumberEnds (blank ++ c :: rest) := by
  cases blank with
  | nil => exact numberEnds_cons hc rest
  | cons b blank =>
    refine numberEnds_cons ?_ _
    have hb := h b mem_cons_self
    simp only [isSpace, Bool.or_eq_true, decide_eq_true_eq] at hb
    rcases hb with ((rfl | rfl) | rfl) | rfl <;> decide

theorem skipSpace_close {blank : List Char} (h : Blank blank) {close : Char}
    (hclose : isSpace close = false) (rest : List Char) :
    skipSpace (blank ++ close :: rest) = close :: rest := by
  rw [skipSpace_blank h, skipSpace, dropWhile_cons, hclose]
  rfl

/-! ### Layouts -/

/-- The blanks of a list or a dictionary: before its first part and its other ones, after its last
one, and after a colon. -/
structure Layout where
  first : List Char
  next : List Char
  last : List Char
  colon : List Char
  blank_first : Blank first
  blank_next : Blank next
  blank_last : Blank last
  blank_colon : Blank colon

section

variable {floatRepr : PyFloat → List Char} {depth : Nat} {v : PyVal} {scan : Scanner PyVal}
  {text : PyVal → List Char}

/-- What follows the first item. -/
def Layout.moreItems (l : Layout) (text : PyVal → List Char) : List PyVal → List Char
  | [] => l.last ++ [']']
  | v :: vs => ',' :: (l.next ++ (text v ++ l.moreItems text vs))

/-- What follows the opening quote of a member. -/
def Layout.member (l : Layout) (text : PyVal → List Char) (k : PyStr) (v : PyVal) : List Char :=
  quoted k ++ ':' :: (l.colon ++ text v)

/-- What follows the first member. -/
def Layout.moreMembers (l : Layout) (text : PyVal → List Char) : List (PyStr × PyVal) → List Char
  | [] => l.last ++ ['}']
  | (k, v) :: entries => ',' :: (l.next ++ '"' :: (l.member text k v ++ l.moreMembers text entries))

/-- The text of a value, read whatever follows it. -/
structure ReadsText (scan : Scanner PyVal) (text : List Char) (v : PyVal) : Prop where
  opens : ∃ c t, text = c :: t ∧ Opens c
  scan : ∀ rest, NumberEnds rest → scan (text ++ rest) = .ok (v, rest)

theorem ReadsText.skipSpace {text : List Char} (h : ReadsText scan text v) (rest : List Char) :
    skipSpace (text ++ rest) = text ++ rest := by
  obtain ⟨c, t, rfl, hc⟩ := h.opens
  exact skipSpace_opens hc (t ++ rest)

theorem scanItems_more (l : Layout) {vs : List PyVal}
    (h : ∀ u ∈ v :: vs, ReadsText scan (text u) u) {fuel : Nat} (hfuel : vs.length < fuel)
    (rest : List Char) :
    scanItems scan fuel (text v ++ (l.moreItems text vs ++ rest)) = .ok (v :: vs, rest) := by
  induction vs generalizing v fuel with
  | nil =>
    obtain ⟨fuel, rfl⟩ := Nat.exists_eq_add_of_le' (Nat.zero_lt_of_lt hfuel)
    have hread := (h v mem_cons_self).scan _ (numberEnds_blank l.blank_last
      (show (']' : Char).isDigit = false ∧ _ by decide) rest)
    rw [Layout.moreItems, append_assoc, scanItems, singleton_append, hread]
    dsimp only [bind, Except.bind]
    rw [skipSpace_close l.blank_last rfl]
    rfl
  | cons w vs ih =>
    obtain ⟨fuel, rfl⟩ := Nat.exists_eq_add_of_le' (Nat.zero_lt_of_lt hfuel)
    have htail : ∀ u ∈ w :: vs, ReadsText scan (text u) u :=
      fun u hu => h u (mem_cons_of_mem v hu)
    have hrest := ih htail (Nat.lt_of_succ_lt_succ hfuel)
    rw [Layout.moreItems, cons_append, scanItems,
      (h v mem_cons_self).scan _ (numberEnds_cons (by decide) _)]
    show (scanItems scan fuel
      (skipSpace ((l.next ++ (text w ++ l.moreItems text vs)) ++ rest)) >>= _) = _
    rw [append_assoc, append_assoc, skipSpace_blank l.blank_next,
      (htail w mem_cons_self).skipSpace, hrest]
    rfl

theorem scanMember_layout (l : Layout) {k : PyStr} (hk : Unpaired k)
    (h : ReadsText scan (text v) v) {rest : List Char} (hrest : NumberEnds rest) :
    scanMember scan ('"' :: (l.member text k v ++ rest)) = .ok ((k, v), rest) := by
  rw [Layout.member, List.append_assoc, scanMember, scanString_quoted hk]
  show (scan (skipSpace ((l.colon ++ text v) ++ rest)) >>= _) = _
  rw [List.append_assoc, skipSpace_blank l.blank_colon, h.skipSpace, h.scan rest hrest]
  rfl

theorem scanMembers_more (l : Layout) {k : PyStr} {entries : List (PyStr × PyVal)}
    (hkeys : ∀ e ∈ (k, v) :: entries, Unpaired e.1)
    (h : ∀ e ∈ (k, v) :: entries, ReadsText scan (text e.2) e.2) {fuel : Nat}
    (hfuel : entries.length < fuel) (rest : List Char) :
    scanMembers scan fuel ('"' :: (l.member text k v ++ (l.moreMembers text entries ++ rest))) =
      .ok ((k, v) :: entries, rest) := by
  induction entries generalizing k v fuel with
  | nil =>
    obtain ⟨fuel, rfl⟩ := Nat.exists_eq_add_of_le' (Nat.zero_lt_of_lt hfuel)
    have hmember := scanMember_layout l (hkeys _ List.mem_cons_self) (h _ List.mem_cons_self)
      (numberEnds_blank l.blank_last (show ('}' : Char).isDigit = false ∧ _ by decide) rest)
    rw [Layout.moreMembers, List.append_assoc, List.singleton_append, scanMembers, hmember]
    dsimp only [bind, Except.bind]
    rw [skipSpace_close l.blank_last rfl]
    rfl
  | cons e entries ih =>
    obtain ⟨fuel, rfl⟩ := Nat.exists_eq_add_of_le' (Nat.zero_lt_of_lt hfuel)
    obtain ⟨k', v'⟩ := e
    have hrest := ih (fun u hu => hkeys u (List.mem_cons_of_mem _ hu))
      (fun u hu => h u (List.mem_cons_of_mem _ hu)) (Nat.lt_of_succ_lt_succ hfuel)
    have hends : NumberEnds
        (',' :: ((l.next ++ '"' :: (l.member text k' v' ++ l.moreMembers text entries)) ++ rest)) :=
      numberEnds_cons (by decide) _
    have hmember := scanMember_layout l (hkeys _ mem_cons_self) (h _ mem_cons_self) hends
    rw [Layout.moreMembers, cons_append, scanMembers, hmember]
    show (scanMembers scan fuel (skipSpace
      ((l.next ++ '"' :: (l.member text k' v' ++ l.moreMembers text entries)) ++ rest)) >>= _) = _
    rw [List.append_assoc, skipSpace_blank l.blank_next, List.cons_append,
      skipSpace_opens (by decide), List.append_assoc, hrest]
    rfl

theorem length_lt_moreItems (l : Layout) (text : PyVal → List Char) (vs : List PyVal) :
    vs.length < (l.moreItems text vs).length := by
  induction vs with
  | nil =>
    rw [Layout.moreItems, length_append]
    exact Nat.lt_of_lt_of_le Nat.zero_lt_one (Nat.le_add_left _ _)
  | cons v vs ih =>
    rw [Layout.moreItems]
    simp only [length_cons, length_append]
    omega

theorem length_lt_moreMembers (l : Layout) (text : PyVal → List Char)
    (entries : List (PyStr × PyVal)) : entries.length < (l.moreMembers text entries).length := by
  induction entries with
  | nil =>
    rw [Layout.moreMembers, length_append]
    exact Nat.lt_of_lt_of_le Nat.zero_lt_one (Nat.le_add_left _ _)
  | cons e entries ih =>
    rw [Layout.moreMembers]
    simp only [length_cons, length_append]
    omega

theorem scanArray_skip {text t : List Char} {c : Char} (h : skipSpace text = c :: t)
    (hc : c ≠ ']') : scanArray scan text = do
      let (vs, rest) ← scanItems scan (c :: t).length (c :: t)
      return (.list vs, rest) := by
  unfold scanArray
  rw [h]
  split
  · rename_i heq
    exact absurd (cons.inj heq).1 hc
  · rfl

theorem scanObject_skip {text t : List Char} {c : Char} (h : skipSpace text = c :: t)
    (hc : c ≠ '}') : scanObject scan text = do
      let (members, rest) ← scanMembers scan (c :: t).length (c :: t)
      return (ofMembers members, rest) := by
  unfold scanObject
  rw [h]
  split
  · rename_i heq
    exact absurd (cons.inj heq).1 hc
  · rfl

theorem scanArray_layout (l : Layout) {vs : List PyVal}
    (h : ∀ u ∈ v :: vs, ReadsText scan (text u) u) (rest : List Char) :
    scanArray scan (l.first ++ (text v ++ (l.moreItems text vs ++ rest))) =
      .ok (.list (v :: vs), rest) := by
  obtain ⟨c, t, heq, hc⟩ := (h v mem_cons_self).opens
  have hskip : skipSpace (l.first ++ (text v ++ (l.moreItems text vs ++ rest))) =
      c :: (t ++ (l.moreItems text vs ++ rest)) := by
    rw [skipSpace_blank l.blank_first, heq]
    exact skipSpace_opens hc _
  have hlength := length_lt_moreItems l text vs
  have hfuel : vs.length < (c :: (t ++ (l.moreItems text vs ++ rest))).length := by
    simp only [length_cons, length_append]
    omega
  have hitems := scanItems_more l h hfuel rest
  rw [heq, cons_append] at hitems
  rw [scanArray_skip hskip hc.2.1, hitems]
  rfl

theorem scanObject_layout (l : Layout) {k : PyStr} {entries : List (PyStr × PyVal)}
    (nodup : (((k, v) :: entries).map Prod.fst).Nodup)
    (hkeys : ∀ e ∈ (k, v) :: entries, Unpaired e.1)
    (h : ∀ e ∈ (k, v) :: entries, ReadsText scan (text e.2) e.2) (rest : List Char) :
    scanObject scan
        (l.first ++ '"' :: (l.member text k v ++ (l.moreMembers text entries ++ rest))) =
      .ok (.dict ((k, v) :: entries), rest) := by
  have hskip := skipSpace_close l.blank_first (show isSpace '"' = false from rfl)
    (l.member text k v ++ (l.moreMembers text entries ++ rest))
  have hlength := length_lt_moreMembers l text entries
  have hfuel : entries.length <
      ('"' :: (l.member text k v ++ (l.moreMembers text entries ++ rest))).length := by
    simp only [List.length_cons, List.length_append]
    omega
  have hmembers := scanMembers_more l hkeys h hfuel rest
  have hentries : ofMembers ((k, v) :: entries) = .dict ((k, v) :: entries) :=
    congrArg PyVal.dict (Dict.entries_update (d := ∅) nodup)
  rw [scanObject_skip hskip (by decide), hmembers]
  show Except.ok (ofMembers ((k, v) :: entries), rest) = _
  rw [hentries]

theorem scanOnce_float {sign digits fraction exponent rest : List Char}
    (h : IsFloat sign digits fraction exponent) (hrest : NumberEnds rest) (depth : Nat) :
    scanOnce depth (sign ++ digits ++ fraction ++ exponent ++ rest) =
      .ok (.float (decimalOf sign digits fraction exponent), rest) := by
  have hnumber := scanNumber_float h hrest
  obtain ⟨d, t, rfl, hd⟩ := h.number.digits.head
  rcases h.number.sign with rfl | rfl
  · exact (scanOnce_number false hd depth _).trans hnumber
  · exact (scanOnce_number true hd depth _).trans hnumber

/-! ### Writers -/

/-- What is neither a list nor a dictionary. -/
def PyVal.isLeaf : PyVal → Bool
  | .list _ | .dict _ => false
  | _ => true

/-- A way to write values that stand at a level. -/
structure Writer (floatRepr : PyFloat → List Char) where
  text : Nat → PyVal → List Char
  layout : Nat → Layout
  leaf : ∀ level v, v.isLeaf = true → text level v = v.text floatRepr
  empty : ∀ level, text level (.list []) = ['[', ']'] ∧ text level (.dict []) = ['{', '}']
  list : ∀ level v vs, text level (.list (v :: vs)) = '[' :: ((layout level).first ++
    (text (level + 1) v ++ (layout level).moreItems (text (level + 1)) vs))
  dict : ∀ level k v entries, text level (.dict ((k, v) :: entries)) =
    '{' :: ((layout level).first ++ '"' :: ((layout level).member (text (level + 1)) k v ++
      (layout level).moreMembers (text (level + 1)) entries))

variable (W : Writer floatRepr)

theorem Writer.opens (h : Stored floatRepr depth v) (level : Nat) :
    ∃ c t, W.text level v = c :: t ∧ Opens c := by
  cases h with
  | none => exact ⟨_, _, W.leaf level _ rfl, by decide⟩
  | bool b => cases b <;> exact ⟨_, _, W.leaf level _ rfl, by decide⟩
  | str h => exact ⟨_, _, W.leaf level _ rfl, by decide⟩
  | @int _ n h =>
    rw [W.leaf level _ rfl, PyVal.text, intText_eq]
    split
    · exact ⟨'-', _, rfl, by decide⟩
    · obtain ⟨c, t, heq, hc⟩ := (isInteger_toDigits n.natAbs).head
      exact ⟨c, t, by rw [heq]; rfl, opens_digit hc⟩
  | float h =>
    obtain ⟨sign, digits, fraction, exponent, hfloat, hrepr, -⟩ := h
    obtain ⟨c, t, heq, hc⟩ := hfloat.number.head
    refine ⟨c, t, by rw [W.leaf level _ rfl, PyVal.text, hrepr, heq], ?_⟩
    rcases hc with hc | rfl
    · exact opens_digit hc
    · decide
  | @list _ vs _ =>
    cases vs with
    | nil => exact ⟨_, _, (W.empty level).1, by decide⟩
    | cons v vs => exact ⟨_, _, W.list level v vs, by decide⟩
  | @dict _ entries _ _ _ =>
    cases entries with
    | nil => exact ⟨_, _, (W.empty level).2, by decide⟩
    | cons e entries => exact ⟨_, _, W.dict level e.1 e.2 entries, by decide⟩

/-- **What is written is read back**, on every level. -/
theorem Writer.readsText (h : Stored floatRepr depth v) (level : Nat) :
    ReadsText (scanOnce depth) (W.text level v) v := by
  refine ⟨W.opens h level, ?_⟩
  induction h generalizing level with
  | @none depth =>
    intro rest _
    rw [W.leaf level _ rfl]
    cases depth <;> rfl
  | @bool depth b =>
    intro rest _
    rw [W.leaf level _ rfl]
    cases depth <;> cases b <;> rfl
  | @int depth n hn =>
    intro rest hrest
    rw [W.leaf level _ rfl, PyVal.text, intText_eq, scanOnce_digits (decide (n < 0))
      Nat.toDigits_ne_nil (isDigit_toDigits _) (toDigits_leading _) hn hrest, signed_toDigits]
  | @float depth x hx =>
    intro rest hrest
    obtain ⟨sign, digits, fraction, exponent, hfloat, hrepr, rfl⟩ := hx
    rw [W.leaf level _ rfl, PyVal.text, hrepr, scanOnce_float hfloat hrest]
  | @str depth s hs =>
    intro rest _
    have hstring := scanString_quoted hs rest
    rw [W.leaf level _ rfl]
    cases depth with
    | zero => rw [PyVal.text, cons_append, scanOnce, hstring]; rfl
    | succ depth => rw [PyVal.text, cons_append, scanOnce, hstring]; rfl
  | @list depth vs hvs ih =>
    intro rest _
    cases vs with
    | nil =>
      rw [(W.empty level).1]
      rfl
    | cons v vs =>
      have hreads : ∀ u ∈ v :: vs, ReadsText (scanOnce depth) (W.text (level + 1) u) u :=
        fun u hu => ⟨W.opens (hvs u hu) (level + 1), ih u hu (level + 1)⟩
      rw [W.list, cons_append, append_assoc, append_assoc, scanOnce]
      exact scanArray_layout (W.layout level) hreads rest
  | @dict depth entries nodup keys h ih =>
    intro rest _
    cases entries with
    | nil =>
      rw [(W.empty level).2]
      rfl
    | cons e entries =>
      have hreads : ∀ u ∈ e :: entries, ReadsText (scanOnce depth) (W.text (level + 1) u.2) u.2 :=
        fun u hu => ⟨W.opens (h u hu) (level + 1), ih u hu (level + 1)⟩
      rw [W.dict, cons_append, append_assoc, cons_append, append_assoc, scanOnce]
      exact scanObject_layout (W.layout level) nodup keys hreads rest

/-- **A document that was written is read back.** -/
theorem Writer.loads_text (h : Stored floatRepr depth v) : loads depth (W.text 0 v) = .ok v := by
  have hread := W.readsText h 0
  have hscan := hread.scan [] nofun
  have hskip := hread.skipSpace []
  obtain ⟨c, t, heq, hc⟩ := hread.opens
  rw [append_nil] at hscan hskip
  unfold loads
  split
  · rename_i hmark
    rw [heq] at hmark
    exact absurd (cons.inj hmark).1 hc.2.2.2
  · rw [hskip, hscan]
    rfl

theorem Stored.printable (h : Stored floatRepr depth v) : v.printable = true := by
  induction h with
  | int hn => exact decide_eq_true hn
  | list _ ih => exact printableItems_iff.mpr ih
  | dict _ _ _ ih => exact printableEntries_iff.mpr ih
  | _ => rfl

/-! ### The compact text -/

theorem Writable.stored (h : Writable depth v) : Stored floatRepr depth v := by
  induction h with
  | none => exact .none
  | bool b => exact .bool b
  | int h => exact .int h
  | str h => exact .str h
  | list _ ih => exact .list ih
  | dict nodup keys _ ih => exact .dict nodup keys ih

/-- No blanks. -/
def Layout.compact : Layout := ⟨[], [], [], [], blank_nil, blank_nil, blank_nil, blank_nil⟩

theorem itemsText_cons (floatRepr : PyFloat → List Char) (v : PyVal) (vs : List PyVal) :
    itemsText floatRepr (v :: vs) =
      v.text floatRepr ++ Layout.compact.moreItems (·.text floatRepr) vs := by
  induction vs generalizing v with
  | nil => rfl
  | cons w vs ih =>
    rw [itemsText, ih]
    rfl

theorem membersText_cons (floatRepr : PyFloat → List Char) (k : PyStr) (v : PyVal)
    (entries : List (PyStr × PyVal)) :
    membersText floatRepr ((k, v) :: entries) = '"' :: (Layout.compact.member (·.text floatRepr) k v ++
      Layout.compact.moreMembers (·.text floatRepr) entries) := by
  induction entries generalizing k v with
  | nil => simp [membersText, Layout.member, Layout.moreMembers, Layout.compact]
  | cons e entries ih =>
    rw [membersText, ih]
    simp [Layout.member, Layout.moreMembers, Layout.compact]

/-- `json.dumps(v, separators=(",", ":"))`. -/
def Writer.compact (floatRepr : PyFloat → List Char) : Writer floatRepr where
  text := fun _ v => v.text floatRepr
  layout := fun _ => .compact
  leaf := fun _ _ _ => rfl
  empty := fun _ => ⟨rfl, rfl⟩
  list := fun _ v vs => congrArg ('[' :: ·) (itemsText_cons floatRepr v vs)
  dict := fun _ k v entries => congrArg ('{' :: ·) (membersText_cons floatRepr k v entries)

theorem loads_text (h : Writable depth v) : loads depth (v.text floatRepr) = .ok v :=
  (Writer.compact floatRepr).loads_text h.stored

end

end Xtrax.PyJson
