import Xtrax.ZarrDigest

/-!
# What a content digest tells about a store

The walk folds one record for each node.  A path ends at its line break, the JSON of the
attributes at the next one; the dtype name and the shape end at their bars, and together they
give the number of bytes that follow.  So the bytes determine the records, with two provisos:

* a child's name may itself contain a line break and what looks like attributes, which another
  store has as attributes (`Separated` excludes it);
* the name of a void or structured dtype is only its size, so it does not tell two of them
  apart.

Over separated names, equal digests mean equal contents exactly when the dtypes that occur can
be told apart by their names (`zarrContentDigest_injective_iff`).
-/

namespace Xtrax.ZarrDigest

open List

variable {δ : Type} {D : Dtypes δ}

/-! ### Normalized attributes are sorted -/

section Attributes

variable (nfc : String → String)

theorem normalizeMembers_eq_map (kvs : List (String × Json)) :
    normalizeMembers nfc kvs = kvs.map fun p => (p.1, normalizeJsonValue nfc p.2) := by
  induction kvs with
  | nil => rfl
  | cons p kvs ih => rw [normalizeMembers, ih]; rfl

theorem sortKeysMembers_sortByKey (kvs : List (String × Json)) :
    sortKeysMembers (sortByKey kvs) = sortByKey (sortKeysMembers kvs) := by
  rw [sortKeysMembers_eq_map, sortKeysMembers_eq_map]
  exact (sortByKey_map (fun _ v => v.sortKeys) kvs).symm

mutual

theorem sortKeys_normalizeJsonValue : ∀ v : Json,
    (normalizeJsonValue nfc v).sortKeys = normalizeJsonValue nfc v
  | .null => rfl
  | .bool _ => rfl
  | .int _ => rfl
  | .float _ => rfl
  | .nonFinite _ => rfl
  | .str _ => rfl
  | .arr vs => congrArg Json.arr (sortKeysItems_normalizeItems vs)
  | .obj kvs => by
    rw [normalizeJsonValue, Json.sortKeys, sortKeysMembers_sortByKey,
      sortKeysMembers_normalizeMembers kvs, sortByKey_sortByKey]

theorem sortKeysItems_normalizeItems : ∀ vs : List Json,
    sortKeysItems (normalizeItems nfc vs) = normalizeItems nfc vs
  | [] => rfl
  | v :: vs => by
    rw [normalizeItems, sortKeysItems, sortKeys_normalizeJsonValue v,
      sortKeysItems_normalizeItems vs]

theorem sortKeysMembers_normalizeMembers : ∀ kvs : List (String × Json),
    sortKeysMembers (normalizeMembers nfc kvs) = normalizeMembers nfc kvs
  | [] => rfl
  | (k, v) :: kvs => by
    rw [normalizeMembers, sortKeysMembers, sortKeys_normalizeJsonValue v,
      sortKeysMembers_normalizeMembers kvs]

end

theorem sortKeys_attrsPayload (exclude : List String) (reserved : Bool)
    (attrs : List (String × Json)) :
    (attrsPayload nfc exclude reserved attrs).sortKeys =
      attrsPayload nfc exclude reserved attrs := by
  unfold attrsPayload
  rw [Json.sortKeys, sortKeysMembers_normalizeMembers, normalizeMembers_eq_map,
    sortByKey_map fun _ v => normalizeJsonValue nfc v]
  congr 2
  -- a part of a sorted list is sorted
  have : Std.Total fun a b : String × Json => a.1 ≤ b.1 := ⟨fun a b => le_total a.1 b.1⟩
  have : IsTrans (String × Json) fun a b => a.1 ≤ b.1 := ⟨fun a b c h h' => le_trans h h'⟩
  exact ((pairwise_insertionSort _ attrs).filter _).insertionSort_eq

end Attributes

/-! ### Shapes -/

theorem digits_numeric (n : Nat) : ∀ c ∈ n.repr.toList, NumberChar c :=
  fun _ hc => Or.inl (isDigit_of_mem_repr hc)

theorem ends_comma (r : List Char) : Ends (',' :: r) := ends_cons r (by decide)

theorem ends_paren (r : List Char) : Ends (')' :: r) := ends_cons r (by decide)

theorem digits_append_inj {n m : Nat} {r r' : List Char} (hr : Ends r) (hr' : Ends r')
    (h : n.repr.toList ++ r = m.repr.toList ++ r') : n = m ∧ r = r' := by
  obtain ⟨hnm, rfl⟩ := number_append_inj (digits_numeric n) (digits_numeric m) hr hr' h
  exact ⟨Nat.repr_injective (String.toList_inj.mp hnm), rfl⟩

/-- The dimensions after the first one. -/
def strTail (ns : List Nat) : List Char := ns.flatMap fun m => ',' :: ' ' :: m.repr.toList

theorem strTail_cons (n : Nat) (ns : List Nat) :
    strTail (n :: ns) ++ [')'] = ',' :: ' ' :: (n.repr.toList ++ (strTail ns ++ [')'])) := by
  simp [strTail]

theorem ends_strTail (ns : List Nat) : Ends (strTail ns ++ [')']) := by
  cases ns with
  | nil => exact ends_paren []
  | cons n ns => rw [strTail_cons]; exact ends_comma _

theorem strTail_inj {ns ms : List Nat} (h : strTail ns ++ [')'] = strTail ms ++ [')']) :
    ns = ms := by
  induction ns generalizing ms with
  | nil =>
    cases ms with
    | nil => rfl
    | cons m ms => rw [strTail_cons] at h; simp [strTail] at h
  | cons n ns ih =>
    cases ms with
    | nil => rw [strTail_cons] at h; simp [strTail] at h
    | cons m ms =>
      rw [strTail_cons, strTail_cons] at h
      have hdigits := (cons.inj (cons.inj h).2).2
      obtain ⟨rfl, htail⟩ := digits_append_inj (ends_strTail ns) (ends_strTail ms) hdigits
      rw [ih htail]

/-- What follows the first dimension: a comma of its own when there is no other one. -/
def strRest (ns : List Nat) : List Char := if ns = [] then [',', ')'] else strTail ns ++ [')']

theorem strShape_cons (n : Nat) (ns : List Nat) :
    strShape (n :: ns) = '(' :: (n.repr.toList ++ strRest ns) := by
  cases ns <;> simp [strShape, strRest, strTail]

theorem ends_strRest (ns : List Nat) : Ends (strRest ns) := by
  unfold strRest
  split
  · exact ends_comma _
  · exact ends_strTail ns

theorem strRest_inj {ns ms : List Nat} (h : strRest ns = strRest ms) : ns = ms := by
  cases ns with
  | nil =>
    cases ms with
    | nil => rfl
    | cons m ms => simp [strRest, strTail_cons] at h
  | cons n ns =>
    cases ms with
    | nil => simp [strRest, strTail_cons] at h
    | cons m ms => exact strTail_inj (by simpa [strRest] using h)

/-- **The text of a shape determines it.** -/
theorem strShape_inj {ns ms : List Nat} (h : strShape ns = strShape ms) : ns = ms := by
  have hparen : ∀ k ks, strShape (k :: ks) ≠ strShape [] := by
    intro k ks heq
    rw [strShape_cons, strShape] at heq
    have hdigits : k.repr.toList ++ strRest ks = [] ++ [')'] := (cons.inj heq).2
    have hnil := (run_inj (digits_numeric k) (by simp) (ends_strRest ks) (ends_paren []) hdigits).1
    simp at hnil
  cases ns with
  | nil =>
    cases ms with
    | nil => rfl
    | cons m ms => exact absurd h.symm (hparen m ms)
  | cons n ns =>
    cases ms with
    | nil => exact absurd h (hparen n ns)
    | cons m ms =>
      rw [strShape_cons, strShape_cons] at h
      obtain ⟨rfl, hrest⟩ :=
        digits_append_inj (ends_strRest ns) (ends_strRest ms) (cons.inj h).2
      rw [strRest_inj hrest]

theorem bar_notMem_strShape (ns : List Nat) : '|' ∉ strShape ns := by
  have hdigits : ∀ n : Nat, '|' ∉ Nat.toDigits 10 n := by
    intro n h
    exact absurd (Nat.isDigit_of_mem_toDigits (by decide) (by decide) h) (by decide)
  have htail : '|' ∉ strTail ns.tail := by
    intro h
    obtain ⟨m, -, hm⟩ := mem_flatMap.mp h
    exact hdigits m (by simpa using hm)
  cases ns with
  | nil => decide
  | cons n ns =>
    rw [strShape_cons, strRest]
    split
    · simp [hdigits n]
    · simpa [hdigits n] using htail

/-! ### Paths -/

/-- The path of a node, from the names that lead to it. -/
def pathText (path : List String) : String := path.foldl (fun p k => p ++ "/" ++ k) "/"

/-- The names of a path, a slash before each. -/
def pathTail (path : List String) : List Char := path.flatMap fun k => '/' :: k.toList

theorem pathText_append (path : List String) (k : String) :
    pathText (path ++ [k]) = pathText path ++ "/" ++ k := by
  simp [pathText]

theorem toList_pathText (path : List String) : (pathText path).toList = '/' :: pathTail path := by
  have hfold : ∀ p : String,
      (path.foldl (fun p k => p ++ "/" ++ k) p).toList = p.toList ++ pathTail path := by
    induction path with
    | nil => intro p; simp [pathTail]
    | cons k path ih =>
      intro p
      rw [foldl_cons, ih]
      simp [pathTail]
  exact hfold "/"

/-- The exclusions of a group are the documented ones: only the root's path has no name in
it. -/
theorem excludeKeys_pathText (includeProvenance : Bool) {path : List String}
    (hpath : ∀ k ∈ path, ChildName k) :
    excludeKeys includeProvenance (pathText path) = documentedExclusions includeProvenance path := by
  unfold excludeKeys documentedExclusions
  rw [toList_pathText]
  split
  · rfl
  · cases path with
    | nil => rfl
    | cons k path =>
      have hname := hpath k mem_cons_self
      have hslash : ¬ ((('/' :: pathTail (k :: path)).all (· == '/')) = true) := by
        intro hall
        obtain ⟨c, s, hk⟩ := exists_cons_of_ne_nil hname.1
        refine hname.2 (?_ : '/' ∈ k.toList)
        simp only [pathTail, flatMap_cons, hk, cons_append, all_cons,
          Bool.and_eq_true, beq_iff_eq] at hall
        rw [hk, hall.2.2.1]
        exact mem_cons_self
      rw [if_neg hslash, if_neg (cons_ne_nil k path)]
      rfl

/-- No name goes on, after another one, with a line break and an opening brace. -/
def Separated (names : String → Prop) : Prop :=
  ∀ x n, names x → names n → ¬ x.toList ++ ['\n', '{'] <+: n.toList

theorem head_pathTail (path : List String) : ∀ c ∈ (pathTail path).head?, ¬ c ≠ '/' := by
  cases path with
  | nil => nofun
  | cons k path =>
    intro c hc
    obtain rfl := Option.some.inj hc
    simp

theorem name_ne_slash {k : String} (h : ChildName k) : ∀ c ∈ k.toList, c ≠ '/' := by
  rintro c hc rfl
  exact h.2 hc

/-- Over separated names, no path goes on, after another one, with a line break and an
opening brace. -/
theorem pathTail_separated {names : String → Prop} (hnames : ∀ k, names k → ChildName k)
    (hsep : Separated names) : ∀ {path path' : List String}, (∀ k ∈ path, names k) →
    (∀ k ∈ path', names k) → ∀ u, pathTail path' ≠ pathTail path ++ '\n' :: '{' :: u
  | [], [], _, _, _, h => by simp [pathTail] at h
  | [], _ :: _, _, _, _, h => by simp [pathTail] at h
  | _ :: _, [], _, _, _, h => by simp [pathTail] at h
  | k :: path, l :: path', hpath, hpath', u, h => by
    have hk := hpath k mem_cons_self
    have hl := hpath' l mem_cons_self
    have hstep : l.toList ++ pathTail path' = k.toList ++ (pathTail path ++ '\n' :: '{' :: u) := by
      simpa [pathTail] using h
    cases path with
    | nil =>
      -- the line break comes within the name `l`
      have hslash : ∀ c ∈ k.toList ++ ['\n', '{'], c ≠ '/' := by
        intro c hc
        rcases mem_append.mp hc with hc | hc
        · exact name_ne_slash (hnames k hk) c hc
        · revert hc; rintro (_ | ⟨_, _ | ⟨_, ⟨⟩⟩⟩) <;> decide
      have hline : l.toList ++ pathTail path' = (k.toList ++ ['\n', '{']) ++ u := by
        rw [hstep]
        simp [pathTail]
      rcases append_eq_append_iff.mp hline with ⟨v, hv, hvtail⟩ | ⟨v, hv, -⟩
      · cases v with
        | nil =>
          rw [append_nil] at hv
          exact hsep k l hk hl (hv ▸ prefix_rfl)
        | cons c v =>
          have hc := head_pathTail path' c (by rw [hvtail]; rfl)
          exact hc (hslash c (by rw [hv]; simp))
      · exact hsep k l hk hl ⟨v, hv.symm⟩
    | cons k' path =>
      obtain ⟨-, htail⟩ := run_inj (name_ne_slash (hnames l hl)) (name_ne_slash (hnames k hk))
        (head_pathTail path') (by simp [pathTail]) hstep
      exact pathTail_separated hnames hsep (fun x hx => hpath x (mem_cons_of_mem _ hx))
        (fun x hx => hpath' x (mem_cons_of_mem _ hx)) u htail

theorem pathTail_inj : ∀ {path path' : List String}, (∀ k ∈ path, ChildName k) →
    (∀ k ∈ path', ChildName k) → pathTail path = pathTail path' → path = path'
  | [], [], _, _, _ => rfl
  | [], _ :: _, _, _, h => by simp [pathTail] at h
  | _ :: _, [], _, _, h => by simp [pathTail] at h
  | k :: path, l :: path', hpath, hpath', h => by
    have hstep : k.toList ++ pathTail path = l.toList ++ pathTail path' := by
      simpa [pathTail] using h
    obtain ⟨hkl, htail⟩ := run_inj (name_ne_slash (hpath k mem_cons_self))
      (name_ne_slash (hpath' l mem_cons_self)) (head_pathTail path) (head_pathTail path') hstep
    rw [String.toList_inj.mp hkl, pathTail_inj (fun x hx => hpath x (mem_cons_of_mem _ hx))
      (fun x hx => hpath' x (mem_cons_of_mem _ hx)) htail]

/-! ### The walk folds one record for each node -/

mutual

/-- The nodes of a store, each under its path, in the order of the walk. -/
def walkOrder : Node D → List String → List (List String × Node D)
  | .array attrs a, path => [(path, .array attrs a)]
  | .group attrs children, path =>
    (path, .group attrs children) :: (sortByKey (walkChildren children path)).flatMap Prod.snd

def walkChildren : List (String × Node D) → List String →
    List (String × List (List String × Node D))
  | [], _ => []
  | (k, c) :: rest, path => (k, walkOrder c (path ++ [k])) :: walkChildren rest path

end

mutual

theorem mem_walkOrder : ∀ (n : Node D) (path q : List String) (m : Node D),
    (q, m) ∈ walkOrder n path ↔ ∃ p, q = path ++ p ∧ n.At p m
  | .array attrs a, path, q, m => by
    rw [walkOrder, mem_singleton, Prod.mk.injEq]
    constructor
    · rintro ⟨rfl, rfl⟩
      exact ⟨[], by simp, rfl⟩
    · rintro ⟨p, rfl, hm⟩
      cases p with
      | nil => exact ⟨by simp, hm⟩
      | cons k ks => exact hm.elim
  | .group attrs children, path, q, m => by
    rw [walkOrder, mem_cons, Prod.mk.injEq, mem_flatMap]
    have hchildren : (∃ x ∈ sortByKey (walkChildren children path), (q, m) ∈ x.2) ↔
        ∃ k c p, (k, c) ∈ children ∧ q = path ++ k :: p ∧ c.At p m := by
      rw [← mem_walkChildren children path q m]
      exact exists_congr fun x => and_congr_left' (sortByKey_perm _).mem_iff
    rw [hchildren]
    constructor
    · rintro (⟨rfl, rfl⟩ | ⟨k, c, p, hc, rfl, hm⟩)
      · exact ⟨[], by simp, rfl⟩
      · exact ⟨k :: p, rfl, c, hc, hm⟩
    · rintro ⟨p, rfl, hm⟩
      cases p with
      | nil => exact Or.inl ⟨by simp, hm⟩
      | cons k p =>
        obtain ⟨c, hc, hm⟩ := hm
        exact Or.inr ⟨k, c, p, hc, rfl, hm⟩

theorem mem_walkChildren : ∀ (cs : List (String × Node D)) (path q : List String) (m : Node D),
    (∃ x ∈ walkChildren cs path, (q, m) ∈ x.2) ↔
      ∃ k c p, (k, c) ∈ cs ∧ q = path ++ k :: p ∧ c.At p m
  | [], path, q, m => by simp [walkChildren]
  | (k, c) :: rest, path, q, m => by
    rw [walkChildren, exists_mem_cons_iff, mem_walkOrder c (path ++ [k]) q m,
      mem_walkChildren rest path q m]
    constructor
    · rintro (⟨p, rfl, hm⟩ | ⟨k', c', p, hc, hq, hm⟩)
      · exact ⟨k, c, p, mem_cons_self, by simp, hm⟩
      · exact ⟨k', c', p, mem_cons_of_mem _ hc, hq, hm⟩
    · rintro ⟨k', c', p, hc, rfl, hm⟩
      rcases mem_cons.mp hc with heq | hc
      · obtain ⟨rfl, rfl⟩ := Prod.mk.inj heq
        exact Or.inl ⟨p, by simp, hm⟩
      · exact Or.inr ⟨k', c', p, hc, rfl, hm⟩

end

def Entry.attrs : Entry δ → Json
  | .array attrs _ _ _ => attrs
  | .group attrs => attrs

/-- What is folded for a node after its attributes. -/
def Node.body : Node D → List UInt8
  | .array _ a => updateArrayDigest a ++ utf8 ['\n']
  | .group _ _ => []

section Walk

variable (nfc : String → String) (includeProvenance : Bool)

/-- What is folded for one node. -/
def record (p : List String × Node D) : Option (List UInt8) := do
  let payload ← (p.2.entry nfc includeProvenance p.1).attrs.dumps
  return utf8 (pathText p.1).toList ++ utf8 ['\n'] ++ (utf8 payload ++ utf8 ['\n']) ++ p.2.body

def recordAll : List (List String × Node D) → Option (List UInt8)
  | [] => some []
  | p :: rest => do return (← record nfc includeProvenance p) ++ (← recordAll rest)

theorem recordAll_append (xs ys : List (List String × Node D)) :
    recordAll nfc includeProvenance (xs ++ ys) =
      (do return (← recordAll nfc includeProvenance xs) ++ (← recordAll nfc includeProvenance ys)) := by
  induction xs with
  | nil => simp [recordAll]
  | cons p xs ih =>
    rw [cons_append, recordAll, recordAll, ih]
    cases record nfc includeProvenance p with
    | none => rfl
    | some b =>
      cases recordAll nfc includeProvenance xs with
      | none => rfl
      | some bs =>
        cases recordAll nfc includeProvenance ys with
        | none => rfl
        | some cs => simp

theorem foldAll_recordAll (l : List (String × List (List String × Node D))) :
    foldAll (l.map fun p => (p.1, recordAll nfc includeProvenance p.2)) =
      recordAll nfc includeProvenance (l.flatMap Prod.snd) := by
  induction l with
  | nil => rfl
  | cons p l ih => rw [map_cons, foldAll, ih, flatMap_cons, recordAll_append]

mutual

/-- **The walk folds the records of the nodes**, in its order. -/
theorem updateZarrNodeDigest_eq {names : String → Prop} {dtypes : δ → Prop}
    (hnames : ∀ k, names k → ChildName k) : ∀ (n : Node D) (path : List String),
    (∀ k ∈ path, names k) → n.Over names dtypes →
    updateZarrNodeDigest nfc includeProvenance n (pathText path) =
      recordAll nfc includeProvenance (walkOrder n path)
  | .array attrs a, path, _, _ => by
    rw [updateZarrNodeDigest, walkOrder, recordAll, recordAll, record]
    cases h : (attrsPayload nfc [] (!includeProvenance) attrs).dumps with
    | none => simp [Node.entry, Entry.attrs, h]
    | some payload => simp [Node.entry, Entry.attrs, Node.body, h]
  | .group attrs children, path, hpath, hover => by
    rw [updateZarrNodeDigest, excludeKeys_pathText includeProvenance fun k hk => hnames k (hpath k hk),
      updateChildren_eq hnames children path hpath hover,
      sortByKey_map fun _ ns => recordAll nfc includeProvenance ns, foldAll_recordAll, walkOrder,
      recordAll, record]
    cases h : (attrsPayload nfc (documentedExclusions includeProvenance path)
      (!includeProvenance) attrs).dumps with
    | none => simp [Node.entry, Entry.attrs, h]
    | some payload => simp [Node.entry, Entry.attrs, Node.body, h]

theorem updateChildren_eq {names : String → Prop} {dtypes : δ → Prop}
    (hnames : ∀ k, names k → ChildName k) : ∀ (cs : List (String × Node D)) (path : List String),
    (∀ k ∈ path, names k) → OverChildren names dtypes cs →
    updateChildren nfc includeProvenance cs (pathText path) =
      (walkChildren cs path).map fun p => (p.1, recordAll nfc includeProvenance p.2)
  | [], _, _, _ => rfl
  | (k, c) :: rest, path, hpath, ⟨hk, hc, hrest⟩ => by
    have hpath' : ∀ x ∈ path ++ [k], names x := by
      intro x hx
      rcases mem_append.mp hx with hx | hx
      · exact hpath x hx
      · exact mem_singleton.mp hx ▸ hk
    rw [updateChildren, walkChildren, map_cons, ← pathText_append,
      updateZarrNodeDigest_eq hnames c (path ++ [k]) hpath' hc,
      updateChildren_eq hnames rest path hpath hrest]

end

/-! ### Reading a record back -/

theorem entry_attrs (n : Node D) (path : List String) :
    (∃ kvs, (n.entry nfc includeProvenance path).attrs = .obj kvs) ∧
      (n.entry nfc includeProvenance path).attrs.sortKeys =
        (n.entry nfc includeProvenance path).attrs := by
  cases n with
  | array attrs a => exact ⟨⟨_, rfl⟩, sortKeys_attrsPayload nfc _ _ attrs⟩
  | group attrs children => exact ⟨⟨_, rfl⟩, sortKeys_attrsPayload nfc _ _ attrs⟩

theorem dumps_brace {kvs : List (String × Json)} {s : List Char}
    (h : (Json.obj kvs).dumps = some s) : ∃ s', s = '{' :: s' := by
  obtain ⟨-, rfl⟩ := dumps_eq_some h
  exact ⟨_, rfl⟩

/-- A path ends at its line break when the other one does not go on, there, with a line break
and an opening brace. -/
theorem pathText_until_inj {names : String → Prop} (hnames : ∀ k, names k → ChildName k)
    (hsep : Separated names) {path path' : List String} (hpath : ∀ k ∈ path, names k)
    (hpath' : ∀ k ∈ path', names k) {s t : List Char} {r r' : List UInt8}
    (h : utf8 (pathText path).toList ++ (utf8 ('\n' :: '{' :: s) ++ r) =
      utf8 (pathText path').toList ++ (utf8 ('\n' :: '{' :: t) ++ r')) : path = path' := by
  -- one text continues the other one by `u`, which is read against a line break and a brace
  have hcontinue : ∀ {p p' : List String} {u s t : List Char} {r r' : List UInt8},
      (∀ k ∈ p, names k) → (∀ k ∈ p', names k) →
      (pathText p').toList = (pathText p).toList ++ u →
      utf8 ('\n' :: '{' :: s) ++ r = utf8 u ++ (utf8 ('\n' :: '{' :: t) ++ r') → p = p' := by
    intro p p' u s t r r' hp hp' hu hread
    rw [toList_pathText, toList_pathText, cons_append, cons.injEq] at hu
    cases u with
    | nil =>
      rw [append_nil] at hu
      exact pathTail_inj (fun k hk => hnames k (hp k hk)) (fun k hk => hnames k (hp' k hk))
        hu.2.symm
    | cons c u =>
      obtain ⟨rfl, hbrace⟩ := utf8_cons_inj hread
      cases u with
      | nil =>
        rw [utf8_nil, nil_append] at hbrace
        exact absurd (utf8_cons_inj hbrace).1 (by decide)
      | cons d u =>
        obtain ⟨rfl, -⟩ := utf8_cons_inj hbrace
        exact absurd hu.2 (pathTail_separated hnames hsep hp hp' u)
  rcases utf8_append_cases h with ⟨u, hu, hread⟩ | ⟨u, hu, hread⟩
  · exact hcontinue hpath hpath' hu hread
  · exact (hcontinue hpath' hpath hu hread).symm

/-- The bytes of the records that follow: none, or those of a path. -/
def Rest (r : List UInt8) : Prop := r = [] ∨ ∃ r', r = utf8 ['/'] ++ r'

theorem recordAll_rest {ps : List (List String × Node D)} {b : List UInt8}
    (h : recordAll nfc includeProvenance ps = some b) : Rest b := by
  cases ps with
  | nil => exact Or.inl (Option.some.inj h).symm
  | cons p ps =>
    right
    simp only [recordAll, record, toList_pathText, Option.bind_eq_bind, Option.pure_def,
      Option.bind_eq_some_iff, Option.some.injEq] at h
    obtain ⟨_, ⟨payload, -, rfl⟩, bs, -, rfl⟩ := h
    exact ⟨utf8 (pathTail p.1) ++ utf8 ['\n'] ++ (utf8 payload ++ utf8 ['\n']) ++ p.2.body ++ bs,
      by simp⟩

theorem body_not_rest (attrs : List (String × Json)) (a : NdArray D) (r : List UInt8) :
    ¬ Rest ((Node.array attrs a).body ++ r) := by
  have hbody : (Node.array attrs a).body ++ r =
      utf8 ((D.name a.dtype).toList ++ ['|']) ++
        (utf8 (strShape a.shape) ++ utf8 ['|'] ++ D.astype a.dtype a.bytes ++ utf8 ['\n'] ++ r) := by
    simp [Node.body, updateArrayDigest]
  rw [hbody]
  have hhead := D.name_head a.dtype
  rintro (h | ⟨r', h⟩)
  · cases hname : (D.name a.dtype).toList with
    | nil => rw [hname] at h; simp [String.utf8EncodeChar_ne_nil] at h
    | cons c s => rw [hname] at h; simp [String.utf8EncodeChar_ne_nil] at h
  · cases hname : (D.name a.dtype).toList with
    | nil =>
      rw [hname, nil_append] at h
      exact absurd (utf8_cons_inj h).1 (by decide)
    | cons c s =>
      rw [hname] at h hhead
      obtain ⟨rfl, -⟩ := utf8_cons_inj (t := []) h
      exact hhead rfl

/-- **An array is read back from its record**, with the name of its dtype in place of the
dtype. -/
theorem updateArrayDigest_name_inj {a b : NdArray D} {r r' : List UInt8}
    (h : updateArrayDigest a ++ r = updateArrayDigest b ++ r') :
    D.name a.dtype = D.name b.dtype ∧ a.shape = b.shape ∧
      D.astype a.dtype a.bytes = D.astype b.dtype b.bytes ∧ r = r' := by
  have hpieces : ∀ (a : NdArray D) (r : List UInt8), updateArrayDigest a ++ r =
      utf8 ((D.name a.dtype).toList ++ ['|']) ++
        (utf8 (strShape a.shape ++ ['|']) ++ (D.astype a.dtype a.bytes ++ r)) := by
    intro a r
    simp [updateArrayDigest]
  rw [hpieces, hpieces] at h
  obtain ⟨hnames, hrest⟩ := utf8_until_inj (D.bar_notMem_name _) (D.bar_notMem_name _) h
  obtain ⟨hshapes, hbytes⟩ := utf8_until_inj (bar_notMem_strShape _) (bar_notMem_strShape _) hrest
  have hnames : D.name a.dtype = D.name b.dtype := String.toList_inj.mp hnames
  have hshapes : a.shape = b.shape := strShape_inj hshapes
  -- name and shape give the number of bytes
  have hlength : (D.astype a.dtype a.bytes).length = (D.astype b.dtype b.bytes).length := by
    rw [D.length_astype, D.length_astype, a.length_bytes, b.length_bytes,
      D.itemsize_of_name hnames, hshapes]
  obtain ⟨hbytes, hr⟩ := append_inj hbytes hlength
  exact ⟨hnames, hshapes, hbytes, hr⟩

/-- An array is read back from its record, up to the byte order of its dtype, when the names of
the dtypes tell them apart. -/
theorem updateArrayDigest_append_inj {a b : NdArray D}
    (hname : D.name a.dtype = D.name b.dtype → D.newbyteorder a.dtype = D.newbyteorder b.dtype)
    {r r' : List UInt8} (h : updateArrayDigest a ++ r = updateArrayDigest b ++ r') :
    D.newbyteorder a.dtype = D.newbyteorder b.dtype ∧ a.shape = b.shape ∧
      D.astype a.dtype a.bytes = D.astype b.dtype b.bytes ∧ r = r' := by
  obtain ⟨hnames, hrest⟩ := updateArrayDigest_name_inj h
  exact ⟨hname hnames, hrest⟩

/-- A node whose path's names and whose dtypes are among the given. -/
def Known (names : String → Prop) (dtypes : δ → Prop) (p : List String × Node D) : Prop :=
  (∀ k ∈ p.1, names k) ∧ p.2.Over names dtypes

/-- The dtypes are told apart, up to byte order, by their names. -/
def NamesTell (D : Dtypes δ) (dtypes : δ → Prop) : Prop :=
  ∀ d d', dtypes d → dtypes d' → D.name d = D.name d' → D.newbyteorder d = D.newbyteorder d'

variable {names : String → Prop} {dtypes : δ → Prop}

/-- **A node is read back from its record.** -/
theorem record_append_inj (hnames : ∀ k, names k → ChildName k) (hsep : Separated names)
    (hdtypes : NamesTell D dtypes) {p q : List String × Node D}
    (hp : Known names dtypes p) (hq : Known names dtypes q) {b c r r' : List UInt8}
    (hb : record nfc includeProvenance p = some b) (hc : record nfc includeProvenance q = some c)
    (hr : Rest r) (hr' : Rest r') (h : b ++ r = c ++ r') :
    p.1 = q.1 ∧ p.2.entry nfc includeProvenance p.1 = q.2.entry nfc includeProvenance q.1 ∧
      r = r' := by
  obtain ⟨path, n⟩ := p
  obtain ⟨path', m⟩ := q
  simp only [record, Option.bind_eq_bind, Option.pure_def, Option.bind_eq_some_iff,
    Option.some.injEq] at hb hc
  obtain ⟨s, hs, rfl⟩ := hb
  obtain ⟨t, ht, rfl⟩ := hc
  obtain ⟨⟨kvs, hkvs⟩, hsorted⟩ := entry_attrs nfc includeProvenance n path
  obtain ⟨⟨kvs', hkvs'⟩, hsorted'⟩ := entry_attrs nfc includeProvenance m path'
  obtain ⟨s', rfl⟩ := dumps_brace (hkvs ▸ hs)
  obtain ⟨t', rfl⟩ := dumps_brace (hkvs' ▸ ht)
  simp only [List.append_assoc] at h
  -- the paths end at the same line break
  have hpaths : utf8 (pathText path).toList ++
        (utf8 ('\n' :: '{' :: s') ++ (utf8 ['\n'] ++ (n.body ++ r))) =
      utf8 (pathText path').toList ++
        (utf8 ('\n' :: '{' :: t') ++ (utf8 ['\n'] ++ (m.body ++ r'))) := by
    simpa [List.append_assoc] using h
  obtain rfl := pathText_until_inj hnames hsep hp.1 hq.1 hpaths
  have hattrs := List.append_cancel_left (List.append_cancel_left h)
  -- and so do the attributes
  have hline : ∀ {v : Json} {s : List Char}, v.dumps = some s → '\n' ∉ s := by
    intro v s hv hmem
    exact absurd (dumps_printable hv '\n' hmem) (by decide)
  have hlines : utf8 ('{' :: s' ++ ['\n']) ++ (n.body ++ r) =
      utf8 ('{' :: t' ++ ['\n']) ++ (m.body ++ r') := by
    simpa [List.append_assoc] using hattrs
  obtain ⟨hst, hbody⟩ := utf8_until_inj (hline hs) (hline ht) hlines
  have hpayload := dumps_inj hs (hst ▸ ht)
  rw [hsorted, hsorted'] at hpayload
  refine ⟨rfl, ?_⟩
  cases n with
  | group attrs children =>
    cases m with
    | group attrs' children' => exact ⟨congrArg Entry.group hpayload, hbody⟩
    | array attrs' a =>
      rw [show (Node.group attrs children).body ++ r = r from rfl] at hbody
      exact absurd (hbody ▸ hr) (body_not_rest attrs' a r')
  | array attrs a =>
    cases m with
    | group attrs' children' =>
      rw [show (Node.group attrs' children').body ++ r' = r' from rfl] at hbody
      exact absurd (hbody ▸ hr') (body_not_rest attrs a r)
    | array attrs' b =>
      rw [Node.body, Node.body, List.append_assoc, List.append_assoc] at hbody
      obtain ⟨hdtype, hshape, hbytes, htail⟩ :=
        updateArrayDigest_append_inj (hdtypes _ _ hp.2 hq.2) hbody
      refine ⟨?_, List.append_cancel_left htail⟩
      have hpayload : attrsPayload nfc [] (!includeProvenance) attrs =
          attrsPayload nfc [] (!includeProvenance) attrs' := hpayload
      rw [Node.entry, Node.entry, hpayload, hdtype, hshape, hbytes]

theorem recordAll_inj (hnames : ∀ k, names k → ChildName k) (hsep : Separated names)
    (hdtypes : NamesTell D dtypes) {ps qs : List (List String × Node D)} {b : List UInt8}
    (hps : ∀ p ∈ ps, Known names dtypes p) (hqs : ∀ q ∈ qs, Known names dtypes q)
    (hb : recordAll nfc includeProvenance ps = some b)
    (hc : recordAll nfc includeProvenance qs = some b) :
    ps.map (fun p => (p.1, p.2.entry nfc includeProvenance p.1)) =
      qs.map (fun q => (q.1, q.2.entry nfc includeProvenance q.1)) := by
  have hne : ∀ {p : List String × Node D} {ps : List (List String × Node D)},
      recordAll nfc includeProvenance (p :: ps) ≠ some [] := by
    intro p ps h
    simp only [recordAll, record, toList_pathText, Option.bind_eq_bind, Option.pure_def,
      Option.bind_eq_some_iff, Option.some.injEq] at h
    obtain ⟨_, ⟨payload, -, rfl⟩, bs, -, h⟩ := h
    simp [String.utf8EncodeChar_ne_nil] at h
  induction ps generalizing qs b with
  | nil =>
    obtain rfl := Option.some.inj hb
    cases qs with
    | nil => rfl
    | cons q qs => exact absurd hc hne
  | cons p ps ih =>
    cases qs with
    | nil =>
      obtain rfl := Option.some.inj hc
      exact absurd hb hne
    | cons q qs =>
      simp only [recordAll, Option.bind_eq_bind, Option.pure_def, Option.bind_eq_some_iff,
        Option.some.injEq] at hb hc
      obtain ⟨bp, hbp, bps, hbps, rfl⟩ := hb
      obtain ⟨bq, hbq, bqs, hbqs, heq⟩ := hc
      obtain ⟨hpath, hentry, rfl⟩ := record_append_inj nfc includeProvenance hnames hsep hdtypes
        (hps p List.mem_cons_self) (hqs q List.mem_cons_self) hbp hbq
        (recordAll_rest nfc includeProvenance hbps) (recordAll_rest nfc includeProvenance hbqs)
        heq.symm
      rw [List.map_cons, List.map_cons, hpath, ← hpath, hentry,
        ih (fun x hx => hps x (List.mem_cons_of_mem _ hx))
          (fun x hx => hqs x (List.mem_cons_of_mem _ hx)) hbps hbqs, hpath]

/-! ### The digest -/

omit names dtypes in
theorem holds_iff_mem_walkOrder (t : Node D) (path : List String) (e : Entry δ) :
    t.Holds nfc includeProvenance path e ↔
      (path, e) ∈ (walkOrder t []).map fun p => (p.1, p.2.entry nfc includeProvenance p.1) := by
  rw [List.mem_map]
  constructor
  · rintro ⟨n, hn, rfl⟩
    exact ⟨(path, n), (mem_walkOrder t [] path n).mpr ⟨path, rfl, hn⟩, rfl⟩
  · rintro ⟨⟨q, n⟩, hmem, heq⟩
    obtain ⟨p, rfl, hn⟩ := (mem_walkOrder t [] q n).mp hmem
    obtain ⟨rfl, rfl⟩ := Prod.mk.inj heq
    exact ⟨n, hn, rfl⟩

theorem over_of_mem : ∀ {cs : List (String × Node D)}, OverChildren names dtypes cs →
    ∀ {k c}, (k, c) ∈ cs → names k ∧ c.Over names dtypes
  | [], _, _, _, hmem => absurd hmem not_mem_nil
  | _ :: _, ⟨hk, hc, hrest⟩, _, _, hmem => by
    rcases mem_cons.mp hmem with heq | hmem
    · obtain ⟨rfl, rfl⟩ := Prod.mk.inj heq
      exact ⟨hk, hc⟩
    · exact over_of_mem hrest hmem

theorem known_of_at : ∀ {path : List String} {n m : Node D}, n.Over names dtypes →
    n.At path m → Known names dtypes (path, m)
  | [], _, _, hover, hm => ⟨nofun, by rw [show _ = _ from hm]; exact hover⟩
  | _ :: _, .array _ _, _, _, hm => hm.elim
  | k :: path, .group _ _, _, hover, ⟨c, hc, hm⟩ => by
    obtain ⟨hk, hover'⟩ := over_of_mem hover hc
    obtain ⟨hpath, hm'⟩ := known_of_at hover' hm
    refine ⟨fun x hx => ?_, hm'⟩
    rcases mem_cons.mp hx with rfl | hx
    · exact hk
    · exact hpath x hx

theorem known_walkOrder {t : Node D} (hover : t.Over names dtypes) :
    ∀ p ∈ walkOrder t [], Known names dtypes p := by
  rintro ⟨q, m⟩ hmem
  obtain ⟨p, rfl, hm⟩ := (mem_walkOrder t [] q m).mp hmem
  exact known_of_at hover hm

theorem zarrContentDigest_eq_some {γ : Type} {sha256 : List UInt8 → γ}
    (hnames : ∀ k, names k → ChildName k) {t : Node D} (hover : t.Over names dtypes) {h : γ}
    (hdigest : zarrContentDigest nfc includeProvenance sha256 t = some h) :
    ∃ b, recordAll nfc includeProvenance (walkOrder t []) = some b ∧ sha256 b = h := by
  cases t with
  | array attrs a => exact absurd hdigest (by simp [zarrContentDigest])
  | group attrs children =>
    rw [zarrContentDigest, show "/" = pathText [] from rfl,
      updateZarrNodeDigest_eq nfc includeProvenance hnames _ [] nofun hover] at hdigest
    exact Option.map_eq_some_iff.mp hdigest

omit names dtypes in
theorem holds_only_child {attrs : List (String × Json)} {k l : String} {c : Node D}
    {e : Entry δ} :
    (Node.group attrs [(k, c)]).Holds nfc includeProvenance [l] e ↔
      l = k ∧ c.entry nfc includeProvenance [l] = e := by
  constructor
  · rintro ⟨n, ⟨c', hc, hn⟩, hentry⟩
    obtain ⟨rfl, rfl⟩ := Prod.mk.inj (mem_singleton.mp hc)
    obtain rfl : n = c' := hn
    exact ⟨rfl, hentry⟩
  · rintro ⟨rfl, hentry⟩
    exact ⟨c, ⟨c, mem_singleton_self _, rfl⟩, hentry⟩

/-- An array without elements. -/
def emptyArray (D : Dtypes δ) (d : δ) : NdArray D := ⟨d, [0], [], by simp⟩

omit names dtypes in
/-- The digest of a store with one empty array depends on the array's dtype only through its
name. -/
theorem zarrContentDigest_emptyArray {γ : Type} (sha256 : List UInt8 → γ) (k : String) (d : δ) :
    zarrContentDigest nfc includeProvenance sha256 (.group [] [(k, .array [] (emptyArray D d))]) =
      some (sha256 (utf8 (['/', '\n', '{', '}', '\n', '/', '/'] ++ k.toList ++
        ['\n', '{', '}', '\n'] ++ (D.name d).toList ++ ['|', '(', '0', ',', ')', '|', '\n']))) := by
  have hdumps : ∀ exclude reserved,
      (attrsPayload nfc exclude reserved []).dumps = some ['{', '}'] := fun _ _ => rfl
  have hempty : D.astype d [] = [] := length_eq_zero_iff.mp (D.length_astype d [])
  have hsort : ∀ x : String × Option (List UInt8), sortByKey [x] = [x] := fun _ => rfl
  simp [zarrContentDigest, updateZarrNodeDigest, updateChildren, hdumps, hsort, foldAll,
    updateArrayDigest, emptyArray, strShape, hempty]

/-- **Over separated names, equal digests mean equal contents exactly when the dtypes that
occur are told apart by their names**, the hash having no collisions. -/
theorem zarrContentDigest_injective_iff {γ : Type} {sha256 : List UInt8 → γ}
    (hsha : Function.Injective sha256) (hnames : ∀ k, names k → ChildName k)
    (hne : ∃ k, names k) (hsep : Separated names) :
    (∀ t u : Node D, t.Over names dtypes → u.Over names dtypes → ∀ h,
      zarrContentDigest nfc includeProvenance sha256 t = some h →
      zarrContentDigest nfc includeProvenance sha256 u = some h →
      SameContent nfc includeProvenance t u) ↔ NamesTell D dtypes := by
  constructor
  · intro hinj d d' hd hd' hname
    obtain ⟨k, hk⟩ := hne
    -- a store with one empty array, of either dtype
    have hsame := hinj (.group [] [(k, .array [] (emptyArray D d))])
      (.group [] [(k, .array [] (emptyArray D d'))]) ⟨hk, hd, trivial⟩ ⟨hk, hd', trivial⟩ _
      (zarrContentDigest_emptyArray nfc includeProvenance sha256 k d)
      (by rw [zarrContentDigest_emptyArray, hname])
    have hentry := (holds_only_child nfc includeProvenance).mp
      ((hsame [k] _).mp ((holds_only_child nfc includeProvenance).mpr ⟨rfl, rfl⟩))
    injection hentry.2 with _ hdtype
    exact hdtype.symm
  · intro hdtypes t u ht hu h hdt hdu
    obtain ⟨b, hb, rfl⟩ := zarrContentDigest_eq_some nfc includeProvenance hnames ht hdt
    obtain ⟨c, hc, hcb⟩ := zarrContentDigest_eq_some nfc includeProvenance hnames hu hdu
    obtain rfl := hsha hcb
    have hrecords := recordAll_inj nfc includeProvenance hnames hsep hdtypes
      (known_walkOrder ht) (known_walkOrder hu) hb hc
    intro path e
    rw [holds_iff_mem_walkOrder, holds_iff_mem_walkOrder, hrecords]

end Walk

/-! ### Two dtypes of numpy -/

namespace Sample

/-- Bytes, and records of two 32-bit integers with the given field names. -/
inductive Dtype where
  | uint8
  | int32Pair (first second : String)
  deriving DecidableEq

/-- numpy's names of these dtypes: the name of a record is its size in bits. -/
def numpy : Dtypes Dtype where
  name
    | .uint8 => "uint8"
    | .int32Pair _ _ => "void64"
  itemsize
    | .uint8 => 1
    | .int32Pair _ _ => 8
  newbyteorder d := d
  astype _ bs := bs
  itemsize_of_name := by
    rintro (_ | ⟨f, s⟩) (_ | ⟨f', s'⟩) h
    · rfl
    · exact absurd h (show "uint8" ≠ "void64" by decide)
    · exact absurd h (show "void64" ≠ "uint8" by decide)
    · rfl
  bar_notMem_name
    | .uint8 => show '|' ∉ "uint8".toList by decide
    | .int32Pair _ _ => show '|' ∉ "void64".toList by decide
  name_head
    | .uint8 => show '/' ∉ "uint8".toList.head? by decide
    | .int32Pair _ _ => show '/' ∉ "void64".toList.head? by decide
  length_astype _ _ := rfl

theorem zarrContentDigest_injective_bytes :
    (∀ t u : Node numpy, t.Over (· = "a") (· = Dtype.uint8) → u.Over (· = "a") (· = Dtype.uint8) →
      ∀ h, zarrContentDigest id false id t = some h → zarrContentDigest id false id u = some h →
        SameContent id false t u) ↔ NamesTell numpy (· = Dtype.uint8) :=
  zarrContentDigest_injective_iff id false Function.injective_id
    (by rintro k rfl; exact ⟨by decide, by decide⟩) ⟨"a", rfl⟩
    (by rintro x n rfl rfl; decide)

def points (first second : String) : Node numpy :=
  .group [] [("a", .array [] ⟨.int32Pair first second, [1], [0, 0, 0, 0, 1, 0, 0, 0], rfl⟩)]

def fiveBytes : Node numpy :=
  .group [] [("a", .array [] ⟨.uint8, [5], [88, 88, 10, 123, 125], rfl⟩)]

/-- A store with one empty group whose name has line breaks. -/
def oddName : Node numpy :=
  .group [] [("a\n\x7b\x7d\nuint8|(5,)|XX", .group [] [])]

/-- Two stores whose arrays are records with different fields have the same digest, and so
have two stores one of which has a group where the other has an array. -/
theorem zarrContentDigest_collides :
    (zarrContentDigest id false id (points "x" "y") =
        zarrContentDigest id false id (points "row" "col") ∧
      (zarrContentDigest id false id (points "x" "y")).isSome = true ∧
      ¬ SameContent id false (points "x" "y") (points "row" "col")) ∧
    (zarrContentDigest id false id fiveBytes = zarrContentDigest id false id oddName ∧
      (zarrContentDigest id false id fiveBytes).isSome = true ∧
      ¬ SameContent id false fiveBytes oddName) := by
  refine ⟨⟨rfl, rfl, fun hsame => ?_⟩, ⟨rfl, rfl, fun hsame => ?_⟩⟩
  · have hentry := (holds_only_child id false).mp
      ((hsame ["a"] _).mp ((holds_only_child id false).mpr ⟨rfl, rfl⟩))
    injection hentry.2 with _ hdtype
    exact absurd hdtype (by decide)
  · have hentry := (holds_only_child id false).mp
      ((hsame ["a"] _).mp ((holds_only_child id false).mpr ⟨rfl, rfl⟩))
    exact absurd hentry.1 (by decide)

end Sample

end Xtrax.ZarrDigest
