import Xtrax.IntentPlan

/-!
# The text of a site key

Levels of a key are joined with `/`, and a level's ordinal follows a `#`.  A label may hold both,
so a text may be that of several keys: where a label holds `#<ordinal>/<path>/`, the text is also
that of a key with one level more.  `levels` takes a label apart at all such places.  Two keys have
one text just when nothing but these places tells them apart (`str_eq_iff`).
-/

namespace Xtrax.Intent

open List Option

structure Level where
  path : Path
  label : List Char
  ordinal : Nat
  deriving DecidableEq

def digits (n : Nat) : List Char := Nat.toDigits 10 n

def Path.chars : Path → List Char
  | .primal => ['p', 'r', 'i', 'm', 'a', 'l']
  | .diff => ['d', 'i', 'f', 'f']

def Level.text (level : Level) : List Char :=
  level.path.chars ++ '/' :: (level.label ++ '#' :: digits level.ordinal)

def levelsText : List Level → List Char
  | [] => []
  | [level] => level.text
  | level :: next :: rest => level.text ++ '/' :: levelsText (next :: rest)

/-- `/primal/` or `/diff/` at the start of a text, and what follows. -/
def enters? : List Char → Option (Path × List Char)
  | '/' :: 'p' :: 'r' :: 'i' :: 'm' :: 'a' :: 'l' :: '/' :: rest => some (.primal, rest)
  | '/' :: 'd' :: 'i' :: 'f' :: 'f' :: '/' :: rest => some (.diff, rest)
  | _ => none

/-- `#<ordinal>/<path>/` at the start of a text, and what follows. -/
def boundary? : List Char → Option (Nat × Path × List Char)
  | '#' :: cs =>
    let number := cs.takeWhile Char.isDigit
    let n := Nat.ofDigitChars 10 number 0
    if digits n = number then
      (enters? (cs.dropWhile Char.isDigit)).map fun (path, rest) => (n, path, rest)
    else none
  | _ => none

/-- The first label goes on with this character. -/
def consLabel (c : Char) : List Level → List Level
  | [] => []
  | level :: rest => { level with label := c :: level.label } :: rest

/-- The levels in a label that belongs to the last of them; the first is on this path. -/
def levels (ordinal : Nat) (path : Path) : (skip : Nat) → List Char → List Level
  | _, [] => [⟨path, [], ordinal⟩]
  | skip + 1, _ :: cs => levels ordinal path skip cs
  | 0, c :: cs =>
    match boundary? (c :: cs) with
    | some (n, next, rest) =>
      ⟨path, [], n⟩ :: levels ordinal next (cs.length - rest.length) cs
    | none => consLabel c (levels ordinal path 0 cs)

namespace SiteKey

/-- The levels of a key, those in its labels told apart. -/
def refined : SiteKey → List Level
  | root path label ordinal => levels ordinal path 0 label.toList
  | child parent path label ordinal => parent.refined ++ levels ordinal path 0 label.toList

end SiteKey

/-! ### Boundaries -/

theorem isDigit_of_mem_digits {n : Nat} {c : Char} (h : c ∈ digits n) : c.isDigit = true :=
  Nat.isDigit_of_mem_toDigits (by decide) (by decide) h

theorem hash_not_mem_digits {n : Nat} : '#' ∉ digits n := fun h =>
  absurd (isDigit_of_mem_digits h) (by decide)

theorem hash_not_mem_path (path : Path) : '#' ∉ path.chars := by cases path <;> decide

theorem eq_of_enters? {cs rest : List Char} {path : Path} (h : enters? cs = some (path, rest)) :
    cs = '/' :: (path.chars ++ '/' :: rest) := by
  unfold enters? at h
  split at h
  · cases h
    rfl
  · cases h
    rfl
  · cases h

theorem enters?_chars (path : Path) (rest : List Char) :
    enters? ('/' :: (path.chars ++ '/' :: rest)) = some (path, rest) := by
  cases path <;> rfl

def boundaryText (n : Nat) (path : Path) : List Char :=
  digits n ++ '/' :: (path.chars ++ ['/'])

theorem hash_not_mem_boundaryText (n : Nat) (path : Path) : '#' ∉ boundaryText n path := by
  unfold boundaryText
  simp [hash_not_mem_digits, hash_not_mem_path]

theorem eq_of_boundary? {cs rest : List Char} {n : Nat} {path : Path}
    (h : boundary? cs = some (n, path, rest)) : cs = '#' :: (boundaryText n path ++ rest) := by
  unfold boundary? at h
  split at h
  · rename_i cs
    dsimp only at h
    split at h
    · rename_i hdigits
      obtain ⟨⟨path', rest'⟩, henters, h⟩ := map_eq_some_iff.mp h
      obtain ⟨hn, hrest⟩ := Prod.mk.inj h
      obtain ⟨rfl, rfl⟩ := Prod.mk.inj hrest
      rw [hn] at hdigits
      have hsplit := takeWhile_append_dropWhile (p := Char.isDigit) (l := cs)
      rw [eq_of_enters? henters, ← hdigits] at hsplit
      rw [← hsplit]
      simp [boundaryText]
    · cases h
  · cases h

theorem boundary?_text (n : Nat) (path : Path) (rest : List Char) :
    boundary? ('#' :: (boundaryText n path ++ rest)) = some (n, path, rest) := by
  have hslash : ('/' :: (path.chars ++ '/' :: rest)).takeWhile Char.isDigit = [] ∧
      ('/' :: (path.chars ++ '/' :: rest)).dropWhile Char.isDigit =
        '/' :: (path.chars ++ '/' :: rest) := ⟨rfl, rfl⟩
  have htext : boundaryText n path ++ rest = digits n ++ '/' :: (path.chars ++ '/' :: rest) := by
    simp [boundaryText]
  have htake : (boundaryText n path ++ rest).takeWhile Char.isDigit = digits n := by
    rw [htext, takeWhile_append_of_pos fun c => isDigit_of_mem_digits, hslash.1, append_nil]
  have hdrop : (boundaryText n path ++ rest).dropWhile Char.isDigit =
      '/' :: (path.chars ++ '/' :: rest) := by
    rw [htext, dropWhile_append_of_pos fun c => isDigit_of_mem_digits, hslash.2]
  have hnumber : Nat.ofDigitChars 10 (digits n) 0 = n := Nat.ofDigitChars_ten_toDigits
  simp only [boundary?, htake, hdrop, hnumber, if_true]
  rw [enters?_chars]
  rfl

/-- **No boundary runs over a `#`** that it does not start with. -/
theorem boundary?_append_hash {x s : List Char} (hx : x ≠ []) :
    boundary? (x ++ '#' :: s) =
      (boundary? x).map fun (n, path, rest) => (n, path, rest ++ '#' :: s) := by
  cases hfound : boundary? x with
  | some found =>
    obtain ⟨n, path, rest⟩ := found
    rw [eq_of_boundary? hfound, cons_append, append_assoc]
    exact boundary?_text ..
  | none =>
    rw [map_none, eq_none_iff_forall_ne_some]
    rintro ⟨n, path, rest⟩ h
    obtain ⟨c, x, rfl⟩ := exists_cons_of_ne_nil hx
    obtain ⟨rfl, htail⟩ := cons.inj (eq_of_boundary? h)
    rcases append_eq_append_iff.mp htail with ⟨y, hy, hs⟩ | ⟨y, hy, hs⟩
    · -- the `#` would be in the boundary
      cases y with
      | nil =>
        rw [append_nil] at hy
        have hsome : boundary? ('#' :: x) = some (n, path, []) :=
          hy ▸ append_nil (boundaryText n path) ▸ boundary?_text n path []
        exact nomatch hfound.symm.trans hsome
      | cons c y =>
        obtain ⟨rfl, -⟩ := cons.inj hs
        exact hash_not_mem_boundaryText n path (hy ▸ by simp)
    · have hsome : boundary? ('#' :: x) = some (n, path, y) :=
        hy ▸ boundary?_text n path y
      exact nomatch hfound.symm.trans hsome

/-! ### Levels -/

variable {ordinal n : Nat} {path next : Path} {cs rest : List Char}

theorem levels_cons (c : Char) :
    levels ordinal path 0 (c :: cs) =
      match boundary? (c :: cs) with
      | some (n, next, rest) => ⟨path, [], n⟩ :: levels ordinal next (cs.length - rest.length) cs
      | none => consLabel c (levels ordinal path 0 cs) := rfl

theorem levels_skip (k : Nat) : levels ordinal path k cs = levels ordinal path 0 (cs.drop k) := by
  induction cs generalizing k with
  | nil =>
    rw [drop_nil]
    cases k <;> rfl
  | cons c cs ih =>
    cases k with
    | zero => rfl
    | succ k =>
      rw [drop_succ_cons, ← ih]
      rfl

theorem levels_boundary (h : boundary? cs = some (n, next, rest)) :
    levels ordinal path 0 cs = ⟨path, [], n⟩ :: levels ordinal next 0 rest := by
  have htext := eq_of_boundary? h
  obtain ⟨c, cs, rfl⟩ : ∃ c cs', cs = c :: cs' := ⟨_, _, htext⟩
  obtain ⟨-, htail⟩ := cons.inj htext
  have hdrop : cs.drop (cs.length - rest.length) = rest := by
    rw [htail]
    simp
  rw [levels_cons, h]
  dsimp only
  rw [levels_skip, hdrop]

theorem levels_char {c : Char} (h : boundary? (c :: cs) = none) :
    levels ordinal path 0 (c :: cs) = consLabel c (levels ordinal path 0 cs) := by
  rw [levels_cons, h]

theorem length_of_boundary? (h : boundary? cs = some (n, next, rest)) :
    rest.length < cs.length := by
  rw [eq_of_boundary? h, length_cons, length_append]
  omega

theorem consLabel_ne_nil {c : Char} {l : List Level} (h : l ≠ []) : consLabel c l ≠ [] := by
  obtain ⟨level, l, rfl⟩ := exists_cons_of_ne_nil h
  exact cons_ne_nil _ _

theorem consLabel_append {c : Char} {l l' : List Level} (h : l ≠ []) :
    consLabel c (l ++ l') = consLabel c l ++ l' := by
  obtain ⟨level, l, rfl⟩ := exists_cons_of_ne_nil h
  rfl

theorem levels_ne_nil (ordinal : Nat) (path : Path) (skip : Nat) (cs : List Char) :
    levels ordinal path skip cs ≠ [] := by
  induction cs generalizing path skip with
  | nil => exact cons_ne_nil _ _
  | cons c cs ih =>
    cases skip with
    | succ skip => exact ih path skip
    | zero =>
      rw [levels_cons]
      split
      · exact cons_ne_nil _ _
      · exact consLabel_ne_nil (ih path 0)

/-- **A boundary ends the levels before it.** -/
theorem levels_append (x : List Char) :
    levels ordinal path 0 (x ++ '#' :: (boundaryText n next ++ rest)) =
      levels n path 0 x ++ levels ordinal next 0 rest := by
  induction hlength : x.length using Nat.strong_induction_on generalizing x path with
  | _ length ih =>
    cases x with
    | nil =>
      rw [nil_append, levels_boundary (boundary?_text ..)]
      rfl
    | cons c x =>
      have happend : boundary? (c :: x ++ '#' :: (boundaryText n next ++ rest)) = _ :=
        boundary?_append_hash (cons_ne_nil c x)
      cases hfound : boundary? (c :: x) with
      | none =>
        rw [hfound, map_none, cons_append] at happend
        rw [cons_append, levels_char happend, levels_char hfound,
          ih x.length (by rw [← hlength]; exact Nat.lt_succ_self _) x rfl,
          consLabel_append (levels_ne_nil _ _ _ _)]
      | some found =>
        obtain ⟨n', path', rest'⟩ := found
        rw [hfound, map_some] at happend
        rw [levels_boundary happend, levels_boundary hfound, cons_append,
          ih rest'.length (hlength ▸ length_of_boundary? hfound) rest' rfl]

/-! ### The text of a level, and of all -/

theorem levelsText_cons {level : Level} {l : List Level} (h : l ≠ []) :
    levelsText (level :: l) = level.text ++ '/' :: levelsText l := by
  obtain ⟨next, l, rfl⟩ := exists_cons_of_ne_nil h
  rfl

theorem levelsText_consLabel {c : Char} {l : List Level} {text : List Char}
    (hpath : ∀ level ∈ l.head?, level.path = path)
    (h : levelsText l = path.chars ++ '/' :: text) (hne : l ≠ []) :
    levelsText (consLabel c l) = path.chars ++ '/' :: c :: text := by
  obtain ⟨level, l, rfl⟩ := exists_cons_of_ne_nil hne
  obtain rfl := hpath level rfl
  cases l with
  | nil =>
    have htext : level.text = level.path.chars ++ '/' :: text := h
    have hlabel := append_cancel_left htext
    show level.path.chars ++ '/' :: c :: (level.label ++ '#' :: digits level.ordinal) = _
    rw [(cons.inj hlabel).2]
  | cons next l =>
    rw [levelsText_cons (cons_ne_nil _ _), Level.text, append_assoc] at h
    have hlabel := append_cancel_left h
    rw [consLabel, levelsText_cons (cons_ne_nil _ _), Level.text, append_assoc]
    rw [cons_append] at hlabel
    rw [cons_append, cons_append, cons_append, (cons.inj hlabel).2]

theorem head?_consLabel {c : Char} {l : List Level} (h : ∀ level ∈ l.head?, level.path = path) :
    ∀ level ∈ (consLabel c l).head?, level.path = path := by
  cases l with
  | nil => exact h
  | cons level l =>
    intro level' hlevel
    obtain rfl := some.inj hlevel
    exact h level rfl

theorem head?_levels (skip : Nat) :
    ∀ level ∈ (levels ordinal path skip cs).head?, level.path = path := by
  induction cs generalizing skip with
  | nil =>
    intro level hlevel
    obtain rfl := some.inj hlevel
    rfl
  | cons c cs ih =>
    cases skip with
    | succ skip => exact ih skip
    | zero =>
      rw [levels_cons]
      split
      · intro level hlevel
        obtain rfl := some.inj hlevel
        rfl
      · exact head?_consLabel (ih 0)

theorem levelsText_levels :
    levelsText (levels ordinal path 0 cs) = path.chars ++ '/' :: (cs ++ '#' :: digits ordinal) := by
  induction hlength : cs.length using Nat.strong_induction_on generalizing cs path with
  | _ length ih =>
    cases cs with
    | nil => rfl
    | cons c cs =>
      cases hfound : boundary? (c :: cs) with
      | none =>
        rw [levels_char hfound]
        exact levelsText_consLabel (head?_levels 0)
          (ih cs.length (by rw [← hlength]; exact Nat.lt_succ_self _) rfl) (levels_ne_nil _ _ _ _)
      | some found =>
        obtain ⟨n, next, rest⟩ := found
        rw [levels_boundary hfound, levelsText_cons (levels_ne_nil _ _ _ _),
          ih rest.length (hlength ▸ length_of_boundary? hfound) rfl,
          eq_of_boundary? hfound]
        simp [Level.text, boundaryText]

/-! ### Keys -/

namespace SiteKey

/-- The path of the outermost level. -/
def rootPath : SiteKey → Path
  | root path .. => path
  | child parent .. => parent.rootPath

/-- The text between the outermost path and the last ordinal. -/
def stem : SiteKey → List Char
  | root _ label _ => label.toList
  | child parent path label _ =>
    parent.stem ++ '#' :: (boundaryText parent.ordinal path ++ label.toList)

theorem toList_pathText (path : Path) : path.text.toList = path.chars := by cases path <;> rfl

theorem toList_str (key : SiteKey) :
    key.str.toList = key.rootPath.chars ++ '/' :: (key.stem ++ '#' :: digits key.ordinal) := by
  induction key with
  | root path label ordinal =>
    simp [str, rootPath, stem, SiteKey.ordinal, toList_pathText, digits]
  | child parent path label ordinal ih =>
    simp [str, rootPath, stem, SiteKey.ordinal, toList_pathText, digits, ih, boundaryText]

theorem refined_eq (key : SiteKey) : key.refined = levels key.ordinal key.rootPath 0 key.stem := by
  induction key with
  | root => rfl
  | child parent path label ordinal ih =>
    rw [refined, ih, stem, levels_append]
    rfl

theorem levelsText_refined (key : SiteKey) : levelsText key.refined = key.str.toList := by
  rw [refined_eq, levelsText_levels, toList_str]

theorem digits_inj {n m : Nat} (h : digits n = digits m) : n = m := by
  rw [← Nat.ofDigitChars_ten_toDigits (n := n), ← Nat.ofDigitChars_ten_toDigits (n := m)]
  exact congrArg (fun cs => Nat.ofDigitChars 10 cs 0) h

theorem append_hash_inj {x y : List Char} {n m : Nat}
    (h : x ++ '#' :: digits n = y ++ '#' :: digits m) : x = y ∧ n = m := by
  rcases append_eq_append_iff.mp h with ⟨z, rfl, hz⟩ | ⟨z, rfl, hz⟩
  · cases z with
    | nil => exact ⟨(append_nil _).symm, digits_inj (cons.inj hz).2⟩
    | cons c z =>
      have hmem : '#' ∈ digits n := by
        rw [(cons.inj hz).2]
        simp
      exact absurd hmem hash_not_mem_digits
  · cases z with
    | nil => exact ⟨append_nil _, digits_inj (cons.inj hz).2.symm⟩
    | cons c z =>
      have hmem : '#' ∈ digits m := by
        rw [(cons.inj hz).2]
        simp
      exact absurd hmem hash_not_mem_digits

/-- **Two keys have one text just when they have the same levels.** -/
theorem str_eq_iff {key key' : SiteKey} : key.str = key'.str ↔ key.refined = key'.refined := by
  constructor
  · intro h
    have htext := congrArg String.toList h
    rw [toList_str, toList_str] at htext
    obtain ⟨hpath, hrest⟩ : key.rootPath = key'.rootPath ∧
        key.stem ++ '#' :: digits key.ordinal = key'.stem ++ '#' :: digits key'.ordinal := by
      cases hp : key.rootPath <;> cases hp' : key'.rootPath <;>
        simp [hp, hp', Path.chars] at htext ⊢
      · exact htext
      · exact htext
    obtain ⟨hstem, hordinal⟩ := append_hash_inj hrest
    rw [refined_eq, refined_eq, hpath, hstem, hordinal]
  · intro h
    rw [← String.toList_inj, ← levelsText_refined, ← levelsText_refined, h]

end SiteKey

end Xtrax.Intent
