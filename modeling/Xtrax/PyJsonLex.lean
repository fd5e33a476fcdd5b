import Xtrax.PyJson
import Xtrax.Results

/-!
# Where the strings of a document are

A character of a text is outside of all strings, in one, or the second one of an escape, and what
is before it decides which (`lex`).  Whatever the reader reads of a text, it stops outside of a
string if it began there (`passes_scanOnce`).

An object ends at a brace outside of its strings, and each of its keys begins at a quote outside of
them (`scanObject_spec`).  Only brackets and braces outside of strings can be nested too deep
(`opens_of_recursion`).
-/

namespace Xtrax.PyJson

open Except Results List Option

/-! ### Spots -/

/-- Outside of strings, in a string, or after a backslash in a string. -/
inductive Spot
  | outside | inside | escaped
  deriving DecidableEq

/-- The characters after a backslash. -/
def escapes : List Char := ['"', '\\', '/', 'b', 'f', 'n', 'r', 't', 'u']

/-- The spot after a character. -/
def Spot.step : Spot → Char → Option Spot
  | .outside, c => if c = '"' then some .inside else if c = '\\' then none else some .outside
  | .inside, c => if c = '"' then some .outside else if c = '\\' then some .escaped else some .inside
  | .escaped, c => if c ∈ escapes then some .inside else none

/-- The spot after a text. -/
def lex (s : Spot) (text : List Char) : Option Spot := text.foldlM Spot.step s

/-- The characters of a text that are outside of strings, opening quotes included. -/
def outer : Spot → List Char → List Char
  | _, [] => []
  | s, c :: text =>
    match s.step c with
    | none => []
    | some s' => if s = .outside then c :: outer s' text else outer s' text

theorem length_outer_le (s : Spot) (text : List Char) : (outer s text).length ≤ text.length := by
  induction text generalizing s with
  | nil => exact le_rfl
  | cons c text ih =>
    unfold outer
    cases s.step c with
    | none => exact Nat.zero_le _
    | some s' =>
      have hrest := ih s'
      simp only [length_cons]
      split
      · exact Nat.succ_le_succ hrest
      · omega

/-- How many brackets and braces open outside of strings. -/
def opens (text : List Char) : Nat := (outer .outside text).countP fun c => c = '[' || c = '{'

theorem lex_append (s : Spot) (a b : List Char) : lex s (a ++ b) = (lex s a).bind (lex · b) :=
  foldlM_append

theorem lex_cons (s : Spot) (c : Char) (text : List Char) :
    lex s (c :: text) = (s.step c).bind (lex · text) := foldlM_cons

theorem outer_append {s s' : Spot} {a : List Char} (h : lex s a = some s') (b : List Char) :
    outer s (a ++ b) = outer s a ++ outer s' b := by
  induction a generalizing s with
  | nil =>
    obtain rfl := some.inj h
    rfl
  | cons c a ih =>
    rw [lex_cons] at h
    obtain ⟨s₁, hstep, h⟩ := bind_eq_some_iff.mp h
    rw [cons_append, outer, outer, hstep]
    dsimp only
    rw [ih h]
    by_cases hs : s = .outside
    · rw [if_pos hs, if_pos hs, cons_append]
    · rw [if_neg hs, if_neg hs]

/-- No quote and no backslash. -/
def Plain (c : Char) : Prop := c ≠ '"' ∧ c ≠ '\\'

instance : DecidablePred Plain := fun _ => inferInstanceAs (Decidable (_ ∧ _))

theorem step_plain {s : Spot} {c : Char} (hs : s ≠ .escaped) (hc : Plain c) : s.step c = some s := by
  cases s with
  | outside => simp [Spot.step, hc.1, hc.2]
  | inside => simp [Spot.step, hc.1, hc.2]
  | escaped => exact absurd rfl hs

theorem lex_plain {s : Spot} (hs : s ≠ .escaped) {text : List Char} (h : ∀ c ∈ text, Plain c) :
    lex s text = some s := by
  induction text with
  | nil => rfl
  | cons c text ih =>
    obtain ⟨hc, htext⟩ := forall_mem_cons.mp h
    rw [lex_cons, step_plain hs hc]
    exact ih htext

theorem outer_plain {text : List Char} (h : ∀ c ∈ text, Plain c) : outer .outside text = text := by
  induction text with
  | nil => rfl
  | cons c text ih =>
    obtain ⟨hc, htext⟩ := forall_mem_cons.mp h
    rw [outer, step_plain (by decide) hc]
    dsimp only
    rw [if_pos rfl, ih htext]

/-! ### What is read stops outside of strings -/

/-- From one text to another, all strings between them are whole. -/
def Passes (text rest : List Char) : Prop := ∃ u, text = u ++ rest ∧ lex .outside u = some .outside

section Passes

variable {text middle rest : List Char} {c : Char} {scan : Scanner PyVal} {v : PyVal}

theorem Passes.refl (text : List Char) : Passes text text := ⟨[], rfl, rfl⟩

theorem Passes.trans (h : Passes text middle) (h' : Passes middle rest) : Passes text rest := by
  obtain ⟨u, rfl, hu⟩ := h
  obtain ⟨u', rfl, hu'⟩ := h'
  refine ⟨u ++ u', by rw [append_assoc], ?_⟩
  rw [lex_append, hu]
  exact hu'

theorem passes_plain {u : List Char} (h : ∀ c ∈ u, Plain c) (rest : List Char) :
    Passes (u ++ rest) rest := ⟨u, rfl, lex_plain (by decide) h⟩

theorem Passes.cons (hc : Plain c) (h : Passes text rest) : Passes (c :: text) rest :=
  (passes_plain (u := [c]) (by simpa using hc) text).trans h

theorem Passes.tail (h : Passes text (c :: rest)) (hc : Plain c) : Passes text rest :=
  h.trans (Passes.cons hc (.refl rest))

theorem Passes.opens_le (h : Passes text rest) : opens rest ≤ opens text := by
  obtain ⟨u, rfl, hu⟩ := h
  rw [opens, opens, outer_append hu, countP_append]
  omega

theorem passes_span {p : Char → Bool} (hp : ∀ c, p c = true → Plain c) {taken : List Char}
    (h : text.span p = (taken, rest)) : Passes text rest ∧ ∀ c ∈ taken, p c = true := by
  rw [span_eq_takeWhile_dropWhile] at h
  obtain ⟨rfl, rfl⟩ := Prod.mk.inj h
  have hall : ∀ c ∈ text.takeWhile p, p c = true := fun c hc => mem_takeWhile_imp hc
  refine ⟨⟨text.takeWhile p, takeWhile_append_dropWhile.symm, ?_⟩, hall⟩
  exact lex_plain (by decide) fun c hc => hp c (hall c hc)

theorem passes_skipSpace (text : List Char) : Passes text (skipSpace text) := by
  refine ⟨text.takeWhile isSpace, takeWhile_append_dropWhile.symm, ?_⟩
  refine lex_plain (by decide) fun c hc => ?_
  have hspace := mem_takeWhile_imp hc
  constructor
  · rintro rfl
    revert hspace
    decide
  · rintro rfl
    revert hspace
    decide

/-! ### Numbers and names -/

theorem plain_digit (h : c.isDigit = true) : Plain c := by
  constructor
  · rintro rfl
    revert h
    decide
  · rintro rfl
    revert h
    decide

theorem passes_scanInteger {digits : List Char} (h : scanInteger text = some (digits, rest)) :
    Passes text rest := by
  unfold scanInteger at h
  split at h
  · cases h
    exact .cons (by decide) (.refl _)
  · cases hspan : text.span Char.isDigit with
    | mk taken after =>
      obtain ⟨hpass, -⟩ := passes_span (fun c hc => plain_digit hc) hspan
      rw [hspan] at h
      cases taken with
      | nil => cases h
      | cons c taken =>
        obtain ⟨-, rfl⟩ := Prod.mk.inj (some.inj h)
        exact hpass

theorem passes_scanFraction (text : List Char) : Passes text (scanFraction text).2 := by
  unfold scanFraction
  split
  next text =>
    cases hspan : text.span Char.isDigit with
    | mk taken after =>
      obtain ⟨hpass, -⟩ := passes_span (fun c hc => plain_digit hc) hspan
      cases taken with
      | nil => exact .refl _
      | cons c taken => exact .cons (by decide) hpass
  next => exact .refl _

theorem passes_scanExponentDigits {negative : Bool} {power : Int}
    (h : scanExponentDigits negative text = some (power, rest)) : Passes text rest := by
  unfold scanExponentDigits at h
  cases hspan : text.span Char.isDigit with
  | mk taken after =>
    obtain ⟨hpass, -⟩ := passes_span (fun c hc => plain_digit hc) hspan
    rw [hspan] at h
    cases taken with
    | nil => cases h
    | cons c taken =>
      obtain ⟨-, rfl⟩ := Prod.mk.inj (some.inj h)
      exact hpass

theorem passes_scanExponent {power : Int} (h : scanExponent text = some (power, rest)) :
    Passes text rest := by
  cases text with
  | nil => cases h
  | cons e text =>
    unfold scanExponent at h
    dsimp only at h
    by_cases he : e = 'e' ∨ e = 'E'
    · rw [if_pos he] at h
      have hplain : Plain e := by rcases he with rfl | rfl <;> decide
      refine .cons hplain ?_
      split at h
      · exact .cons (by decide) (passes_scanExponentDigits h)
      · exact .cons (by decide) (passes_scanExponentDigits h)
      · exact passes_scanExponentDigits h
    · rw [if_neg he] at h
      cases h

theorem passes_scanRest {negative : Bool} {digits : List Char}
    (h : scanRest negative digits text = .ok (v, rest)) : Passes text rest := by
  have hfraction := passes_scanFraction text
  unfold scanRest at h
  cases hscan : scanFraction text with
  | mk fraction after =>
    rw [hscan] at h hfraction
    dsimp only at h hfraction
    cases hexponent : scanExponent after with
    | none =>
      rw [hexponent] at h
      cases fraction with
      | nil =>
        dsimp only at h
        split at h
        · cases h
        · obtain ⟨-, rfl⟩ := Prod.mk.inj (ok.inj h)
          exact hfraction
      | cons d fraction =>
        obtain ⟨-, rfl⟩ := Prod.mk.inj (ok.inj h)
        exact hfraction
    | some found =>
      rw [hexponent] at h
      have hpass := hfraction.trans (passes_scanExponent hexponent)
      cases fraction with
      | nil =>
        obtain ⟨-, rfl⟩ := Prod.mk.inj (ok.inj h)
        exact hpass
      | cons d fraction =>
        obtain ⟨-, rfl⟩ := Prod.mk.inj (ok.inj h)
        exact hpass

theorem passes_scanNumber (h : scanNumber text = .ok (v, rest)) : Passes text rest := by
  unfold scanNumber at h
  split at h
  next text =>
    cases hscan : scanInteger text with
    | none =>
      rw [hscan] at h
      cases h
    | some found =>
      rw [hscan] at h
      exact .cons (by decide) ((passes_scanInteger hscan).trans (passes_scanRest h))
  next =>
    cases hscan : scanInteger text with
    | none =>
      rw [hscan] at h
      cases h
    | some found =>
      rw [hscan] at h
      exact (passes_scanInteger hscan).trans (passes_scanRest h)

theorem passes_scanName (h : scanName text = some (v, rest)) : Passes text rest := by
  unfold scanName at h
  split at h
  case h_7 => cases h
  all_goals
    obtain ⟨-, rfl⟩ := Prod.mk.inj (some.inj h)
    repeat
      refine .cons (by decide) ?_
    exact .refl _

theorem passes_scanPlain (h : scanPlain text = .ok (v, rest)) : Passes text rest := by
  unfold scanPlain at h
  cases hname : scanName text with
  | none =>
    rw [hname] at h
    exact passes_scanNumber h
  | some found =>
    rw [hname] at h
    obtain ⟨-, rfl⟩ := Prod.mk.inj (ok.inj h)
    exact passes_scanName hname

/-! ### Strings -/

theorem plain_hex {n : Nat} (h : hexValue c = some n) : Plain c := by
  constructor
  · rintro rfl
    cases h
  · rintro rfl
    cases h

theorem mem_escapes {n : Nat} (h : unescape c = some n) : c ∈ escapes := by
  unfold unescape at h
  repeat' split at h
  all_goals first | (subst c; decide) | cases h

theorem lex_escape {e : Char} (he : e ∈ escapes) (text : List Char) :
    lex .inside ('\\' :: e :: text) = lex .inside text := by
  rw [lex_cons]
  show lex .escaped (e :: text) = lex .inside text
  rw [lex_cons, Spot.step, if_pos he]
  rfl

theorem lex_scanUnits {us : List Nat} (h : scanUnits text = some (us, rest)) :
    ∃ u, text = u ++ '"' :: rest ∧ lex .inside u = some .inside := by
  induction text using scanUnits.induct generalizing us with
  | case1 text =>
    rw [scanUnits] at h
    obtain ⟨-, rfl⟩ := Prod.mk.inj (Option.some.inj h)
    exact ⟨[], rfl, rfl⟩
  | case2 a b c d text ih =>
    rw [scanUnits, consUnit] at h
    obtain ⟨n, hhex, h⟩ := Option.bind_eq_some_iff.mp h
    obtain ⟨⟨us', rest'⟩, hscan, h⟩ := Option.bind_eq_some_iff.mp h
    obtain ⟨-, rfl⟩ := Prod.mk.inj (Option.some.inj h)
    obtain ⟨u, rfl, hu⟩ := ih hscan
    obtain ⟨_, ha, hhex⟩ := Option.bind_eq_some_iff.mp hhex
    obtain ⟨_, hb, hhex⟩ := Option.bind_eq_some_iff.mp hhex
    obtain ⟨_, hc, hhex⟩ := Option.bind_eq_some_iff.mp hhex
    obtain ⟨_, hd, -⟩ := Option.bind_eq_some_iff.mp hhex
    refine ⟨'\\' :: 'u' :: a :: b :: c :: d :: u, rfl, ?_⟩
    have hdigits : ∀ x ∈ [a, b, c, d], Plain x := by
      simp [plain_hex ha, plain_hex hb, plain_hex hc, plain_hex hd]
    rw [lex_escape (by decide)]
    show lex .inside ([a, b, c, d] ++ u) = some .inside
    rw [lex_append, lex_plain (by decide) hdigits]
    exact hu
  | case3 e text hnot ih =>
    rw [scanUnits] at h
    · obtain ⟨n, hescape, h⟩ := Option.bind_eq_some_iff.mp h
      obtain ⟨⟨us', rest'⟩, hscan, h⟩ := Option.bind_eq_some_iff.mp h
      obtain ⟨-, rfl⟩ := Prod.mk.inj (Option.some.inj h)
      obtain ⟨u, rfl, hu⟩ := ih hscan
      refine ⟨'\\' :: e :: u, rfl, ?_⟩
      rw [lex_escape (mem_escapes hescape)]
      exact hu
    · exact hnot
  | case4 c text hquote hhex hescape hbad =>
    rw [scanUnits.eq_4 c text hquote hhex hescape, if_pos hbad] at h
    cases h
  | case5 c text hquote hhex hescape hgood ih =>
    rw [scanUnits.eq_4 c text hquote hhex hescape, if_neg hgood] at h
    obtain ⟨⟨us', rest'⟩, hscan, h⟩ := Option.bind_eq_some_iff.mp h
    obtain ⟨-, rfl⟩ := Prod.mk.inj (Option.some.inj h)
    obtain ⟨u, rfl, hu⟩ := ih hscan
    refine ⟨c :: u, rfl, ?_⟩
    rw [lex_cons, step_plain (by decide) ⟨hquote, fun hc => hgood (.inl hc)⟩]
    exact hu
  | case6 => cases h

theorem lex_scanString {s : PyStr} (h : scanString text = .ok (s, rest)) :
    ∃ u, text = u ++ '"' :: rest ∧ lex .inside u = some .inside := by
  unfold scanString at h
  cases hscan : scanUnits text with
  | none =>
    rw [hscan] at h
    cases h
  | some found =>
    rw [hscan] at h
    obtain ⟨-, rfl⟩ := Prod.mk.inj (Except.ok.inj h)
    exact lex_scanUnits hscan

theorem passes_scanString {s : PyStr} (h : scanString text = .ok (s, rest)) :
    Passes ('"' :: text) rest := by
  obtain ⟨u, rfl, hu⟩ := lex_scanString h
  refine ⟨'"' :: (u ++ ['"']), by simp, ?_⟩
  rw [lex_cons]
  show lex .inside (u ++ ['"']) = some .outside
  rw [lex_append, hu]
  rfl

/-! ### Values -/

/-- What a reader of values reads, it reads up to a spot outside of strings. -/
def Stops (scan : Scanner PyVal) : Prop :=
  ∀ {text v rest}, scan text = .ok (v, rest) → Passes text rest

theorem passes_scanItems (hscan : Stops scan) :
    ∀ {fuel : Nat} {text : List Char} {vs : List PyVal}, scanItems scan fuel text = .ok (vs, rest) →
      Passes text rest := by
  intro fuel
  induction fuel with
  | zero =>
    intro text vs h
    cases h
  | succ fuel ih =>
    intro text vs h
    obtain ⟨⟨v, after⟩, hv, h⟩ := bind_eq_ok.mp h
    have hpass := (hscan hv).trans (passes_skipSpace after)
    dsimp only at h
    split at h
    next after' heq =>
      obtain ⟨-, rfl⟩ := Prod.mk.inj (ok.inj h)
      rw [heq] at hpass
      exact hpass.tail (by decide)
    next after' heq =>
      obtain ⟨⟨vs', rest'⟩, hvs, h⟩ := bind_eq_ok.mp h
      obtain ⟨-, rfl⟩ := Prod.mk.inj (ok.inj h)
      rw [heq] at hpass
      exact (hpass.tail (by decide)).trans ((passes_skipSpace after').trans (ih hvs))
    next => cases h

theorem scanMember_spec (hscan : Stops scan) {m : PyStr × PyVal}
    (h : scanMember scan text = .ok (m, rest)) :
    Passes text rest ∧ ∃ b after, text = '"' :: b ∧ scanString b = .ok (m.1, after) := by
  unfold scanMember at h
  split at h
  next text =>
    obtain ⟨⟨key, after⟩, hkey, h⟩ := Results.bind_eq_ok.mp h
    have hpass := (passes_scanString hkey).trans (passes_skipSpace after)
    dsimp only at h
    split at h
    next after' heq =>
      obtain ⟨⟨v, rest'⟩, hv, h⟩ := Results.bind_eq_ok.mp h
      cases h
      rw [heq] at hpass
      refine ⟨(hpass.tail (by decide)).trans ((passes_skipSpace after').trans (hscan hv)), ?_⟩
      exact ⟨text, after, rfl, hkey⟩
    next => cases h
  next => cases h

/-- A key that is read between two texts. -/
def KeyRead (text : List Char) (key : PyStr) : Prop :=
  ∃ b after, Passes text ('"' :: b) ∧ scanString b = .ok (key, after)

theorem KeyRead.of_passes {middle : List Char} {key : PyStr} (hpass : Passes text middle)
    (h : KeyRead middle key) : KeyRead text key := by
  obtain ⟨b, after, hb, hkey⟩ := h
  exact ⟨b, after, hpass.trans hb, hkey⟩

theorem scanMembers_spec (hscan : Stops scan) :
    ∀ {fuel : Nat} {text : List Char} {ms : List (PyStr × PyVal)},
      scanMembers scan fuel text = .ok (ms, rest) →
      Passes text ('}' :: rest) ∧ ∀ m ∈ ms, KeyRead text m.1 := by
  intro fuel
  induction fuel with
  | zero =>
    intro text ms h
    cases h
  | succ fuel ih =>
    intro text ms h
    obtain ⟨⟨m, after⟩, hm, h⟩ := bind_eq_ok.mp h
    obtain ⟨hpass, b, after', htext, hkey⟩ := scanMember_spec hscan hm
    have hpass := hpass.trans (passes_skipSpace after)
    have hfirst : KeyRead text m.1 := ⟨b, after', by rw [htext]; exact .refl _, hkey⟩
    dsimp only at h
    split at h
    next after' heq =>
      cases h
      rw [heq] at hpass
      exact ⟨hpass, by simpa using hfirst⟩
    next after' heq =>
      obtain ⟨⟨ms', rest'⟩, hms, h⟩ := bind_eq_ok.mp h
      cases h
      rw [heq] at hpass
      have hnext := (hpass.tail (by decide)).trans (passes_skipSpace after')
      obtain ⟨hrest, hkeys⟩ := ih hms
      refine ⟨hnext.trans hrest, forall_mem_cons.mpr ⟨hfirst, fun m' hm' => ?_⟩⟩
      exact .of_passes hnext (hkeys m' hm')
    next => cases h

theorem scanObject_spec (hscan : Stops scan) (h : scanObject scan text = .ok (v, rest)) :
    Passes text ('}' :: rest) ∧ ∃ entries, v = .dict entries ∧ ∀ e ∈ entries, KeyRead text e.1 := by
  have hspace := passes_skipSpace text
  unfold scanObject at h
  split at h
  next after heq =>
    cases h
    rw [heq] at hspace
    exact ⟨hspace, [], rfl, nofun⟩
  next =>
    obtain ⟨⟨ms, rest'⟩, hms, h⟩ := bind_eq_ok.mp h
    cases h
    obtain ⟨hpass, hkeys⟩ := scanMembers_spec hscan hms
    refine ⟨hspace.trans hpass, _, rfl, fun e he => ?_⟩
    rcases Dict.mem_update he with hnew | hold
    · exact .of_passes hspace (hkeys e hnew)
    · cases hold

theorem passes_scanArray (hscan : Stops scan) (h : scanArray scan text = .ok (v, rest)) :
    Passes text rest := by
  have hspace := passes_skipSpace text
  unfold scanArray at h
  split at h
  next after heq =>
    obtain ⟨-, rfl⟩ := Prod.mk.inj (ok.inj h)
    rw [heq] at hspace
    exact hspace.tail (by decide)
  next =>
    obtain ⟨⟨vs, rest'⟩, hvs, h⟩ := bind_eq_ok.mp h
    obtain ⟨-, rfl⟩ := Prod.mk.inj (ok.inj h)
    exact hspace.trans (passes_scanItems hscan hvs)

/-- **The reader stops outside of strings.** -/
theorem passes_scanOnce : ∀ depth, Stops (scanOnce depth) := by
  intro depth
  induction depth with
  | zero =>
    intro text v rest h
    unfold scanOnce at h
    split at h
    · cases h
    · cases h
    · next heq => cases heq
    · next heq => cases heq
    · obtain ⟨⟨s, rest'⟩, hs, h⟩ := bind_eq_ok.mp h
      obtain ⟨-, rfl⟩ := Prod.mk.inj (ok.inj h)
      exact passes_scanString hs
    · exact passes_scanPlain h
  | succ depth ih =>
    intro text v rest h
    unfold scanOnce at h
    split at h
    · next heq => cases heq
    · next heq => cases heq
    · next heq =>
      obtain rfl := Nat.succ.inj heq
      exact .cons (by decide) ((scanObject_spec ih h).1.tail (by decide))
    · next heq =>
      obtain rfl := Nat.succ.inj heq
      exact .cons (by decide) (passes_scanArray ih h)
    · obtain ⟨⟨s, rest'⟩, hs, h⟩ := bind_eq_ok.mp h
      obtain ⟨-, rfl⟩ := Prod.mk.inj (ok.inj h)
      exact passes_scanString hs
    · exact passes_scanPlain h

end Passes

/-! ### Nesting -/

section Nesting

variable {text : List Char} {scan : Scanner PyVal}

/-- The nesting is too deep at one of the values in a text. -/
def Deep (scan : Scanner PyVal) (text : List Char) : Prop :=
  ∃ after, Passes text after ∧ scan after = .error .recursion

theorem Deep.of_passes {middle : List Char} (hpass : Passes text middle) (h : Deep scan middle) :
    Deep scan text := by
  obtain ⟨after, hafter, hscan⟩ := h
  exact ⟨after, hpass.trans hafter, hscan⟩

theorem scanString_not_deep : scanString text ≠ .error .recursion := by
  unfold scanString
  split
  · exact nofun
  · exact nofun

theorem scanPlain_not_deep : scanPlain text ≠ .error .recursion := by
  have hrest : ∀ negative digits text, scanRest negative digits text ≠ .error .recursion := by
    intro negative digits text
    unfold scanRest
    dsimp only
    split
    · split
      · exact nofun
      · exact nofun
    · exact nofun
  unfold scanPlain
  split
  · exact nofun
  · unfold scanNumber
    split
    · split
      · exact hrest _ _ _
      · exact nofun
    · split
      · exact hrest _ _ _
      · exact nofun

theorem deep_of_scanItems (hscan : Stops scan) :
    ∀ {fuel : Nat} {text : List Char}, scanItems scan fuel text = .error .recursion →
      Deep scan text := by
  intro fuel
  induction fuel with
  | zero =>
    intro text h
    cases h
  | succ fuel ih =>
    intro text h
    rcases bind_eq_error h with h | ⟨⟨v, after⟩, hv, h⟩
    · exact ⟨text, .refl text, h⟩
    · have hpass := (hscan hv).trans (passes_skipSpace after)
      dsimp only at h
      split at h
      next => cases h
      next after' heq =>
        rw [heq] at hpass
        rcases bind_eq_error h with h | ⟨a, -, h⟩
        · exact .of_passes ((hpass.tail (by decide)).trans (passes_skipSpace after')) (ih h)
        · cases h
      next => cases h

theorem deep_of_scanMember (h : scanMember scan text = .error .recursion) : Deep scan text := by
  unfold scanMember at h
  split at h
  next text =>
    rcases bind_eq_error h with h | ⟨⟨key, after⟩, hkey, h⟩
    · exact absurd h scanString_not_deep
    · have hpass := (passes_scanString hkey).trans (passes_skipSpace after)
      dsimp only at h
      split at h
      next after' heq =>
        rw [heq] at hpass
        rcases bind_eq_error h with h | ⟨a, -, h⟩
        · exact ⟨_, (hpass.tail (by decide)).trans (passes_skipSpace after'), h⟩
        · cases h
      next => cases h
  next => cases h

theorem deep_of_scanMembers (hscan : Stops scan) :
    ∀ {fuel : Nat} {text : List Char}, scanMembers scan fuel text = .error .recursion →
      Deep scan text := by
  intro fuel
  induction fuel with
  | zero =>
    intro text h
    cases h
  | succ fuel ih =>
    intro text h
    rcases bind_eq_error h with h | ⟨⟨m, after⟩, hm, h⟩
    · exact deep_of_scanMember h
    · have hpass := (scanMember_spec hscan hm).1.trans (passes_skipSpace after)
      dsimp only at h
      split at h
      next => cases h
      next after' heq =>
        rw [heq] at hpass
        rcases bind_eq_error h with h | ⟨a, -, h⟩
        · exact .of_passes ((hpass.tail (by decide)).trans (passes_skipSpace after')) (ih h)
        · cases h
      next => cases h

theorem deep_of_scanObject (hscan : Stops scan) (h : scanObject scan text = .error .recursion) :
    Deep scan text := by
  unfold scanObject at h
  split at h
  next => cases h
  next =>
    rcases bind_eq_error h with h | ⟨a, -, h⟩
    · exact .of_passes (passes_skipSpace text) (deep_of_scanMembers hscan h)
    · cases h

theorem deep_of_scanArray (hscan : Stops scan) (h : scanArray scan text = .error .recursion) :
    Deep scan text := by
  unfold scanArray at h
  split at h
  next => cases h
  next =>
    rcases bind_eq_error h with h | ⟨a, -, h⟩
    · exact .of_passes (passes_skipSpace text) (deep_of_scanItems hscan h)
    · cases h

theorem opens_open {c : Char} (hc : c = '[' ∨ c = '{') (text : List Char) :
    opens (c :: text) = opens text + 1 := by
  have hplain : Plain c := by rcases hc with rfl | rfl <;> decide
  rw [opens, outer, step_plain (by decide) hplain]
  dsimp only
  rw [if_pos rfl, countP_cons, opens]
  simp [hc]

/-- **The nesting is too deep** only for as many brackets and braces as open outside of strings. -/
theorem opens_of_recursion : ∀ {depth : Nat} {text : List Char},
    scanOnce depth text = .error .recursion → depth < opens text := by
  intro depth
  induction depth with
  | zero =>
    intro text h
    unfold scanOnce at h
    split at h
    · rw [opens_open (.inr rfl)]
      omega
    · rw [opens_open (.inl rfl)]
      omega
    · next heq => cases heq
    · next heq => cases heq
    · rcases bind_eq_error h with h | ⟨a, -, h⟩
      · exact absurd h scanString_not_deep
      · cases h
    · exact absurd h scanPlain_not_deep
  | succ depth ih =>
    intro text h
    have hdeep : ∀ {c text}, c = '[' ∨ c = '{' → Deep (scanOnce depth) text →
        depth + 1 < opens (c :: text) := by
      rintro c text hc ⟨after, hpass, hscan⟩
      have hless := ih hscan
      have hle := hpass.opens_le
      rw [opens_open hc]
      omega
    unfold scanOnce at h
    split at h
    · next heq => cases heq
    · next heq => cases heq
    · next heq =>
      obtain rfl := Nat.succ.inj heq
      exact hdeep (.inr rfl) (deep_of_scanObject (passes_scanOnce _) h)
    · next heq =>
      obtain rfl := Nat.succ.inj heq
      exact hdeep (.inl rfl) (deep_of_scanArray (passes_scanOnce _) h)
    · rcases bind_eq_error h with h | ⟨a, -, h⟩
      · exact absurd h scanString_not_deep
      · cases h
    · exact absurd h scanPlain_not_deep

end Nesting

end Xtrax.PyJson
