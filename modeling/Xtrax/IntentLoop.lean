import Mathlib

/-!
# The three forms of a static loop

A static loop runs a step `length` times over a carry and the rows of stacked inputs, and stacks
what the steps put out.  It is lowered in three ways: a scan (`scan`), a scan that writes each
output into a carried buffer of zeros (`scanCollect`), and a while loop that does the same, led
by a 32-bit index (`whileCollect`).

A pytree is a structure and its leaves.  A read or a write at an index is clamped to the rows
there are.  The three forms agree for every step, carry, inputs and length below `2 ^ 31`; from
there on the index is less than the length for ever (`loop_forms_agree_iff`).
-/

namespace Xtrax.IntentLoop

open List

/-! ### Pytrees of arrays -/

/-- A pytree: a structure and its leaves. -/
structure Pytree (Treedef α : Type) where
  treedef : Treedef
  leaves : List α

def Pytree.map {Treedef α β : Type} (f : α → β) (t : Pytree Treedef α) : Pytree Treedef β :=
  ⟨t.treedef, t.leaves.map f⟩

/-- `tree_map` over two trees of one structure. -/
def Pytree.map₂ {Treedef α β γ : Type} (f : α → β → γ) (t : Pytree Treedef α)
    (u : Pytree Treedef β) : Pytree Treedef γ :=
  ⟨t.treedef, t.leaves.zipWith f u.leaves⟩

/-- Arrays with their shapes and dtypes. -/
structure Arrays where
  Array : Type
  Spec : Type
  spec : Array → Spec
  zeros : Spec → Array

variable {A : Arrays} {Treedef : Type}

/-- An array with a leading axis: what its rows are like, and the rows. -/
structure Stacked (A : Arrays) where
  rowSpec : A.Spec
  rows : List A.Array

namespace Stacked

/-- An index of the leading axis, clamped. -/
def clamp (a : Stacked A) (index : Int) : Nat := min index.toNat (a.rows.length - 1)

/-- `leaf[i]`. -/
def row (a : Stacked A) (i : Nat) : A.Array := a.rows.getD i (A.zeros a.rowSpec)

/-- `jax.lax.dynamic_index_in_dim(leaf, index, axis=0, keepdims=False)`. -/
def dynamicIndex (a : Stacked A) (index : Int) : A.Array := a.row (a.clamp index)

/-- `jax.lax.dynamic_update_index_in_dim(buf, val, index, 0)`. -/
def dynamicUpdateIndex (a : Stacked A) (val : A.Array) (index : Int) : Stacked A :=
  { a with rows := a.rows.set (a.clamp index) val }

def exampleSlice (a : Stacked A) : A.Array :=
  if a.rows.length = 0 then A.zeros a.rowSpec else a.row 0

end Stacked

/-- Stacked inputs of a loop, or none. -/
abbrev Inputs (A : Arrays) (Treedef : Type) : Type := Option (Pytree Treedef (Stacked A))

def exampleX (xs : Inputs A Treedef) : Option (Pytree Treedef A.Array) :=
  xs.map (·.map Stacked.exampleSlice)

def indexXs (xs : Inputs A Treedef) (index : Int) : Option (Pytree Treedef A.Array) :=
  xs.map (·.map (·.dynamicIndex index))

/-- The inputs of a scan's iteration. -/
def rowXs (xs : Inputs A Treedef) (i : Nat) : Option (Pytree Treedef A.Array) :=
  xs.map (·.map (·.row i))

/-! ### Steps -/

/-- A step, traced for one shape of the carry and of the inputs: the outputs have one shape. -/
structure Step (A : Arrays) (Treedef Consts Carry : Type) where
  run : Consts → Carry → Option (Pytree Treedef A.Array) → Carry × Pytree Treedef A.Array
  spec_run : ∀ consts carry x carry' x',
    (run consts carry x).2.map A.spec = (run consts carry' x').2.map A.spec

section Forms

variable {Consts Carry : Type} (step : Step A Treedef Consts Carry) (consts : Consts)
variable (init : Carry) (xs : Inputs A Treedef) (length : Nat)

/-- `jax.eval_shape` of a step's output. -/
def evalShape : Pytree Treedef A.Spec := (step.run consts init (exampleX xs)).2.map A.spec

def allocateYs (ySpec : Pytree Treedef A.Spec) : Pytree Treedef (Stacked A) :=
  ySpec.map fun spec => ⟨spec, List.replicate length (A.zeros spec)⟩

def ysBuffer : Pytree Treedef (Stacked A) := allocateYs length (evalShape step consts init xs)

def writeYs (ys : Pytree Treedef (Stacked A)) (y : Pytree Treedef A.Array) (index : Int) :
    Pytree Treedef (Stacked A) :=
  ys.map₂ (fun buf val => buf.dynamicUpdateIndex val index) y

/-- The iterations of `jax.lax.scan`: the final carry and the output of each. -/
def scanRows {C Y : Type} (body : C → Option (Pytree Treedef A.Array) → C × Y) :
    List Nat → C → C × List Y
  | [], carry => (carry, [])
  | i :: is, carry =>
    let (next, y) := body carry (rowXs xs i)
    let (final, ys) := scanRows body is next
    (final, y :: ys)

/-- The outputs of all iterations, stacked leaf by leaf. -/
def stackLeaves : List A.Spec → List (List A.Array) → List (Stacked A)
  | [], _ => []
  | spec :: specs, ys =>
    ⟨spec, ys.map fun y => y.headD (A.zeros spec)⟩ :: stackLeaves specs (ys.map List.tail)

def stack (ySpec : Pytree Treedef A.Spec) (ys : List (Pytree Treedef A.Array)) :
    Pytree Treedef (Stacked A) :=
  ⟨ySpec.treedef, stackLeaves ySpec.leaves (ys.map (·.leaves))⟩

def scan : Carry × Pytree Treedef (Stacked A) :=
  let (carry, ys) := scanRows xs (step.run consts) (List.range length) init
  (carry, stack (evalShape step consts init xs) ys)

/-- A 32-bit index. -/
abbrev Index : Type := BitVec 32

/-- One iteration with a buffer, on the inputs `x`. -/
def collectBody (state : Index × Carry × Pytree Treedef (Stacked A))
    (x : Option (Pytree Treedef A.Array)) : Index × Carry × Pytree Treedef (Stacked A) :=
  let (index, carry, ys) := state
  let (carry2, y) := step.run consts carry x
  (index + 1, carry2, writeYs ys y index.toInt)

def scanCollect : Carry × Pytree Treedef (Stacked A) :=
  let ys0 := ysBuffer step consts init xs length
  if length = 0 then (init, ys0)
  else
    let ((_, carry, ys), _) := scanRows xs (fun state x => (collectBody step consts state x, ()))
      (List.range length) (0, init, ys0)
    (carry, ys)

/-- `jax.lax.while_loop`, with at most so many iterations. -/
def whileLoop {S : Type} (cond : S → Bool) (body : S → S) : Nat → S → Option S
  | 0, _ => none
  | fuel + 1, s => if cond s then whileLoop cond body fuel (body s) else some s

/-- `_while_collect`, with at most so many iterations. -/
def whileCollect (fuel : Nat) : Option (Carry × Pytree Treedef (Stacked A)) :=
  let ys0 := ysBuffer step consts init xs length
  if length = 0 then some (init, ys0)
  else
    (whileLoop (fun state => state.1.toInt < (length : Int))
      (fun state => collectBody step consts state (indexXs xs state.1.toInt)) fuel
      ((0 : Index), init, ys0)).map Prod.snd

end Forms

/-- `_static_length`: the trip count, unless the inputs and the length disagree. -/
def staticLength (length : Option Nat) (xs : Inputs A Treedef) : Option Nat :=
  match xs with
  | none => length
  | some xs =>
    let sizes := xs.leaves.map (·.rows.length)
    match length with
    | some length => if sizes.any (· ≠ length) then none else some length
    | none =>
      match sizes with
      | [] => none
      | size :: rest => if rest.any (· ≠ size) then none else some size

/-! ### Buffers -/

/-- The buffers of `n` rows after some outputs were written. -/
def bufferLeaves (n : Nat) : List A.Spec → List (List A.Array) → List (Stacked A)
  | [], _ => []
  | spec :: specs, ys =>
    ⟨spec, ys.map (fun y => y.headD (A.zeros spec)) ++
      List.replicate (n - ys.length) (A.zeros spec)⟩ ::
      bufferLeaves n specs (ys.map List.tail)

theorem bufferLeaves_nil (n : Nat) (specs : List A.Spec) :
    bufferLeaves n specs [] = specs.map fun spec => ⟨spec, replicate n (A.zeros spec)⟩ := by
  induction specs with
  | nil => rfl
  | cons spec specs ih =>
    rw [bufferLeaves, map_nil, map_nil, ih]
    rfl

theorem bufferLeaves_full {n : Nat} (specs : List A.Spec) :
    ∀ {ys : List (List A.Array)}, ys.length = n → bufferLeaves n specs ys = stackLeaves specs ys := by
  induction specs with
  | nil => exact fun _ => rfl
  | cons spec specs ih =>
    intro ys hys
    rw [bufferLeaves, stackLeaves, hys, Nat.sub_self, replicate_zero, append_nil,
      ih (by rw [length_map, hys])]

theorem writeLeaves_bufferLeaves {n : Nat} (specs : List A.Spec) : ∀ {ys : List (List A.Array)}
    {y : List A.Array}, ys.length < n → y.length = specs.length →
    zipWith (fun buf val => buf.dynamicUpdateIndex val ys.length) (bufferLeaves n specs ys) y =
      bufferLeaves n specs (ys ++ [y]) := by
  induction specs with
  | nil =>
    intro ys y _ hy
    obtain rfl := length_eq_zero_iff.mp hy
    rfl
  | cons spec specs ih =>
    intro ys y hys hy
    cases y with
    | nil => exact absurd hy (by simp)
    | cons val vals =>
      have hshort : (ys.map tail).length < n := by rwa [length_map]
      have hvals : vals.length = specs.length := by simpa using hy
      have hrest := ih hshort hvals
      rw [length_map] at hrest
      have htails : ys.map tail ++ [vals] = (ys ++ [val :: vals]).map tail := by simp
      rw [bufferLeaves, bufferLeaves, zipWith_cons_cons, hrest, htails]
      congr 1
      -- the row written is the first one that is still zero
      obtain ⟨m, hm⟩ : ∃ m, n - ys.length = m + 1 := ⟨n - ys.length - 1, by omega⟩
      have hclamp : min ys.length (ys.length + (m + 1) - 1) = ys.length := by omega
      simp only [Stacked.dynamicUpdateIndex, Stacked.clamp, hm, length_append, length_map,
        length_replicate, Int.toNat_natCast, hclamp]
      rw [set_append_right _ _ (Nat.le_of_eq (length_map _)), length_map, Nat.sub_self,
        replicate_succ, set_cons_zero]
      have hm' : n - (ys.length + 1) = m := by omega
      simp [hm']

/-! ### Iterations -/

section Forms

variable {Consts Carry : Type} {step : Step A Treedef Consts Carry} {consts : Consts}
variable {init : Carry} {xs : Inputs A Treedef} {length : Nat}

theorem scanRows_concat {C Y : Type} (body : C → Option (Pytree Treedef A.Array) → C × Y)
    (i : Nat) : ∀ (is : List Nat) (carry : C),
    scanRows xs body (is ++ [i]) carry =
      ((body (scanRows xs body is carry).1 (rowXs xs i)).1,
        (scanRows xs body is carry).2 ++ [(body (scanRows xs body is carry).1 (rowXs xs i)).2])
  | [], carry => rfl
  | j :: is, carry => by simp only [cons_append, scanRows, scanRows_concat body i is]

theorem length_scanRows {C Y : Type} (body : C → Option (Pytree Treedef A.Array) → C × Y) :
    ∀ (is : List Nat) (carry : C), (scanRows xs body is carry).2.length = is.length
  | [], _ => rfl
  | i :: is, carry => by simp only [scanRows, length_cons, length_scanRows body is]

variable (step consts init xs length)

/-- The state of the buffered forms after `k` iterations. -/
def collected (k : Nat) : Index × Carry × Pytree Treedef (Stacked A) :=
  let (carry, ys) := scanRows xs (step.run consts) (List.range k) init
  let ySpec := evalShape step consts init xs
  (BitVec.ofNat 32 k, carry, ⟨ySpec.treedef, bufferLeaves length ySpec.leaves (ys.map (·.leaves))⟩)

variable {step consts init xs length}

theorem collected_zero :
    collected step consts init xs length 0 = (0, init, ysBuffer step consts init xs length) := by
  simp only [collected, range_zero, scanRows, map_nil, bufferLeaves_nil]
  rfl

theorem collected_length :
    (collected step consts init xs length length).2 = scan step consts init xs length := by
  simp only [collected, scan, stack]
  rw [bufferLeaves_full _ (by rw [length_map, length_scanRows, length_range])]

/-- **One iteration**, with the inputs of its row. -/
theorem collectBody_collected {k : Nat} (hk : k < length) (hindex : k < 2 ^ 31) :
    collectBody step consts (collected step consts init xs length k) (rowXs xs k) =
      collected step consts init xs length (k + 1) := by
  have hint : (BitVec.ofNat 32 k).toInt = (k : Int) := by
    rw [BitVec.toInt_eq_toNat_of_lt] <;> simp <;> omega
  have hnext : BitVec.ofNat 32 k + 1 = BitVec.ofNat 32 (k + 1) := (BitVec.ofNat_add k 1).symm
  simp only [collectBody, collected, range_succ, scanRows_concat, hint, hnext]
  generalize hrun : scanRows xs (step.run consts) (range k) init = r
  obtain ⟨carry, ys⟩ := r
  have hys : ys.length = k := by
    have hcount : (scanRows xs (step.run consts) (range k) init).2.length =
        (range k).length := length_scanRows _ _ _
    rwa [hrun, length_range] at hcount
  have hspec := step.spec_run consts carry (rowXs xs k) init (exampleX xs)
  have hleaves : (step.run consts carry (rowXs xs k)).2.leaves.length =
      (evalShape step consts init xs).leaves.length := by
    have := congrArg (fun t => t.leaves.length) hspec
    simpa [Pytree.map, evalShape] using this
  have hshort : (ys.map (·.leaves)).length < length := by rwa [length_map, hys]
  have hwrite := writeLeaves_bufferLeaves _ hshort hleaves
  rw [length_map, hys] at hwrite
  simp only [writeYs, Pytree.map₂, hwrite, map_append, map_cons, map_nil]

/-- The inputs have `length` rows, if there are any. -/
def Leading (xs : Inputs A Treedef) (length : Nat) : Prop :=
  ∀ t ∈ xs, ∀ leaf ∈ t.leaves, leaf.rows.length = length

theorem leading_of_staticLength {given : Option Nat}
    (h : staticLength given xs = some length) : Leading xs length := by
  rintro t ht leaf hleaf
  obtain rfl := Option.mem_def.mp ht
  have hsize : leaf.rows.length ∈ t.leaves.map (·.rows.length) := mem_map.mpr ⟨leaf, hleaf, rfl⟩
  unfold staticLength at h
  dsimp only at h
  cases given with
  | some n =>
    dsimp only at h
    split at h
    · exact nomatch h
    · obtain rfl := Option.some.inj h
      by_contra hne
      exact ‹¬ _› (any_eq_true.mpr ⟨_, hsize, by simpa using hne⟩)
  | none =>
    dsimp only at h
    generalize t.leaves.map (·.rows.length) = sizes at h hsize
    cases sizes with
    | nil => exact nomatch h
    | cons size rest =>
      dsimp only at h
      split at h
      · exact nomatch h
      · obtain rfl := Option.some.inj h
        rcases mem_cons.mp hsize with heq | hmem
        · exact heq
        · by_contra hne
          exact ‹¬ _› (any_eq_true.mpr ⟨_, hmem, by simpa using hne⟩)

theorem indexXs_eq_rowXs (hxs : Leading xs length) {k : Nat} (hk : k < length) :
    indexXs xs k = rowXs xs k := by
  cases xs with
  | none => rfl
  | some t =>
    have hrow : ∀ leaf ∈ t.leaves, leaf.dynamicIndex (k : Int) = leaf.row k := by
      intro leaf hleaf
      have hrows := hxs t rfl leaf hleaf
      have hclamp : leaf.clamp (k : Int) = k := by
        unfold Stacked.clamp
        rw [hrows, Int.toNat_natCast]
        omega
      rw [Stacked.dynamicIndex, hclamp]
    show some (Pytree.mk t.treedef _) = some (Pytree.mk t.treedef _)
    rw [map_congr_left hrow]

theorem scanRows_collected {k : Nat} (hk : k ≤ length) (hindex : k ≤ 2 ^ 31) :
    (scanRows xs (fun state x => (collectBody step consts state x, ())) (range k)
      (collected step consts init xs length 0)).1 = collected step consts init xs length k := by
  induction k with
  | zero => rfl
  | succ k ih =>
    rw [range_succ, scanRows_concat, ih (by omega) (by omega)]
    exact collectBody_collected (by omega) (by omega)

theorem toInt_collected {k : Nat} (hindex : k < 2 ^ 31) :
    (collected step consts init xs length k).1.toInt = (k : Int) := by
  show (BitVec.ofNat 32 k).toInt = (k : Int)
  rw [BitVec.toInt_eq_toNat_of_lt] <;> simp <;> omega

theorem whileLoop_collected (hxs : Leading xs length) (hindex : length < 2 ^ 31) (d : Nat) :
    ∀ {k : Nat}, k + d = length →
      whileLoop (fun state => state.1.toInt < (length : Int))
        (fun state => collectBody step consts state (indexXs xs state.1.toInt)) (d + 1)
        (collected step consts init xs length k) = some (collected step consts init xs length length) := by
  induction d with
  | zero =>
    intro k hk
    obtain rfl : k = length := by omega
    rw [whileLoop, toInt_collected hindex, if_neg (by simp)]
  | succ d ih =>
    intro k hk
    have hint : (collected step consts init xs length k).1.toInt = (k : Int) :=
      toInt_collected (by omega)
    rw [whileLoop, hint, if_pos (by simp; omega), indexXs_eq_rowXs hxs (by omega),
      collectBody_collected (by omega) (by omega)]
    exact ih (by omega)

theorem whileLoop_diverges (hindex : 2 ^ 31 ≤ length) (fuel : Nat) :
    ∀ state : Index × Carry × Pytree Treedef (Stacked A),
      whileLoop (fun state => state.1.toInt < (length : Int))
        (fun state => collectBody step consts state (indexXs xs state.1.toInt)) fuel state =
        none := by
  induction fuel with
  | zero => exact fun _ => rfl
  | succ fuel ih =>
    intro state
    have hlt : state.1.toInt < (length : Int) := by
      have hbound : state.1.toInt < 2 ^ 31 := BitVec.toInt_lt
      omega
    rw [whileLoop, if_pos (by simpa using hlt)]
    exact ih _

/-- The three forms agree: the while loop returns what the scan does, and so does the
collecting scan. -/
def Agree (step : Step A Treedef Consts Carry) (consts : Consts) (init : Carry)
    (xs : Inputs A Treedef) (length : Nat) : Prop :=
  (∃ fuel, whileCollect step consts init xs length fuel = some (scan step consts init xs length)) ∧
    scanCollect step consts init xs length = scan step consts init xs length

/-- **The three forms of a static loop agree for every length below `2 ^ 31`, and for no
other.** -/
theorem loop_forms_agree_iff {given : Option Nat} (h : staticLength given xs = some length) :
    Agree step consts init xs length ↔ length < 2 ^ 31 := by
  constructor
  · rintro ⟨⟨fuel, hwhile⟩, -⟩
    by_contra hlarge
    rw [whileCollect, if_neg (by omega), whileLoop_diverges (by omega) fuel] at hwhile
    exact nomatch hwhile
  · intro hindex
    have hlast : (collected step consts init xs length length).2 =
        scan step consts init xs length := collected_length
    by_cases hzero : length = 0
    · subst hzero
      rw [collected_zero] at hlast
      refine ⟨⟨0, ?_⟩, ?_⟩
      · rw [whileCollect, if_pos rfl, ← hlast]
      · rw [scanCollect, if_pos rfl, ← hlast]
    · have hstart : collected step consts init xs length 0 =
          (0, init, ysBuffer step consts init xs length) := collected_zero
      refine ⟨⟨length + 1, ?_⟩, ?_⟩
      · rw [whileCollect, if_neg hzero, ← hstart, whileLoop_collected (leading_of_staticLength h) hindex length (Nat.zero_add _),
          ← hlast]
        rfl
      · have hscan := @scanRows_collected A Treedef Consts Carry step consts init xs length length
          (Nat.le_refl _) (by omega)
        rw [scanCollect, if_neg hzero, ← hlast, ← hscan, hstart]

end Forms

/-! ### A running sum -/

namespace Sample

def scalars : Arrays := ⟨Int, Unit, fun _ => (), fun _ => 0⟩

/-- Adds what it is given to the carry and puts out the sum; without inputs it puts out
nothing. -/
def cumsum : Step scalars Bool Unit Int where
  run := fun _ carry x =>
    match x with
    | some ⟨_, (value : Int) :: _⟩ => (carry + value, ⟨true, [carry + value]⟩)
    | _ => (carry, ⟨true, [carry]⟩)
  spec_run := by
    intro _ carry x carry' x'
    have hshape : ∀ (c : Int) (y : Option (Pytree Bool scalars.Array)),
        (match y with
          | some ⟨_, (value : Int) :: _⟩ => ((c + value, ⟨true, [c + value]⟩) : Int × Pytree Bool Int)
          | _ => (c, ⟨true, [c]⟩)).2.map scalars.spec = ⟨true, [()]⟩ := by
      intro c y
      split <;> rfl
    exact (hshape carry x).trans (hshape carry' x').symm

def rows : Inputs scalars Bool := some ⟨true, [⟨(), [(5 : Int), (7 : Int), (9 : Int)]⟩]⟩

example : (scan cumsum () (0 : Int) rows 3).2.leaves.map (·.rows) = [[(5 : Int), (12 : Int), (21 : Int)]] :=
  rfl

end Sample

theorem loop_forms_agree_sample :
    staticLength none Sample.rows = some 3 ∧
      (Agree Sample.cumsum () (0 : Int) Sample.rows 3 ↔ 3 < 2 ^ 31) :=
  ⟨rfl, @loop_forms_agree_iff _ _ _ _ _ _ _ _ _ none rfl⟩

/-- `2 ^ 31` iterations without inputs: the while loop does not return. -/
theorem while_form_diverges :
    staticLength (some (2 ^ 31)) (none : Inputs Sample.scalars Bool) = some (2 ^ 31) ∧
      ¬ Agree Sample.cumsum () (0 : Int) none (2 ^ 31) := by
  refine ⟨rfl, ?_⟩
  rintro ⟨⟨fuel, hwhile⟩, -⟩
  rw [whileCollect, if_neg (by decide), whileLoop_diverges (Nat.le_refl _) fuel] at hwhile
  exact nomatch hwhile

end Xtrax.IntentLoop
