import Xtrax.StagingSink

/-! # Groups and arrays of a Zarr store

What an exclusive sink uses of zarr, as zarr documents it.  A store has a node at some of its locations,
a group with attrs or an array.  Creating an array with `overwrite` deletes what is at its location and
below, parents that are missing become groups, and the chunks of an array lie in the directory `c` below
it, which is no place for other nodes.  The attrs of a group are written as a whole.
-/
namespace Xtrax.ZarrNodes

open StagingSink (NDArray)

/-- The names on the way from the root. -/
abbrev Location := List String

inductive Node (E V : Type)
  | group (attrs : Dict String V)
  | array (a : NDArray E)

/-- What is at the locations of a store. -/
abbrev Nodes (E V : Type) := Location → Option (Node E V)

def arrayAt {E V : Type} (n : Option (Node E V)) : Option (NDArray E) :=
  match n with
  | some (.array a) => some a
  | _ => none

/-- `dict(node.attrs)`; nothing where there is no group. -/
def groupAttrs {E V : Type} (n : Option (Node E V)) : Dict String V :=
  match n with
  | some (.group attrs) => attrs
  | _ => ∅

variable {E V : Type}

/-! ## What writes do -/

/-- A missing parent was made a group. -/
def IsNew (node node' : Nodes E V) (p q : Location) : Prop :=
  q <+: p ∧ node q = none ∧ node' q = some (.group ∅)

/-- The location is where an array keeps its chunks, or below. -/
def InChunks (node : Nodes E V) (q p : Location) : Prop :=
  (∃ a, node q = some (.array a)) ∧ q ++ ["c"] <+: p

/-- A group is there, and is made if it was not. -/
structure GroupRequired (node node' : Nodes E V) (p : Location) : Prop where
  group : ∃ attrs, node' p = some (.group attrs)
  parents : node p = none → ∀ q, q <+: p → node' q ≠ none
  others : ∀ q, node' q = node q ∨ IsNew node node' p q

/-- An array was put in the place of all that was there. -/
structure ArrayCreated (node node' : Nodes E V) (p : Location) (a : NDArray E) : Prop where
  array : node' p = some (.array a)
  below : ∀ q, p <+: q → q ≠ p → node' q = none
  parents : ∀ q, q <+: p → node' q ≠ none
  others : ∀ q, ¬ p <+: q → ¬ InChunks node q p → node' q = node q ∨ IsNew node node' p q

structure Replaced (node node' : Nodes E V) (p : Location) (n : Node E V) : Prop where
  self : node' p = some n
  others : ∀ q, q ≠ p → node' q = node q

/-- The part of zarr that a sink uses, over some kind of store.  Anything may raise. -/
structure Zarr (S E V X : Type) where
  locate : String → Except X Location
  node : S → Nodes E V
  requireGroup : S → Location → Except X S
  /-- `create_array(overwrite=True)`, and the assignment of all elements. -/
  createArray : S → Location → NDArray E → Except X S
  /-- `resize` along the leading axis, and the assignment of the new elements. -/
  extendArray : S → Location → NDArray E → Except X S
  putAttrs : S → Location → Dict String V → Except X S
  requireGroup_ok : ∀ s p s', requireGroup s p = .ok s' → GroupRequired (node s) (node s') p
  createArray_ok : ∀ s p a s', createArray s p a = .ok s' → ArrayCreated (node s) (node s') p a
  extendArray_ok : ∀ s p a b s', node s p = some (.array a) → ∀ h : a.Stackable b,
    extendArray s p b = .ok s' → Replaced (node s) (node s') p (.array (a.extend b h))
  putAttrs_ok : ∀ s p attrs s', putAttrs s p attrs = .ok s' →
    Replaced (node s) (node s') p (.group attrs)

/-! ## What stays -/

/-- Nothing is below a place where nothing is. -/
def Closed (node : Nodes E V) : Prop := ∀ p q, q <+: p → node p ≠ none → node q ≠ none

/-- An array was written, and no other was touched. -/
structure Wrote (node node' : Nodes E V) (p : Location) (a : NDArray E) : Prop where
  arrays : ∀ q, arrayAt (node' q) = if q = p then some a else arrayAt (node q)
  closed : Closed node → Closed node'
  attrs : ∀ q f, (groupAttrs (node' q)).get? f ≠ none → (groupAttrs (node q)).get? f ≠ none
  parents : ∀ q attrs, q <+: p → q ≠ p → node q = some (.group attrs) → node' q = some (.group attrs)

variable {node node' : Nodes E V} {p q : Location} {a : NDArray E} {attrs : Dict String V}

theorem IsNew.arrayAt (h : IsNew node node' p q) : arrayAt (node' q) = ZarrNodes.arrayAt (node q) := by
  rw [h.2.1, h.2.2]
  rfl

theorem IsNew.groupAttrs (h : IsNew node node' p q) :
    groupAttrs (node' q) = ZarrNodes.groupAttrs (node q) := by
  rw [h.2.1, h.2.2]
  rfl

theorem GroupRequired.arrayAt (h : GroupRequired node node' p) (q : Location) :
    arrayAt (node' q) = ZarrNodes.arrayAt (node q) := by
  rcases h.others q with heq | hnew
  · rw [heq]
  · exact hnew.arrayAt

theorem GroupRequired.groupAttrs (h : GroupRequired node node' p) (q : Location) :
    groupAttrs (node' q) = ZarrNodes.groupAttrs (node q) := by
  rcases h.others q with heq | hnew
  · rw [heq]
  · exact hnew.groupAttrs

theorem GroupRequired.closed (h : GroupRequired node node' p) (hclosed : Closed node) :
    Closed node' := by
  intro q r hr hq
  rcases h.others r with heq | hnew
  · rw [heq]
    rcases h.others q with heq' | ⟨hqp, hnone, -⟩
    · exact hclosed q r hr (heq' ▸ hq)
    · rw [← heq]
      by_cases hp : node p = none
      · exact h.parents hp r (hr.trans hqp)
      · exact absurd hnone (hclosed p q hqp hp)
  · rw [hnew.2.2]
    exact nofun

/-- Writing an array spares the others if none is below it, and it is in no array's chunks. -/
theorem ArrayCreated.wrote (h : ArrayCreated node node' p a)
    (hbelow : ∀ q, p <+: q → q ≠ p → arrayAt (node q) = none)
    (hchunks : ∀ q, ¬ InChunks node q p) : Wrote node node' p a where
  arrays q := by
    by_cases hq : q = p
    · rw [if_pos hq, hq, h.array]
      rfl
    · rw [if_neg hq]
      by_cases hpq : p <+: q
      · rw [h.below q hpq hq, hbelow q hpq hq]
        rfl
      · rcases h.others q hpq (hchunks q) with heq | hnew
        · rw [heq]
        · exact hnew.arrayAt
  closed hclosed := by
    intro q r hr hq
    by_cases hpq : p <+: q
    · have hqp : q = p := by
        by_contra hne
        exact hq (h.below q hpq hne)
      exact h.parents r (hqp ▸ hr)
    · have hpr : ¬ p <+: r := fun hpr => hpq (hpr.trans hr)
      rcases h.others q hpq (hchunks q) with heq | hnew
      · rcases h.others r hpr (hchunks r) with heq' | hnew'
        · rw [heq']
          exact hclosed q r hr (heq ▸ hq)
        · rw [hnew'.2.2]
          exact nofun
      · exact h.parents r (hr.trans hnew.1)
  attrs q f hf := by
    by_cases hpq : p <+: q
    · by_cases hq : q = p
      · rw [hq, h.array] at hf
        exact absurd rfl hf
      · rw [h.below q hpq hq] at hf
        exact absurd rfl hf
    · rcases h.others q hpq (hchunks q) with heq | hnew
      · rwa [← heq]
      · rwa [← hnew.groupAttrs]
  parents q attrs hqp hne hgroup := by
    have hpq : ¬ p <+: q := fun hpq => hne (hqp.eq_of_length_le hpq.length_le)
    rcases h.others q hpq (hchunks q) with heq | hnew
    · rw [heq, hgroup]
    · rw [hnew.2.1] at hgroup
      cases hgroup

theorem Replaced.closed {n : Node E V} (h : Replaced node node' p n) (hthere : node p ≠ none)
    (hclosed : Closed node) : Closed node' := by
  intro q r hr hq
  by_cases hrp : r = p
  · rw [hrp, h.self]
    exact nofun
  · rw [h.others r hrp]
    by_cases hqp : q = p
    · exact hclosed q r hr (hqp ▸ hthere)
    · rw [h.others q hqp] at hq
      exact hclosed q r hr hq

theorem Replaced.wrote (h : Replaced node node' p (.array a)) (hthere : node p ≠ none) :
    Wrote node node' p a where
  arrays q := by
    by_cases hq : q = p
    · rw [if_pos hq, hq, h.self]
      rfl
    · rw [if_neg hq, h.others q hq]
  closed := h.closed hthere
  attrs q f hf := by
    by_cases hq : q = p
    · rw [hq, h.self] at hf
      exact absurd rfl hf
    · rwa [← h.others q hq]
  parents q attrs _ hne hgroup := by rw [h.others q hne, hgroup]

theorem Replaced.group_arrays (h : Replaced node node' p (.group attrs))
    (hthere : arrayAt (node p) = none) (q : Location) : arrayAt (node' q) = arrayAt (node q) := by
  by_cases hq : q = p
  · rw [hq, h.self, hthere]
    rfl
  · rw [h.others q hq]

/-! ## A store that is its nodes -/

/-- `normalize_path`: backslashes are slashes, and empty names do not count. -/
def normalizePath (path : String) : Except Unit Location :=
  let slashes := path.toList.map fun c => if c = '\\' then '/' else c
  let names := ((slashes.splitOn '/').map String.ofList).filter (· ≠ "")
  if names.any fun name => name = "." || name = ".." then .error () else .ok names

/-- Missing parents made groups. -/
def withParents (node : Nodes E V) (p : Location) : Nodes E V := fun q =>
  match node q with
  | some n => some n
  | none => if q <+: p then some (.group ∅) else none

theorem withParents_cases (node : Nodes E V) (p q : Location) :
    withParents node p q = node q ∨ IsNew node (withParents node p) p q := by
  unfold IsNew withParents
  cases hq : node q with
  | some n => exact .inl rfl
  | none =>
    by_cases hqp : q <+: p
    · exact .inr ⟨hqp, rfl, by simp [hqp]⟩
    · exact .inl (by simp [hqp])

theorem withParents_ne_none (node : Nodes E V) {p q : Location} (h : q <+: p) :
    withParents node p q ≠ none := by
  unfold withParents
  cases node q with
  | some n => exact nofun
  | none => simp [h]

def tree (E V : Type) : Zarr (Nodes E V) E V Unit where
  locate := normalizePath
  node s := s
  requireGroup s p :=
    match s p with
    | some (.array _) => .error ()
    | _ => .ok (withParents s p)
  createArray s p a := .ok fun q =>
    if q = p then some (.array a) else if p <+: q then none else withParents s p q
  extendArray s p b :=
    match s p with
    | some (.array a) =>
      if h : a.Fits b then .ok (Function.update s p (some (.array (a.extend b h.toStackable))))
      else .error ()
    | _ => .error ()
  putAttrs s p attrs := .ok (Function.update s p (some (.group attrs)))
  requireGroup_ok s p s' h := by
    have hs' : s' = withParents s p := by
      split at h
      · cases h
      · exact (Except.ok.inj h).symm
    subst hs'
    refine ⟨?_, fun _ q hq => withParents_ne_none s hq, withParents_cases s p⟩
    cases hp : s p with
    | none => exact ⟨∅, by simp [withParents, hp]⟩
    | some n =>
      cases n with
      | array a => simp [hp] at h
      | group attrs => exact ⟨attrs, by simp [withParents, hp]⟩
  createArray_ok s p a s' h := by
    obtain rfl := Except.ok.inj h
    refine ⟨by simp, fun q hq hne => by simp [hq, hne], fun q hq => ?_, fun q hq _ => ?_⟩
    · by_cases hqp : q = p
      · simp [hqp]
      · have hpq : ¬ p <+: q := fun hpq => hqp (hq.eq_of_length_le hpq.length_le)
        simpa [hqp, hpq] using withParents_ne_none s hq
    · have hqp : q ≠ p := fun hqp => hq (hqp ▸ List.prefix_rfl)
      simpa [IsNew, hqp, hq] using withParents_cases s p q
  extendArray_ok s p a b s' hp hstack h := by
    simp only [hp] at h
    split at h
    · obtain rfl := Except.ok.inj h
      exact ⟨by simp, fun q hq => by simp [hq]⟩
    · cases h
  putAttrs_ok s p attrs s' h := by
    obtain rfl := Except.ok.inj h
    exact ⟨by simp, fun q hq => by simp [hq]⟩

end Xtrax.ZarrNodes
