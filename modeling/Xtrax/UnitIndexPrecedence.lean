import Xtrax.UnitIndexCompaction

/-! # The precedence of a lookup's answers

A reusable copy wins, and otherwise the first of `Corrupt`, `SchemaMismatch`, `IndexStale` and
`Missing` that an adapter answers for one of the unit's rows, whatever order the rows are looked
at in (`lookup_precedence`).  The rows that this code cannot read for their schema version are
asked about only when the unit has no other row.
-/
namespace Xtrax.UnitIndex

open Option

/-! ## What counts -/

/-- The kinds that a unit's answers are chosen among: those of its rows, `SchemaMismatch` where
unreadable rows count, and `Missing`. -/
def candidateKinds (judge : IndexRow → Option LookupResult) (rows : List IndexRow)
    (unreadable : Prop) : Set Kind :=
  {k | k ∈ kinds judge rows ∨ (unreadable ∧ k = .schemaMismatch) ∨ k = .missing}

/-- A row of the unit could not be read for its schema version. -/
def IndexSnapshot.Unreadable (snap : IndexSnapshot) (store unitKey : String) : Prop :=
  (snap.mismatch store unitKey).isSome

section
variable {judge : IndexRow → Option LookupResult} {rows : List IndexRow}
  {seen : List (String × String)} {best : Option LookupResult} {x : LookupResult}
  {unreadable : Prop} {k : Kind}

theorem mem_of_lookupLoop (h : lookupLoop judge rows seen best = some x) :
    (∃ r ∈ rows, judge r = some x) ∨ best = some x := by
  induction rows generalizing seen best with
  | nil => exact .inr h
  | cons r rest ih =>
    have hlater : (∃ r ∈ rest, judge r = some x) → ∃ r' ∈ r :: rest, judge r' = some x :=
      fun ⟨r', hr', hx⟩ => ⟨r', List.mem_cons_of_mem _ hr', hx⟩
    unfold lookupLoop at h
    split at h
    · exact (ih h).imp_left hlater
    · split at h
      · cases h
      · rename_i got hgot
        split at h
        · obtain rfl := some.inj h
          exact .inl ⟨r, List.mem_cons_self, hgot⟩
        · rcases ih h with hmem | hbest
          · exact .inl (hlater hmem)
          · -- the best so far is the new answer or the old best
            have hbetter := some.inj hbest
            rcases better_eq best got with heq | heq
            · rw [hbetter] at heq
              exact .inl ⟨r, List.mem_cons_self, heq ▸ hgot⟩
            · rw [hbetter] at heq
              exact .inr heq

theorem isBest_candidateKinds (h : IsBest (kinds judge rows) k) (hunreadable : ¬ unreadable) :
    IsBest (candidateKinds judge rows unreadable) k := by
  refine ⟨.inl h.1, fun k' hk' => ?_⟩
  rcases hk' with hk' | ⟨hcounts, -⟩ | rfl
  · exact h.2 k' hk'
  · exact absurd hcounts hunreadable
  · cases k <;> decide

/-- **A reusable copy wins.** -/
theorem reuse_of_isBest (h : IsBest (candidateKinds judge rows unreadable) k) :
    k = .reuse ↔ .reuse ∈ kinds judge rows := by
  constructor
  · rintro rfl
    rcases h.1 with hmem | ⟨-, hmismatch⟩ | hmissing
    · exact hmem
    · cases hmismatch
    · cases hmissing
  · intro hmem
    have hle : k.rank ≤ Kind.reuse.rank := h.2 .reuse (.inl hmem)
    exact Kind.rank_injective (Nat.le_zero.mp hle)

end

/-! ## Lookups -/

section
variable {O : Outside} {R : Reader} {table : AdapterTable} {snap : IndexSnapshot}
  {store s unitKey inputDigest : String}

/-- What a lookup of a unit answers. -/
structure Precedence (judge : IndexRow → Option LookupResult) (rows : List IndexRow)
    (unreadable : Prop) (x : LookupResult) : Prop where
  best : IsBest (candidateKinds judge rows (rows = [] ∧ unreadable)) x.kind
  reuse : x.kind = .reuse ↔ ∃ r ∈ rows, ∃ y, judge r = some y ∧ y.kind = .reuse
  answer : rows ≠ [] → ∃ r ∈ rows, judge r = some x
  anyOrder : ∀ rows', rows'.Perm rows → ∀ y, lookupLoop judge rows' [] none = some y →
    y.kind = x.kind

theorem judge_group {r r' : IndexRow} (hr : r ∈ snap.group s unitKey)
    (hr' : r' ∈ snap.group s unitKey) (hc : r.candidate = r'.candidate) :
    judge R table unitKey inputDigest r = judge R table unitKey inputDigest r' :=
  judge_congr ((store_of_mem_group hr).trans (store_of_mem_group hr').symm) hc

theorem kind_of_perm {rows : List IndexRow} {y : LookupResult}
    (hrows : rows.Perm (snap.group s unitKey))
    (h : lookupLoop (judge R table unitKey inputDigest) rows [] none = some y) :
    IsBest (kinds (judge R table unitKey inputDigest) (snap.group s unitKey)) y.kind := by
  have hbest := isBest_of_lookupLoop (fun r hr r' hr' hc =>
    judge_group (hrows.mem_iff.mp hr) (hrows.mem_iff.mp hr') hc) h
  have hkinds : Left (judge R table unitKey inputDigest) rows [] none =
      kinds (judge R table unitKey inputDigest) (snap.group s unitKey) := by
    ext k
    constructor
    · rintro (⟨r, hr, -, hx⟩ | ⟨b, hb, -⟩)
      · exact ⟨r, hrows.mem_iff.mp hr, hx⟩
      · cases hb
    · rintro ⟨r, hr, hx⟩
      exact .inl ⟨r, hrows.mem_iff.mpr hr, List.not_mem_nil, hx⟩
  rwa [hkinds] at hbest

theorem precedence_of_rows {x : LookupResult} (hs : O.canonicalStore store = some s)
    (hrows : snap.group s unitKey ≠ [])
    (h : lookup O R table snap store unitKey inputDigest = some x) :
    Precedence (judge R table unitKey inputDigest) (snap.group s unitKey)
      (snap.Unreadable s unitKey) x := by
  have hkind := lookup_kind hs hrows h
  have hbest := isBest_candidateKinds hkind fun hcounts :
    snap.group s unitKey = [] ∧ snap.Unreadable s unitKey => hrows hcounts.1
  refine ⟨hbest, reuse_of_isBest hbest, fun _ => ?_, fun rows' hperm y hy => ?_⟩
  · rw [lookup, hs, bind_some] at h
    split at h
    · contradiction
    · rcases mem_of_lookupLoop h with ⟨r, hr, hx⟩ | hnone
      · exact ⟨r, (List.mem_insertionSort _).mp hr, hx⟩
      · cases hnone
  · exact (kind_of_perm hperm hy).unique hkind

theorem precedence_of_no_rows {x : LookupResult} (hs : O.canonicalStore store = some s)
    (hrows : snap.group s unitKey = [])
    (h : lookup O R table snap store unitKey inputDigest = some x) :
    Precedence (judge R table unitKey inputDigest) (snap.group s unitKey)
      (snap.Unreadable s unitKey) x := by
  have hnone : ∀ k, k ∉ kinds (judge R table unitKey inputDigest) (snap.group s unitKey) := by
    rintro k ⟨r, hr, -⟩
    rw [hrows] at hr
    cases hr
  have hbest : IsBest (candidateKinds (judge R table unitKey inputDigest) (snap.group s unitKey)
      (snap.group s unitKey = [] ∧ snap.Unreadable s unitKey)) x.kind := by
    rw [lookup, hs, bind_some, hrows] at h
    dsimp only at h
    cases hmismatch : snap.mismatch s unitKey with
    | some reason =>
      rw [hmismatch] at h
      obtain rfl := some.inj h
      have hcounts : snap.Unreadable s unitKey := by
        rw [IndexSnapshot.Unreadable, hmismatch]
        rfl
      refine ⟨.inr (.inl ⟨⟨hrows, hcounts⟩, rfl⟩), ?_⟩
      rintro k (hk | ⟨-, rfl⟩ | rfl)
      · exact absurd hk (hnone k)
      · exact le_refl _
      · show Kind.schemaMismatch.rank ≤ Kind.missing.rank
        decide
    | none =>
      rw [hmismatch] at h
      obtain rfl := some.inj h
      refine ⟨.inr (.inr rfl), ?_⟩
      rintro k (hk | ⟨⟨-, hcounts⟩, -⟩ | rfl)
      · exact absurd hk (hnone k)
      · rw [IndexSnapshot.Unreadable, hmismatch] at hcounts
        cases hcounts
      · exact le_refl _
  refine ⟨hbest, reuse_of_isBest hbest, fun hne => absurd hrows hne, fun rows' hperm y hy => ?_⟩
  rw [hrows] at hperm
  rw [hperm.eq_nil] at hy
  cases hy

/-- **The answer of a lookup.**  The unit's rows may be in any order; a lookup returns when every
row's adapter is in the table and answers. -/
theorem lookup_precedence (hs : O.canonicalStore store = some s) :
    (∀ x, lookup O R table snap store unitKey inputDigest = some x →
      Precedence (judge R table unitKey inputDigest) (snap.group s unitKey)
        (snap.Unreadable s unitKey) x) ∧
    ((∀ r ∈ snap.group s unitKey, (judge R table unitKey inputDigest r).isSome) →
      ∃ x, lookup O R table snap store unitKey inputDigest = some x) := by
  refine ⟨fun x h => ?_, fun hall => Option.isSome_iff_exists.mp (isSome_lookup hs hall)⟩
  by_cases hrows : snap.group s unitKey = []
  · exact precedence_of_no_rows hs hrows h
  · exact precedence_of_rows hs hrows h

end

/-! ## A row that is read and one that is not -/

namespace TwoAdapters

/-- A unit with a row whose artifact is gone, and a row of a later schema version. -/
def mixed : IndexSnapshot where
  rows := [row "unit_json" "r2" 2]
  schemaMismatch := [(("/store", "a"), "schema_version 2, expected 1")]

theorem lookup_precedence_mixed :
    (∀ x, lookup outside reader table mixed "/store" "a" "i" = some x →
      Precedence (judge reader table "a" "i") (mixed.group "/store" "a")
        (mixed.Unreadable "/store" "a") x) ∧
    ((∀ r ∈ mixed.group "/store" "a", (judge reader table "a" "i" r).isSome) →
      ∃ x, lookup outside reader table mixed "/store" "a" "i" = some x) :=
  lookup_precedence rfl

/-- The row of the later version does not count: the answer is `Missing`. -/
theorem unreadable_not_counted :
    ∃ x, lookup outside reader table mixed "/store" "a" "i" = some x ∧ mixed.Unreadable "/store" "a" ∧
      ¬ IsBest (candidateKinds (judge reader table "a" "i") (mixed.group "/store" "a")
        (mixed.Unreadable "/store" "a")) x.kind := by
  have hlookup : lookup outside reader table mixed "/store" "a" "i" = some .missing := by decide
  have hunreadable : mixed.Unreadable "/store" "a" := by
    unfold IndexSnapshot.Unreadable
    decide
  refine ⟨.missing, hlookup, hunreadable, fun hbest => ?_⟩
  have hle := hbest.2 .schemaMismatch (.inr (.inl ⟨hunreadable, rfl⟩))
  exact absurd hle (by decide)

end TwoAdapters

end Xtrax.UnitIndex
