import Xtrax.FirstSeen
import Xtrax.UnitIndexScan

/-! # Looking a unit up

`iter_rows` drops the rows whose store, locator and record digest it has seen, `load_index`
groups the rest, and `lookup` asks an adapter about every row of the unit.  A reusable copy
wins, and otherwise the answer that ranks first.

What kind of answer a lookup gives depends on which adapters and locators the unit's rows name
and on nothing else of the rows, not on their order either (`lookup_kind`).
-/
namespace Xtrax.UnitIndex

open List Option FirstSeen

/-! ## Results -/

/-- The immutable core of a unit's own record. -/
structure CoreRecord where
  unitKey : String
  inputDigest : String
  contentDigest : String
  recordDigest : String
  runId : String
  deriving DecidableEq, Repr

/-- The classes of results. -/
inductive Kind
  | reuse | corrupt | schemaMismatch | stale | missing
  deriving DecidableEq, Repr

/-- `rank`.  A reusable copy is returned before ranks are compared. -/
def Kind.rank : Kind → Nat
  | .reuse => 0
  | .corrupt => 1
  | .schemaMismatch => 2
  | .stale => 3
  | .missing => 4

theorem Kind.rank_injective : Function.Injective Kind.rank := by
  intro k k' h
  cases k <;> cases k' <;> first | rfl | cases h

inductive LookupResult
  | reuse (store locator : String) (core : CoreRecord)
  | stale (store locator : String) (core : CoreRecord)
  | missing
  | corrupt (reason : String)
  | schemaMismatch (reason : String)
  deriving DecidableEq, Repr

def LookupResult.kind : LookupResult → Kind
  | .reuse .. => .reuse
  | .stale .. => .stale
  | .missing => .missing
  | .corrupt _ => .corrupt
  | .schemaMismatch _ => .schemaMismatch

/-- `classify`, of a store, a locator and an input digest; `none` stands for an exception. -/
abbrev Classify := String → String → String → Option LookupResult

/-- Adapters by name. -/
abbrev AdapterTable := String → Option Classify

/-! ## Reading the index -/

/-- `(store, locator, record_digest)`. -/
def IndexRow.readKey (r : IndexRow) : String × String × String :=
  (r.store, r.locator, r.recordDigest)

/-- What is classified once only. -/
def IndexRow.candidate (r : IndexRow) : String × String := (r.adapter, r.locator)

/-- What `lookup` needs from outside besides the index. -/
structure Reader where
  /-- The store and the unit key that an unreadable line names if its schema version is the
  trouble, and the reason. -/
  badKey : Bytes → Option ((String × String) × String)
  repr : String → String

section
variable (O : Outside)

/-- The files of `segments/`, `sealed/` and `rebuilt/`. -/
def Disk.listed (d : Disk) : List ListedFile :=
  d.listSegments.map .segment ++ d.listSealed.map .sealed ++
    (List.range d.rebuilt.length).map .rebuilt

def Disk.contents (d : Disk) : List Bytes := d.listed.filterMap d.read

/-- The rows of a list of files, in order. -/
def fileRows (files : List Bytes) : List IndexRow := files.flatMap fun data => (parse O data).rows

def iterRows (files : List Bytes) : List IndexRow := firstSeen IndexRow.readKey [] (fileRows O files)

/-- `IndexSnapshot`.  Rows are grouped when they are asked for. -/
structure IndexSnapshot where
  rows : List IndexRow
  schemaMismatch : List ((String × String) × String)

/-- The rows of a unit. -/
def IndexSnapshot.group (snap : IndexSnapshot) (store unitKey : String) : List IndexRow :=
  snap.rows.filter fun r => r.store = store ∧ r.unitKey = unitKey

/-- The last entry of the key. -/
def IndexSnapshot.mismatch (snap : IndexSnapshot) (store unitKey : String) : Option String :=
  snap.schemaMismatch.reverse.lookup (store, unitKey)

variable (R : Reader)

def loadIndex (files : List Bytes) : IndexSnapshot where
  rows := iterRows O files
  schemaMismatch := files.flatMap fun data =>
    ((lines data).filter (isUnreadable O)).filterMap R.badKey

/-! ## The loop -/

/-- The record must be this unit's and, to reuse, this input's. -/
def checked (unitKey inputDigest locator : String) : LookupResult → LookupResult
  | .reuse store loc core =>
    if core.unitKey ≠ unitKey then
      .corrupt (locator ++ " holds the record of unit " ++ R.repr core.unitKey ++ ", not " ++
        R.repr unitKey)
    else if core.inputDigest ≠ inputDigest then
      .corrupt (locator ++ " reported reuse for input " ++ R.repr core.inputDigest)
    else .reuse store loc core
  | .stale store loc core =>
    if core.unitKey ≠ unitKey then
      .corrupt (locator ++ " holds the record of unit " ++ R.repr core.unitKey ++ ", not " ++
        R.repr unitKey)
    else .stale store loc core
  | got => got

/-- What the row's adapter says; `none` when there is no such adapter, or it raises. -/
def judge (table : AdapterTable) (unitKey inputDigest : String) (r : IndexRow) :
    Option LookupResult :=
  (table r.adapter).bind fun classify =>
    (classify r.store r.locator inputDigest).map (checked R unitKey inputDigest r.locator)

/-- What ranks first, the earlier one of two equals. -/
def better (best : Option LookupResult) (got : LookupResult) : LookupResult :=
  match best with
  | none => got
  | some b => if got.kind.rank < b.kind.rank then got else b

/-- The loop of `lookup`.  `best` is `none` before the first row. -/
def lookupLoop (judge : IndexRow → Option LookupResult) :
    List IndexRow → List (String × String) → Option LookupResult → Option LookupResult
  | [], _, best => best
  | r :: rest, seen, best =>
    if r.candidate ∈ seen then lookupLoop judge rest seen best
    else
      match judge r with
      | none => none
      | some got =>
        if got.kind = .reuse then some got
        else lookupLoop judge rest (r.candidate :: seen) (some (better best got))

/-- `(r.input_digest != input_digest, -r.ts)`. -/
def IndexRow.sortsBefore (inputDigest : String) (r r' : IndexRow) : Prop :=
  (r.inputDigest = inputDigest ∧ r'.inputDigest ≠ inputDigest) ∨
    ((r.inputDigest = inputDigest ↔ r'.inputDigest = inputDigest) ∧ r'.ts ≤ r.ts)

instance (inputDigest : String) : DecidableRel (IndexRow.sortsBefore inputDigest) := fun _ _ =>
  inferInstanceAs (Decidable (_ ∨ _))

/-- `lookup`; `none` stands for an exception. -/
def lookup (table : AdapterTable) (snap : IndexSnapshot) (store unitKey inputDigest : String) :
    Option LookupResult :=
  (O.canonicalStore store).bind fun s =>
    match snap.group s unitKey with
    | [] =>
      match snap.mismatch s unitKey with
      | some reason => some (.schemaMismatch reason)
      | none => some .missing
    | rows =>
      lookupLoop (judge R table unitKey inputDigest)
        (rows.insertionSort (IndexRow.sortsBefore inputDigest)) [] none

end

/-! ## Which kind comes out -/

/-- The kind of a set that ranks first. -/
def IsBest (S : Set Kind) (k : Kind) : Prop := k ∈ S ∧ ∀ k' ∈ S, k.rank ≤ k'.rank

theorem IsBest.unique {S : Set Kind} {k k' : Kind} (h : IsBest S k) (h' : IsBest S k') : k = k' :=
  Kind.rank_injective (Nat.le_antisymm (h.2 k' h'.1) (h'.2 k h.1))

/-- The kinds of the answers about rows. -/
def kinds (judge : IndexRow → Option LookupResult) (rows : List IndexRow) : Set Kind :=
  {k | ∃ r ∈ rows, ∃ x, judge r = some x ∧ x.kind = k}

section
variable {judge : IndexRow → Option LookupResult} {rows : List IndexRow}
  {seen : List (String × String)} {best : Option LookupResult} {x : LookupResult}

/-- What is still to come of a loop, and what it has. -/
def Left (judge : IndexRow → Option LookupResult) (rows : List IndexRow)
    (seen : List (String × String)) (best : Option LookupResult) : Set Kind :=
  {k | (∃ r ∈ rows, r.candidate ∉ seen ∧ ∃ x, judge r = some x ∧ x.kind = k) ∨
    ∃ b, best = some b ∧ b.kind = k}

theorem better_eq (best : Option LookupResult) (got : LookupResult) :
    better best got = got ∨ best = some (better best got) := by
  unfold better
  split
  · exact .inl rfl
  · split
    · exact .inl rfl
    · exact .inr rfl

theorem better_le (best : Option LookupResult) (got : LookupResult) :
    (better best got).kind.rank ≤ got.kind.rank ∧
      ∀ b, best = some b → (better best got).kind.rank ≤ b.kind.rank := by
  unfold better
  split
  · exact ⟨le_refl _, fun b hb => by cases hb⟩
  · rename_i b
    split
    · rename_i hlt
      exact ⟨le_refl _, fun b' hb' => by cases hb'; exact hlt.le⟩
    · rename_i hle
      exact ⟨not_lt.mp hle, fun b' hb' => by cases hb'; exact le_refl _⟩

/-- **The loop finds the best kind.** -/
theorem isBest_of_lookupLoop (hsame : ∀ r ∈ rows, ∀ r' ∈ rows, r.candidate = r'.candidate →
      judge r = judge r')
    (h : lookupLoop judge rows seen best = some x) : IsBest (Left judge rows seen best) x.kind := by
  induction rows generalizing seen best with
  | nil =>
    refine ⟨.inr ⟨x, h, rfl⟩, fun k hk => ?_⟩
    rcases hk with ⟨r, hr, -⟩ | ⟨b, hb, rfl⟩
    · exact (not_mem_nil hr).elim
    · obtain rfl : x = b := some.inj (h.symm.trans hb)
      exact le_refl _
  | cons r rest ih =>
    have hrest : ∀ r ∈ rest, ∀ r' ∈ rest, r.candidate = r'.candidate → judge r = judge r' :=
      fun r hr r' hr' => hsame r (mem_cons_of_mem _ hr) r' (mem_cons_of_mem _ hr')
    unfold lookupLoop at h
    split at h
    · -- the candidate has been asked about
      rename_i hr
      obtain ⟨hmem, hle⟩ := ih hrest h
      refine ⟨?_, fun k hk => hle k ?_⟩
      · rcases hmem with ⟨r', hr', hnew, hx⟩ | hbest
        · exact .inl ⟨r', mem_cons_of_mem _ hr', hnew, hx⟩
        · exact .inr hbest
      · rcases hk with ⟨r', hr', hnew, hx⟩ | hbest
        · rcases mem_cons.mp hr' with rfl | hr'
          · exact (hnew hr).elim
          · exact .inl ⟨r', hr', hnew, hx⟩
        · exact .inr hbest
    · rename_i hr
      split at h
      · cases h
      · rename_i got hgot
        have hself : got.kind ∈ Left judge (r :: rest) seen best :=
          .inl ⟨r, mem_cons_self, hr, got, hgot, rfl⟩
        split at h
        · -- a reusable copy
          rename_i hreuse
          obtain rfl := some.inj h
          refine ⟨hself, fun k _ => ?_⟩
          rw [hreuse]
          exact Nat.zero_le _
        · obtain ⟨hmem, hle⟩ := ih hrest h
          obtain ⟨hgotle, hbestle⟩ := better_le best got
          have hbetter : x.kind.rank ≤ (better best got).kind.rank :=
            hle _ (.inr ⟨_, rfl, rfl⟩)
          refine ⟨?_, fun k hk => ?_⟩
          · rcases hmem with ⟨r', hr', hnew, hx⟩ | ⟨b, hb, hx⟩
            · exact .inl ⟨r', mem_cons_of_mem _ hr', fun h => hnew (mem_cons_of_mem _ h), hx⟩
            · obtain rfl := some.inj hb
              rw [← hx]
              rcases better_eq best got with heq | heq
              · rw [heq]
                exact hself
              · exact .inr ⟨_, heq, rfl⟩
          · rcases hk with ⟨r', hr', hnew, y, hy, rfl⟩ | ⟨b, hb, rfl⟩
            · by_cases hc : r'.candidate = r.candidate
              · -- the same question has the same answer
                rw [hsame r' hr' r mem_cons_self hc, hgot] at hy
                obtain rfl := some.inj hy
                exact hbetter.trans hgotle
              · rcases mem_cons.mp hr' with rfl | hr'
                · exact (hc rfl).elim
                · refine hle _ (.inl ⟨r', hr', fun h => ?_, y, hy, rfl⟩)
                  rcases mem_cons.mp h with h | h
                  · exact hc h
                  · exact hnew h
            · exact hbetter.trans (hbestle b hb)

theorem isSome_lookupLoop (hall : ∀ r ∈ rows, (judge r).isSome)
    (hbest : best.isSome ∨ ∃ r ∈ rows, r.candidate ∉ seen) :
    (lookupLoop judge rows seen best).isSome := by
  induction rows generalizing seen best with
  | nil =>
    rcases hbest with hbest | ⟨r, hr, -⟩
    · exact hbest
    · exact (not_mem_nil hr).elim
  | cons r rest ih =>
    have hrest : ∀ r ∈ rest, (judge r).isSome := fun r hr => hall r (mem_cons_of_mem _ hr)
    unfold lookupLoop
    split
    · rename_i hr
      refine ih hrest (hbest.imp_right ?_)
      rintro ⟨r', hr', hnew⟩
      rcases mem_cons.mp hr' with rfl | hr'
      · exact (hnew hr).elim
      · exact ⟨r', hr', hnew⟩
    · obtain ⟨got, hgot⟩ := isSome_iff_exists.mp (hall r mem_cons_self)
      rw [hgot]
      dsimp only
      split
      · rfl
      · exact ih hrest (.inl rfl)

end

section
variable {O : Outside} {R : Reader} {table : AdapterTable} {snap : IndexSnapshot}
  {store s unitKey inputDigest : String} {x : LookupResult}

theorem judge_congr {r r' : IndexRow} (hstore : r.store = r'.store)
    (hcandidate : r.candidate = r'.candidate) :
    judge R table unitKey inputDigest r = judge R table unitKey inputDigest r' := by
  obtain ⟨hadapter, hlocator⟩ := Prod.mk.inj hcandidate
  rw [judge, judge, hadapter, hlocator, hstore]

theorem mem_group {r : IndexRow} :
    r ∈ snap.group s unitKey ↔ r ∈ snap.rows ∧ r.store = s ∧ r.unitKey = unitKey := by
  rw [IndexSnapshot.group, mem_filter, decide_eq_true_iff]

theorem store_of_mem_group {r : IndexRow} (h : r ∈ snap.group s unitKey) : r.store = s :=
  (mem_group.mp h).2.1

/-- **The kind of a lookup** of a unit that has rows. -/
theorem lookup_kind (hs : O.canonicalStore store = some s) (hrows : snap.group s unitKey ≠ [])
    (h : lookup O R table snap store unitKey inputDigest = some x) :
    IsBest (kinds (judge R table unitKey inputDigest) (snap.group s unitKey)) x.kind := by
  rw [lookup, hs, bind_some] at h
  split at h
  · contradiction
  · have hmem : ∀ r, r ∈ (snap.group s unitKey).insertionSort (IndexRow.sortsBefore inputDigest) ↔
        r ∈ snap.group s unitKey := fun r => mem_insertionSort _
    have hbest := isBest_of_lookupLoop (fun r hr r' hr' hc => judge_congr
      ((store_of_mem_group ((hmem r).mp hr)).trans (store_of_mem_group ((hmem r').mp hr')).symm) hc) h
    have hkinds : Left (judge R table unitKey inputDigest)
        ((snap.group s unitKey).insertionSort (IndexRow.sortsBefore inputDigest)) [] none =
          kinds (judge R table unitKey inputDigest) (snap.group s unitKey) := by
      ext k
      constructor
      · rintro (⟨r, hr, -, hx⟩ | ⟨b, hb, -⟩)
        · exact ⟨r, (hmem r).mp hr, hx⟩
        · cases hb
      · rintro ⟨r, hr, hx⟩
        exact .inl ⟨r, (hmem r).mpr hr, not_mem_nil, hx⟩
    rwa [hkinds] at hbest

theorem isSome_lookup (hs : O.canonicalStore store = some s)
    (hall : ∀ r ∈ snap.group s unitKey, (judge R table unitKey inputDigest r).isSome) :
    (lookup O R table snap store unitKey inputDigest).isSome := by
  rw [lookup, hs, bind_some]
  split
  · split <;> rfl
  · rename_i hne
    refine isSome_lookupLoop (fun r hr => hall r ((mem_insertionSort _).mp hr)) (.inr ?_)
    obtain ⟨r, hr⟩ := exists_mem_of_ne_nil _ hne
    exact ⟨r, (mem_insertionSort _).mpr hr, not_mem_nil⟩

end

end Xtrax.UnitIndex
