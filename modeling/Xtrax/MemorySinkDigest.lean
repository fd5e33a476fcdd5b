import Xtrax.MemorySink
import Xtrax.ZarrStagedDigest

/-! # What a memory sink's digest tells

The digest is the hash of a dictionary from path to array digests, whose text determines it, and
the digest of an array determines the name of its dtype, its shape and its bytes.  So two sinks
with one digest hold the same arrays under every path, as far as the dictionary goes.

Different keys may be written alike, and the dictionary has room for the last of them only; and
structured dtypes of one size have one name.  That is all a digest leaves open
(`finalize_tells_iff`).
-/
namespace Xtrax.StagingBuffer.MemorySink

open Dict ZarrDigest List Option

open ZarrDigest (NdArray Dtypes)

variable {Q K A V R δ ε : Type} {D : Dtypes δ} (N : Naming Q K)

/-! ## What is held under a path -/

/-- The committed keys that are written as a path, in the order `finalize` comes to them. -/
def keysAt (m : MemorySink Q K A V) (path : String) : List (Q × Dict String A) :=
  (m.sorted N).filter fun e => N.path e.1 = path

/-- The keys of a path whose place is taken by a later one. -/
def overwritten (m : MemorySink Q K A V) (path : String) : List (Q × Dict String A) :=
  (m.keysAt N path).dropLast

/-- The arrays of the key that has a path's place in the end. -/
def counted (m : MemorySink Q K A V) (path : String) : Option (Dict String A) :=
  ((m.keysAt N path).getLast?).map (·.2)

def arrayDigest (sha256 : List UInt8 → String) (a : NdArray D) : String :=
  sha256 (ZarrDigest.updateArrayDigest a)

section View

-- what counts of a dtype: all of it, or the dtype up to its byte order
variable (view : δ → ε)

/-- What is seen of an array: its dtype, its shape and the bytes of its elements in little-endian
order. -/
def seen (a : NdArray D) : ε × List Nat × List UInt8 :=
  (view a.dtype, a.shape, D.astype a.dtype a.bytes)

/-- What is seen of the arrays of a key, by name. -/
def look (arrays : Dict String (NdArray D)) (name : String) : Option (ε × List Nat × List UInt8) :=
  (arrays.get? name).map (seen view)

/-- The sinks hold the same arrays under the same paths, every committed key counted. -/
def SameArrays (m m' : MemorySink Q K (NdArray D) V) : Prop :=
  ∀ path, (m.keysAt N path).map (fun e => look view e.2) =
    (m'.keysAt N path).map fun e => look view e.2

/-- What a digest leaves open is the same in both sinks: the keys whose place is taken hold the
same arrays, the others no two dtypes of one name. -/
structure Settled (m m' : MemorySink Q K (NdArray D) V) : Prop where
  overwritten : ∀ path, (m.overwritten N path).map (fun e => look view e.2) =
    (m'.overwritten N path).map fun e => look view e.2
  dtypes : ∀ path name a a', (m.counted N path).bind (·.get? name) = some a →
    (m'.counted N path).bind (·.get? name) = some a' →
      D.name a.dtype = D.name a'.dtype → view a.dtype = view a'.dtype

end View

/-! ## The dictionary is read back from its hash -/

section Payload

variable {nfc : String → String} {sha256 : List UInt8 → String}

theorem get?_of_normalized {p p' : Dict String Json}
    (h : normalizeJsonValue nfc (.obj p.entries) =
      normalizeJsonValue nfc (.obj p'.entries)) (k : String) :
    (p.get? k).map (normalizeJsonValue nfc) = (p'.get? k).map (normalizeJsonValue nfc) := by
  rw [normalizeJsonValue, normalizeJsonValue, Json.obj.injEq,
    normalizeMembers_eq_map, normalizeMembers_eq_map] at h
  have hmem : ∀ (p : Dict String Json) (v : Json),
      (p.get? k).map (normalizeJsonValue nfc) = some v ↔
        (k, v) ∈ sortByKey (p.entries.map fun e => (e.1, normalizeJsonValue nfc e.2)) := by
    intro p v
    rw [(sortByKey_perm _).mem_iff, List.mem_map, Option.map_eq_some_iff]
    constructor
    · rintro ⟨w, hw, rfl⟩
      exact ⟨(k, w), get?_eq_some_iff.mp hw, rfl⟩
    · rintro ⟨⟨k', w⟩, hw, heq⟩
      obtain ⟨rfl, rfl⟩ := Prod.mk.inj heq
      exact ⟨w, get?_eq_some_iff.mpr hw, rfl⟩
  apply Option.ext
  intro v
  rw [hmem, hmem, h]

/-- **Equal digests are digests of equal dictionaries.** -/
theorem canonicalDigest_inj (hsha : Function.Injective sha256) {p p' : Dict String Json}
    {digest : String} (h : canonicalDigest nfc sha256 p = some digest)
    (h' : canonicalDigest nfc sha256 p' = some digest) (k : String) :
    (p.get? k).map (normalizeJsonValue nfc) = (p'.get? k).map (normalizeJsonValue nfc) := by
  obtain ⟨text, htext, rfl⟩ := map_eq_some_iff.mp h
  obtain ⟨text', htext', heq⟩ := map_eq_some_iff.mp h'
  obtain rfl := utf8_injective (hsha heq)
  have hsorted := dumps_inj htext htext'
  rw [sortKeys_normalizeJsonValue, sortKeys_normalizeJsonValue] at hsorted
  exact get?_of_normalized hsorted k

theorem get?_payload (arrayDigest : A → String) (m : MemorySink Q K A V) (path : String) :
    (m.payload N arrayDigest).get? path = (m.counted N path).map (digests arrayDigest) := by
  unfold payload counted keysAt
  rw [get?_update, get?_empty, Option.or_none, List.filter_map, List.getLast?_map,
    Option.map_map, Option.map_map]
  rfl

theorem digests_inj (hnfc : ∀ b, nfc (sha256 b) = sha256 b) {x y : Dict String (NdArray D)}
    (h : normalizeJsonValue nfc (digests (arrayDigest sha256) x) =
      normalizeJsonValue nfc (digests (arrayDigest sha256) y)) (name : String) :
    (x.get? name).map (arrayDigest sha256) = (y.get? name).map (arrayDigest sha256) := by
  unfold digests at h
  rw [normalizeJsonValue, normalizeJsonValue, Json.obj.injEq,
    normalizeMembers_eq_map, normalizeMembers_eq_map] at h
  have hmem : ∀ (x : Dict String (NdArray D)) (s : String),
      (x.get? name).map (arrayDigest sha256) = some s ↔
        (name, Json.str s) ∈ sortByKey (((sortByKey x.entries).map fun e =>
          (e.1, Json.str (arrayDigest sha256 e.2))).map fun e =>
            (e.1, normalizeJsonValue nfc e.2)) := by
    intro x s
    simp only [(sortByKey_perm _).mem_iff, List.mem_map, Option.map_eq_some_iff]
    constructor
    · rintro ⟨a, ha, rfl⟩
      refine ⟨_, ⟨(name, a), get?_eq_some_iff.mp ha, rfl⟩, ?_⟩
      rw [normalizeJsonValue, arrayDigest, hnfc]
    · rintro ⟨_, ⟨⟨n, a⟩, ha, rfl⟩, heq⟩
      rw [normalizeJsonValue, arrayDigest, hnfc, Prod.mk.injEq, Json.str.injEq] at heq
      obtain ⟨rfl, rfl⟩ := heq
      exact ⟨a, get?_eq_some_iff.mpr ha, rfl⟩
  apply Option.ext
  intro s
  rw [hmem, hmem, h]

theorem arrayDigest_inj (hsha : Function.Injective sha256) {a b : NdArray D}
    (h : arrayDigest sha256 a = arrayDigest sha256 b) : seen D.name a = seen D.name b := by
  have hrecord : updateArrayDigest a ++ [] = updateArrayDigest b ++ [] := by rw [hsha h]
  obtain ⟨hname, hshape, hbytes, -⟩ := updateArrayDigest_name_inj hrecord
  unfold seen
  rw [hname, hshape, hbytes]

end Payload

/-! ## What the digest tells -/

section Tells

variable {nfc : String → String} {sha256 : List UInt8 → String} {spec spec' : Spec V}
  {m m' : MemorySink Q K (NdArray D) V} {r r' : Receipt}

theorem finalize_ok (h : (m.finalize (R := R) N spec nfc (arrayDigest sha256) sha256).2 = .ok r) :
    canonicalDigest nfc sha256 (m.payload N (arrayDigest sha256)) = some r.digest := by
  unfold finalize at h
  split at h
  · cases h
  · split at h
    · cases h
    · cases hd : canonicalDigest nfc sha256 (m.payload N (arrayDigest sha256)) with
      | none =>
        rw [hd] at h
        cases h
      | some digest =>
        rw [hd] at h
        cases h
        rfl

/-- **One digest, one view of the counted keys**: the names of the dtypes, the shapes and the bytes
of all their arrays. -/
theorem counted_of_digest (hsha : Function.Injective sha256) (hnfc : ∀ b, nfc (sha256 b) = sha256 b)
    (h : (m.finalize (R := R) N spec nfc (arrayDigest sha256) sha256).2 = .ok r)
    (h' : (m'.finalize (R := R) N spec' nfc (arrayDigest sha256) sha256).2 = .ok r')
    (hdigest : r.digest = r'.digest) (path : String) :
    (m.counted N path).map (look D.name) = (m'.counted N path).map (look D.name) := by
  have heq := canonicalDigest_inj hsha (finalize_ok N h) (hdigest ▸ finalize_ok N h') path
  rw [get?_payload, get?_payload] at heq
  cases hm : m.counted N path with
  | none =>
    cases hm' : m'.counted N path with
    | none => rfl
    | some y => simp [hm, hm'] at heq
  | some x =>
    cases hm' : m'.counted N path with
    | none => simp [hm, hm'] at heq
    | some y =>
      rw [hm, hm'] at heq
      have hdigests := digests_inj hnfc (some.inj heq)
      have hlook : look D.name x = look D.name y := by
        funext name
        have hname := hdigests name
        unfold look
        cases hx : x.get? name with
        | none =>
          cases hy : y.get? name with
          | none => rfl
          | some b => simp [hx, hy] at hname
        | some a =>
          cases hy : y.get? name with
          | none => simp [hx, hy] at hname
          | some b =>
            rw [hx, hy] at hname
            exact congrArg some (arrayDigest_inj hsha (some.inj hname))
      rw [map_some, map_some, hlook]

theorem map_eq_iff_dropLast {α β : Type} (f : α → β) (l l' : List α) :
    l.map f = l'.map f ↔
      l.dropLast.map f = l'.dropLast.map f ∧ l.getLast?.map f = l'.getLast?.map f := by
  constructor
  · intro h
    constructor
    · rw [map_dropLast, map_dropLast, h]
    · rw [← getLast?_map, ← getLast?_map, h]
  · rintro ⟨hfront, hlast⟩
    rcases eq_nil_or_concat l with rfl | ⟨xs, x, rfl⟩
    · rcases eq_nil_or_concat l' with rfl | ⟨ys, y, rfl⟩
      · rfl
      · simp at hlast
    · rcases eq_nil_or_concat l' with rfl | ⟨ys, y, rfl⟩
      · simp at hlast
      · simp only [concat_eq_append, dropLast_concat, getLast?_concat,
          map_some, some.injEq] at hfront hlast
        simp [hfront, hlast]

theorem look_eq_iff {view : δ → ε} {x y : Dict String (NdArray D)}
    (h : look D.name x = look D.name y) :
    look view x = look view y ↔ ∀ name a b, x.get? name = some a → y.get? name = some b →
      D.name a.dtype = D.name b.dtype → view a.dtype = view b.dtype := by
  constructor
  · intro heq name a b ha hb _
    have hname := congrFun heq name
    unfold look at hname
    rw [ha, hb] at hname
    exact congrArg Prod.fst (some.inj hname)
  · intro hview
    funext name
    have hname := congrFun h name
    unfold look at hname ⊢
    cases hx : x.get? name with
    | none =>
      cases hy : y.get? name with
      | none => rfl
      | some b => simp [hx, hy] at hname
    | some a =>
      cases hy : y.get? name with
      | none => simp [hx, hy] at hname
      | some b =>
        rw [hx, hy] at hname
        have hseen : seen D.name a = seen D.name b := some.inj hname
        have hdtype := hview name a b hx hy (congrArg Prod.fst hseen)
        have hrest : (a.shape, D.astype a.dtype a.bytes) = (b.shape, D.astype b.dtype b.bytes) :=
          congrArg Prod.snd hseen
        exact congrArg some (Prod.ext hdtype hrest)

/-- **Two sinks with one digest hold the same arrays exactly when what the digest leaves open is
the same in both.** -/
theorem sameArrays_iff (view : δ → ε) (hsha : Function.Injective sha256)
    (hnfc : ∀ b, nfc (sha256 b) = sha256 b)
    (h : (m.finalize (R := R) N spec nfc (arrayDigest sha256) sha256).2 = .ok r)
    (h' : (m'.finalize (R := R) N spec' nfc (arrayDigest sha256) sha256).2 = .ok r')
    (hdigest : r.digest = r'.digest) : SameArrays N view m m' ↔ Settled N view m m' := by
  have hcounted := counted_of_digest N hsha hnfc h h' hdigest
  -- the keys that are counted differ in their dtypes only
  have hlast : ∀ path, (m.keysAt N path).getLast?.map (fun e => look view e.2) =
      (m'.keysAt N path).getLast?.map (fun e => look view e.2) ↔
      ∀ name a a', (m.counted N path).bind (·.get? name) = some a →
        (m'.counted N path).bind (·.get? name) = some a' →
          D.name a.dtype = D.name a'.dtype → view a.dtype = view a'.dtype := by
    intro path
    have hview : ∀ m : MemorySink Q K (NdArray D) V,
        (m.keysAt N path).getLast?.map (fun e => look view e.2) =
          (m.counted N path).map (look view) := by
      intro m
      rw [counted, Option.map_map]
      rfl
    rw [hview, hview]
    have hpath := hcounted path
    cases hm : m.counted N path with
    | none =>
      cases hm' : m'.counted N path with
      | none => exact ⟨fun _ => nofun, fun _ => rfl⟩
      | some y => simp [hm, hm'] at hpath
    | some x =>
      cases hm' : m'.counted N path with
      | none => simp [hm, hm'] at hpath
      | some y =>
        rw [hm, hm'] at hpath
        rw [Option.map_some, Option.map_some, Option.some.injEq]
        exact look_eq_iff (Option.some.inj hpath)
  constructor
  · intro hsame
    have hsplit := fun path => (map_eq_iff_dropLast _ _ _).mp (hsame path)
    exact
      { overwritten := fun path => (hsplit path).1
        dtypes := fun path => (hlast path).mp (hsplit path).2 }
  · intro hsettled path
    exact (map_eq_iff_dropLast _ _ _).mpr
      ⟨hsettled.overwritten path, (hlast path).mpr (hsettled.dtypes path)⟩

/-- **What the digest of a memory sink tells.**  Two sinks that any calls lead to and that
`finalize` gives one digest hold the same arrays under the same paths, every committed key
counted, exactly when what the digest leaves open is the same in both. -/
theorem finalize_tells_iff [DecidableEq K] (view : δ → ε) (hsha : Function.Injective sha256)
    (hnfc : ∀ b, nfc (sha256 b) = sha256 b)
    (store store' : Option (NdArray D) → NdArray D → Except R (NdArray D))
    (calls calls' : List (Call Q (NdArray D) V))
    (h : ((after N spec store calls).finalize (R := R) N spec nfc (arrayDigest sha256) sha256).2 =
      .ok r)
    (h' : ((after N spec' store' calls').finalize (R := R) N spec' nfc (arrayDigest sha256)
      sha256).2 = .ok r')
    (hdigest : r.digest = r'.digest) :
    SameArrays N view (after N spec store calls) (after N spec' store' calls') ↔
      Settled N view (after N spec store calls) (after N spec' store' calls') :=
  sameArrays_iff N view hsha hnfc h h' hdigest

end Tells

/-! ## Keys that are written alike -/

namespace Alike

open ZarrDigest.Sample ZarrRecord.OtherWriter

/-- A component of a key. -/
inductive Part
  | str (s : String)
  | int (n : Int)
  deriving DecidableEq

def naming : Naming (List Part) (List Part) where
  ident := id
  parts := List.map fun
    | .str s => s
    | .int n => toString n

def byte (b : UInt8) : NdArray numpy := ⟨.uint8, [1], [b], rfl⟩

def spec : Spec String where
  outputDir := none
  runId := "run"
  seed := none
  provenance := ⟨"run", "now", "unknown", "unknown", "no", "xtrax", "1", none⟩
  append := false
  flushEvery := 1
  extensionSchema := none
  levelSchemas _ := none

def replace : Option (NdArray numpy) → NdArray numpy → Except Empty (NdArray numpy) :=
  fun _ array => .ok array

def staged (key : List Part) (b : UInt8) : Call (List Part) (NdArray numpy) String :=
  .stage key ∅ ((∅ : Dict String (NdArray numpy)).set "x" (byte b))

abbrev sinkAfter (calls : List (Call (List Part) (NdArray numpy) String)) :=
  after naming spec replace calls

/-- The receipt `finalize` returns. -/
def receiptOf (calls : List (Call (List Part) (NdArray numpy) String)) :
    Except (Failure (List Part) Empty) Receipt :=
  ((sinkAfter calls).finalize naming spec id (arrayDigest asText) asText).2

/-- Both keys are written `a/b`, and the digest counts the second: a sink that never saw the first
has the same one. -/
theorem digest_misses_a_key :
    ¬ ∀ (calls calls' : List (Call (List Part) (NdArray numpy) String)) (r : Receipt),
      receiptOf calls = .ok r → receiptOf calls' = .ok r →
        SameArrays naming id (sinkAfter calls) (sinkAfter calls') := by
  intro h
  have hsame := h [staged [.str "a", .str "b"] 1, staged [.str "a/b"] 2] [staged [.str "a/b"] 2] _
    rfl rfl "a/b"
  have htwo : ((sinkAfter [staged [.str "a", .str "b"] 1, staged [.str "a/b"] 2]).keysAt naming
      "a/b").length = 2 := rfl
  have hone : ((sinkAfter [staged [.str "a/b"] 2]).keysAt naming "a/b").length = 1 := rfl
  have hlength := congrArg List.length hsame
  rw [List.length_map, List.length_map, htwo, hone] at hlength
  exact absurd hlength (by decide)

theorem finalize_tells_two_orders :
    SameArrays naming id (sinkAfter [staged [.str "a"] 1, staged [.int 2] 5])
        (sinkAfter [staged [.int 2] 5, staged [.str "a"] 1]) ↔
      Settled naming id (sinkAfter [staged [.str "a"] 1, staged [.int 2] 5])
        (sinkAfter [staged [.int 2] 5, staged [.str "a"] 1]) :=
  have hfirst : receiptOf [staged [.str "a"] 1, staged [.int 2] 5] = .ok _ := rfl
  have hsecond : receiptOf [staged [.int 2] 5, staged [.str "a"] 1] = .ok _ := rfl
  finalize_tells_iff naming id ZarrStagedDigest.Seeded.asText_injective
    (fun b => (rfl : id (asText b) = asText b)) replace replace _ _ hfirst hsecond rfl

end Alike

end Xtrax.StagingBuffer.MemorySink
