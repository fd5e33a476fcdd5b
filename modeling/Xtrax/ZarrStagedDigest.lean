import Xtrax.Dict
import Xtrax.Results
import Xtrax.ZarrRecord

/-! # What the content digest of a durable commit covers

`drain` writes what `stage` buffered for a key as a group of its own, with the sink's `run_id` and
`git_sha` added, and `commit_key` digests that group as the root of a store.

Three lists of attribute names meet here: the ones `stage` refuses, the ones the sink stamps,
and the ones the digest leaves out at a root.  The last has one name more than the first,
`seed`: the digest covers the arrays and every attribute but that one (`digest_eq_iff`).
-/
namespace Xtrax.ZarrStagedDigest

open Dict List ZarrDigest ZarrRecord

variable {δ : Type} {D : Dtypes δ}

/-! ## Staging -/

/-- What is buffered for a key. -/
structure Pending (D : Dtypes δ) where
  arrays : Dict String (NdArray D)
  attrs : Dict String Json

/-- The payload of a call of `stage`, its arrays converted. -/
structure StageCall (D : Dtypes δ) where
  attrs : List (String × Json) := []
  arrays : List (String × NdArray D) := []

inductive StageError where
  /-- Names of core provenance fields. -/
  | reservedFields (collisions : List String)
  | reservedNamespace (reserved : List String)
  /-- What the declared schema says against the attributes. -/
  | schema (errors : List String)

section Stage

-- `_validate_attrs_against_schema` for the key's schema, `[]` without one
variable (violations : Dict String Json → List String)

def validateStageAttrs (pending : Pending D) (attrs : List (String × Json)) :
    Except StageError Unit :=
  let collisions := (coreProvenanceFields.filter (· ∈ attrs.map (·.1))).insertionSort (· ≤ ·)
  let reserved := ((attrs.map (·.1)).filter fun k =>
    reservedAttrPrefix.toList.isPrefixOf k.toList).insertionSort (· ≤ ·)
  let errors := violations (pending.attrs.update attrs)
  if collisions ≠ [] then .error (.reservedFields collisions)
  else if reserved ≠ [] then .error (.reservedNamespace reserved)
  else if errors ≠ [] then .error (.schema errors)
  else .ok ()

/-- `stage`, as far as the payload goes. -/
def stage (pending : Pending D) (call : StageCall D) : Except StageError (Pending D) := do
  let checked :=
    -- `if attrs:`
    if call.attrs.isEmpty then .ok () else validateStageAttrs violations pending call.attrs
  checked
  return { arrays := pending.arrays.update call.arrays, attrs := pending.attrs.update call.attrs }

/-- The payload is what accepted calls of `stage` left in the buffer. -/
def Accepted (p : Pending D) : Prop :=
  ∃ calls : List (StageCall D), calls.foldlM (stage violations) { arrays := ∅, attrs := ∅ } = .ok p

end Stage

/-! ## Draining -/

/-- The two provenance values the sink adds to a group. -/
structure Provenance where
  runId : Json
  gitSha : Json

/-- The attributes `_drain_durable` stages. -/
def Pending.stagedAttrs (p : Pending D) (provenance : Provenance) : Dict String Json :=
  p.attrs.update [("run_id", provenance.runId), ("git_sha", provenance.gitSha)]

/-- `write_staged_group`: the group as it reads back. -/
def Pending.stagedGroup (p : Pending D) (provenance : Provenance) : Node D :=
  .group (p.stagedAttrs provenance).entries (p.arrays.entries.map fun e => (e.1, .array [] e.2))

/-- `zarr_content_digest` of the staged group. -/
def Pending.contentDigest (nfc : String → String) (sha256 : List UInt8 → String)
    (p : Pending D) (provenance : Provenance) : Option String :=
  zarrContentDigest nfc false sha256 (p.stagedGroup provenance)

/-- The staged group once its record is written. -/
def Pending.committedGroup (p : Pending D) (provenance : Provenance) (record : Mapping) : Node D :=
  .group ((p.stagedAttrs provenance).set commitAttr (.obj record)).entries
    (p.arrays.entries.map fun e => (e.1, .array [] e.2))

/-! ## What a payload is -/

section Payload

variable (nfc : String → String)

/-- The value of an attribute, normalized. -/
def Pending.attr (p : Pending D) (k : String) : Option Json :=
  (p.attrs.get? k).map (normalizeJsonValue nfc)

/-- An array up to the order of its bytes: its dtype, its shape and its elements. -/
def arrayContent (a : NdArray D) : δ × List Nat × List UInt8 :=
  (D.newbyteorder a.dtype, a.shape, D.astype a.dtype a.bytes)

def Pending.array (p : Pending D) (k : String) : Option (δ × List Nat × List UInt8) :=
  (p.arrays.get? k).map arrayContent

def SameArrays (p q : Pending D) : Prop := ∀ k, p.array k = q.array k

def SameAttrs (p q : Pending D) : Prop :=
  normalizeJsonValue nfc (.obj p.attrs.entries) = normalizeJsonValue nfc (.obj q.attrs.entries)

end Payload

/-- A name of an array: not empty, without slashes and line breaks. -/
def PlainName (k : String) : Prop := ChildName k ∧ '\n' ∉ k.toList

/-- Arrays of the given dtypes under plain names. -/
def Pending.Plain (numeric : δ → Prop) (p : Pending D) : Prop :=
  ∀ e ∈ p.arrays.entries, PlainName e.1 ∧ numeric e.2.dtype

/-- A dtype's name is the dtype up to byte order. -/
def NumericNames (D : Dtypes δ) (numeric : δ → Prop) : Prop :=
  ∀ d d', numeric d → numeric d' → (D.name d = D.name d' ↔ D.newbyteorder d = D.newbyteorder d')

/-! ## The attributes that are covered -/

/-- No name that `stage` refuses. -/
def Unreserved (p : Pending D) : Prop :=
  ∀ e ∈ p.attrs.entries,
    e.1 ∉ coreProvenanceFields ∧ reservedAttrPrefix.toList.isPrefixOf e.1.toList = false

variable {violations : Dict String Json → List String} {nfc : String → String}
  {numeric : δ → Prop} {p q : Pending D} {provenance provenance' : Provenance}

theorem validateStageAttrs_ok {attrs : List (String × Json)}
    (h : validateStageAttrs violations p attrs = .ok ()) : ∀ e ∈ attrs,
      e.1 ∉ coreProvenanceFields ∧ reservedAttrPrefix.toList.isPrefixOf e.1.toList = false := by
  unfold validateStageAttrs at h
  dsimp only at h
  split at h
  · exact nomatch h
  · next hcollisions =>
    split at h
    · exact nomatch h
    · next hreserved =>
      rw [not_not] at hcollisions hreserved
      have hnone : coreProvenanceFields.filter (· ∈ attrs.map (·.1)) = [] :=
        List.Perm.nil_eq (hcollisions ▸ perm_insertionSort _ _) |>.symm
      have hnone' : (attrs.map (·.1)).filter (fun k =>
          reservedAttrPrefix.toList.isPrefixOf k.toList) = [] :=
        List.Perm.nil_eq (hreserved ▸ perm_insertionSort _ _) |>.symm
      intro e he
      have hkey : e.1 ∈ attrs.map (·.1) := mem_map_of_mem he
      refine ⟨fun hcore => ?_, ?_⟩
      · have := filter_eq_nil_iff.mp hnone e.1 hcore
        exact this (by simpa using hkey)
      · exact Bool.eq_false_iff.mpr (filter_eq_nil_iff.mp hnone' e.1 hkey)

theorem stage_unreserved {call : StageCall D} (hp : Unreserved p)
    (h : stage violations p call = .ok q) : Unreserved q := by
  unfold stage at h
  dsimp only at h
  obtain ⟨⟨⟩, hcheck, h⟩ := Results.bind_eq_ok.mp h
  obtain rfl := Except.ok.inj h
  intro e he
  rcases mem_update he with hnew | hold
  · split at hcheck
    · next hempty => exact absurd hnew (by simp [isEmpty_iff.mp hempty])
    · exact validateStageAttrs_ok hcheck e hnew
  · exact hp e hold

theorem Accepted.unreserved (h : Accepted violations p) : Unreserved p := by
  obtain ⟨calls, h⟩ := h
  exact Results.foldlM_keeps (I := fun _ p => Unreserved p)
    (fun _ _ _ _ hs hstep => stage_unreserved hs hstep) (fun e he => absurd he not_mem_nil) h

theorem mem_kept (hp : Unreserved p) {e : String × Json} :
    (e ∈ (p.stagedAttrs provenance).entries ∧
        (!((excludeKeys false "/").contains e.1) &&
          !(true && reservedAttrPrefix.toList.isPrefixOf e.1.toList)) = true) ↔
      e ∈ p.attrs.entries ∧ e.1 ≠ "seed" := by
  have hexclude : excludeKeys false "/" = coreProvenanceFields ++ rootStampedFields := rfl
  have hmem : e ∈ (p.stagedAttrs provenance).entries ↔ e = ("git_sha", provenance.gitSha) ∨
      (e = ("run_id", provenance.runId) ∨ e ∈ p.attrs.entries ∧ e.1 ≠ "run_id") ∧
        e.1 ≠ "git_sha" := by
    change e ∈ ((p.attrs.set "run_id" provenance.runId).set "git_sha" provenance.gitSha).entries ↔ _
    rw [Dict.mem_set, Dict.mem_set]
  rw [hmem, hexclude, Bool.and_eq_true, Bool.true_and, Bool.not_eq_true', Bool.not_eq_true',
    contains_eq_mem, decide_eq_false_iff_not, mem_append, not_or]
  constructor
  · rintro ⟨rfl | ⟨rfl | ⟨he, -⟩, -⟩, ⟨hcore, hseed⟩, -⟩
    · exact absurd (show "git_sha" ∈ coreProvenanceFields by decide) hcore
    · exact absurd (show "run_id" ∈ coreProvenanceFields by decide) hcore
    · exact ⟨he, fun h => hseed (h ▸ mem_singleton_self _)⟩
  · rintro ⟨he, hseed⟩
    obtain ⟨hcore, hreserved⟩ := hp e he
    refine ⟨.inr ⟨.inr ⟨he, ?_⟩, ?_⟩, ⟨hcore, ?_⟩, hreserved⟩
    · exact fun h => hcore (h ▸ by decide)
    · exact fun h => hcore (h ▸ by decide)
    · exact fun h => hseed (mem_singleton.mp h)

/-- Normalized members in the order of their keys are equal when each is among the others. -/
theorem normalizeMembers_eq_iff {kvs kws : List (String × Json)}
    (hkvs : kvs.Pairwise fun a b => a.1 ≤ b.1) (hkws : kws.Pairwise fun a b => a.1 ≤ b.1)
    (hkeys : (kvs.map (·.1)).Nodup) (hkeys' : (kws.map (·.1)).Nodup) :
    normalizeMembers nfc kvs = normalizeMembers nfc kws ↔
      ∀ k v, (∃ w, (k, w) ∈ kvs ∧ normalizeJsonValue nfc w = v) ↔
        ∃ w, (k, w) ∈ kws ∧ normalizeJsonValue nfc w = v := by
  have hmem : ∀ {l : List (String × Json)} {k v}, (k, v) ∈ normalizeMembers nfc l ↔
      ∃ w, (k, w) ∈ l ∧ normalizeJsonValue nfc w = v := by
    intro l k v
    rw [normalizeMembers_eq_map, mem_map]
    constructor
    · rintro ⟨⟨_, w⟩, hw, heq⟩
      obtain ⟨rfl, rfl⟩ := Prod.mk.inj heq
      exact ⟨w, hw, rfl⟩
    · rintro ⟨w, hw, rfl⟩
      exact ⟨(k, w), hw, rfl⟩
  have hnodup : ∀ {l : List (String × Json)}, (l.map (·.1)).Nodup →
      ((normalizeMembers nfc l).map (·.1)).Nodup := by
    intro l hl
    rwa [normalizeMembers_eq_map, map_map]
  have hsorted : ∀ {l : List (String × Json)}, l.Pairwise (fun a b => a.1 ≤ b.1) →
      (normalizeMembers nfc l).Pairwise fun a b => a.1 ≤ b.1 := by
    intro l hl
    rw [normalizeMembers_eq_map]
    exact pairwise_map.mpr hl
  constructor
  · intro h k v
    rw [← hmem, ← hmem, h]
  · intro h
    refine eq_of_sorted (hsorted hkvs) (hsorted hkws) (hnodup hkeys) ?_
    refine (perm_ext_iff_of_nodup (List.Nodup.of_map _ (hnodup hkeys))
      (List.Nodup.of_map _ (hnodup hkeys'))).mpr ?_
    rintro ⟨k, v⟩
    rw [hmem, hmem, h]

theorem attr_eq_some {k : String} {v : Json} : p.attr nfc k = some v ↔
    ∃ w, (k, w) ∈ p.attrs.entries ∧ normalizeJsonValue nfc w = v := by
  rw [Pending.attr, Option.map_eq_some_iff]
  exact exists_congr fun w => and_congr_left' get?_eq_some_iff

theorem attr_eq_iff {k : String} : p.attr nfc k = q.attr nfc k ↔
    ∀ v, (∃ w, (k, w) ∈ p.attrs.entries ∧ normalizeJsonValue nfc w = v) ↔
      ∃ w, (k, w) ∈ q.attrs.entries ∧ normalizeJsonValue nfc w = v := by
  constructor
  · intro h v
    rw [← attr_eq_some, ← attr_eq_some, h]
  · intro h
    refine Option.ext fun v => ?_
    rw [attr_eq_some, attr_eq_some, h]

theorem sameAttrs_iff : SameAttrs nfc p q ↔ ∀ k, p.attr nfc k = q.attr nfc k := by
  have hsort : ∀ l : List (String × Json), normalizeJsonValue nfc (.obj l) =
      .obj (normalizeMembers nfc (sortByKey l)) := by
    intro l
    rw [normalizeJsonValue, normalizeMembers_eq_map, normalizeMembers_eq_map,
      sortByKey_map fun _ v => normalizeJsonValue nfc v]
  unfold SameAttrs
  rw [hsort, hsort, Json.obj.injEq, normalizeMembers_eq_iff (sortByKey_sorted _)
    (sortByKey_sorted _) (sortByKey_keys_nodup p.attrs.nodup)
    (sortByKey_keys_nodup q.attrs.nodup)]
  refine forall_congr' fun k => ?_
  rw [attr_eq_iff]
  simp only [(sortByKey_perm _).mem_iff]

/-- **The digest's attributes of a staged group** are the caller's but for `seed`. -/
theorem attrsPayload_eq_iff (hp : Unreserved p) (hq : Unreserved q) :
    attrsPayload nfc (excludeKeys false "/") true (p.stagedAttrs provenance).entries =
        attrsPayload nfc (excludeKeys false "/") true (q.stagedAttrs provenance').entries ↔
      ∀ k, k ≠ "seed" → p.attr nfc k = q.attr nfc k := by
  unfold attrsPayload
  rw [Json.obj.injEq, normalizeMembers_eq_iff ((sortByKey_sorted _).filter _)
    ((sortByKey_sorted _).filter _)
    ((sortByKey_keys_nodup (p.stagedAttrs provenance).nodup).sublist (filter_sublist.map _))
    ((sortByKey_keys_nodup (q.stagedAttrs provenance').nodup).sublist (filter_sublist.map _))]
  simp only [mem_filter, (sortByKey_perm _).mem_iff, mem_kept hp, mem_kept hq]
  refine forall_congr' fun k => ?_
  rw [attr_eq_iff]
  by_cases hseed : k = "seed"
  · simp [hseed]
  · simp [hseed]

/-! ## What the digest of a staged group tells -/

section Digest

variable {sha256 : List UInt8 → String}

theorem array_eq_some {k : String} {c : δ × List Nat × List UInt8} : p.array k = some c ↔
    ∃ a, (k, a) ∈ p.arrays.entries ∧ arrayContent a = c := by
  rw [Pending.array, Option.map_eq_some_iff]
  exact exists_congr fun a => and_congr_left' get?_eq_some_iff

theorem array_eq_some_iff_holds {k : String} {dtype : δ} {shape : List Nat}
    {bytes : List UInt8} : p.array k = some (dtype, shape, bytes) ↔
      (p.stagedGroup provenance).Holds nfc false [k]
        (.array (attrsPayload nfc [] true []) dtype shape bytes) := by
  rw [array_eq_some]
  constructor
  · rintro ⟨a, ha, hcontent⟩
    injection hcontent with hdtype hrest
    injection hrest with hshape hbytes
    refine ⟨.array [] a, ⟨.array [] a, mem_map.mpr ⟨(k, a), ha, rfl⟩, rfl⟩, ?_⟩
    rw [Node.entry, hdtype, hshape, hbytes]
    rfl
  · rintro ⟨n, ⟨c, hc, hn⟩, hentry⟩
    obtain ⟨⟨_, a⟩, ha, heq⟩ := mem_map.mp hc
    obtain ⟨rfl, rfl⟩ := Prod.mk.inj heq
    obtain rfl : n = .array [] a := hn
    injection hentry with _ hdtype hshape hbytes
    exact ⟨a, ha, Prod.ext hdtype (Prod.ext hshape hbytes)⟩

theorem over_children {l : List (String × NdArray D)}
    (hl : ∀ e ∈ l, PlainName e.1 ∧ numeric e.2.dtype) :
    OverChildren PlainName numeric (l.map fun e => (e.1, Node.array [] e.2)) := by
  induction l with
  | nil => trivial
  | cons e l ih =>
    obtain ⟨hname, hdtype⟩ := hl e mem_cons_self
    exact ⟨hname, hdtype, ih fun e' he' => hl e' (mem_cons_of_mem _ he')⟩

theorem separated_plainName : Separated PlainName := by
  rintro x n - hn ⟨t, ht⟩
  refine hn.2 ?_
  rw [← ht]
  simp

theorem same_of_digest_eq (hsha : Function.Injective sha256) (hdtypes : NumericNames D numeric)
    (hp : Unreserved p) (hq : Unreserved q) (hplain : p.Plain numeric) (hplain' : q.Plain numeric)
    {h : String} (hdigest : p.contentDigest nfc sha256 provenance = some h)
    (hdigest' : q.contentDigest nfc sha256 provenance' = some h) :
    SameArrays p q ∧ ∀ k, k ≠ "seed" → p.attr nfc k = q.attr nfc k := by
  have hnames : ∀ k, PlainName k → ChildName k := fun _ hk => hk.1
  have hover : (p.stagedGroup provenance).Over PlainName numeric := over_children hplain
  have hover' : (q.stagedGroup provenance').Over PlainName numeric := over_children hplain'
  obtain ⟨b, hb, rfl⟩ := zarrContentDigest_eq_some nfc false hnames hover hdigest
  obtain ⟨c, hc, hcb⟩ := zarrContentDigest_eq_some nfc false hnames hover' hdigest'
  obtain rfl := hsha hcb
  have hrecords := recordAll_inj nfc false hnames separated_plainName
    (fun d d' hd hd' => (hdtypes d d' hd hd').mp) (known_walkOrder hover) (known_walkOrder hover')
    hb hc
  have hholds : ∀ path e, (p.stagedGroup provenance).Holds nfc false path e ↔
      (q.stagedGroup provenance').Holds nfc false path e := by
    intro path e
    rw [holds_iff_mem_walkOrder, holds_iff_mem_walkOrder, hrecords]
  refine ⟨fun k => Option.ext fun ⟨dtype, shape, bytes⟩ => ?_, ?_⟩
  · rw [array_eq_some_iff_holds, hholds, ← array_eq_some_iff_holds]
  · obtain ⟨n, hn, hentry⟩ := (hholds [] _).mp ⟨p.stagedGroup provenance, rfl, rfl⟩
    obtain rfl : n = q.stagedGroup provenance' := hn
    injection hentry with hattrs
    exact (attrsPayload_eq_iff hp hq).mp hattrs.symm

theorem updateChildren_eq_map (nfc : String → String) (includeProvenance : Bool)
    (cs : List (String × Node D)) (path : String) :
    updateChildren nfc includeProvenance cs path = cs.map fun e =>
      (e.1, updateZarrNodeDigest nfc includeProvenance e.2 (path ++ "/" ++ e.1)) := by
  induction cs with
  | nil => rfl
  | cons e cs ih => rw [updateChildren, ih, map_cons]

theorem updateZarrNodeDigest_array (hdtypes : NumericNames D numeric) {a b : NdArray D}
    (ha : numeric a.dtype) (hb : numeric b.dtype) (hcontent : arrayContent a = arrayContent b)
    (path : String) :
    updateZarrNodeDigest nfc false (.array [] a) path =
      updateZarrNodeDigest nfc false (.array [] b) path := by
  injection hcontent with hdtype hrest
  injection hrest with hshape hbytes
  have hname := (hdtypes _ _ ha hb).mpr hdtype
  rw [updateZarrNodeDigest, updateZarrNodeDigest, updateArrayDigest, updateArrayDigest, hname,
    hshape, hbytes]

theorem mem_folded {e : String × Option (List UInt8)} :
    e ∈ updateChildren nfc false (p.arrays.entries.map fun e => (e.1, Node.array [] e.2)) "/" ↔
      ∃ a, (e.1, a) ∈ p.arrays.entries ∧
        updateZarrNodeDigest nfc false (.array [] a) ("/" ++ "/" ++ e.1) = e.2 := by
  rw [updateChildren_eq_map, map_map, mem_map]
  constructor
  · rintro ⟨⟨k, a⟩, ha, rfl⟩
    exact ⟨a, ha, rfl⟩
  · rintro ⟨a, ha, heq⟩
    exact ⟨(e.1, a), ha, Prod.ext rfl heq⟩

theorem folded_subset (hdtypes : NumericNames D numeric) (hplain : p.Plain numeric)
    (hplain' : q.Plain numeric) (hsame : SameArrays p q) {e : String × Option (List UInt8)}
    (he : e ∈ updateChildren nfc false
      (p.arrays.entries.map fun e => (e.1, Node.array [] e.2)) "/") :
    e ∈ updateChildren nfc false (q.arrays.entries.map fun e => (e.1, Node.array [] e.2)) "/" := by
  obtain ⟨a, ha, hfold⟩ := mem_folded.mp he
  have harray : q.array e.1 = some (arrayContent a) :=
    (hsame e.1).symm.trans (array_eq_some.mpr ⟨a, ha, rfl⟩)
  obtain ⟨b, hb, hcontent⟩ := array_eq_some.mp harray
  refine mem_folded.mpr ⟨b, hb, ?_⟩
  rw [← hfold]
  exact updateZarrNodeDigest_array hdtypes (hplain' _ hb).2 (hplain _ ha).2 hcontent _

theorem digest_eq_of_same (hdtypes : NumericNames D numeric) (hp : Unreserved p)
    (hq : Unreserved q) (hplain : p.Plain numeric) (hplain' : q.Plain numeric)
    (harrays : SameArrays p q) (hattrs : ∀ k, k ≠ "seed" → p.attr nfc k = q.attr nfc k) :
    p.contentDigest nfc sha256 provenance = q.contentDigest nfc sha256 provenance' := by
  have hkeys : ∀ r : Pending D, ((updateChildren nfc false
      (r.arrays.entries.map fun e => (e.1, Node.array [] e.2)) "/").map (·.1)).Nodup := by
    intro r
    rw [updateChildren_eq_map, map_map, map_map]
    exact r.arrays.nodup
  have hfolded : sortByKey (updateChildren nfc false
        (p.arrays.entries.map fun e => (e.1, Node.array [] e.2)) "/") =
      sortByKey (updateChildren nfc false
        (q.arrays.entries.map fun e => (e.1, Node.array [] e.2)) "/") := by
    refine sortByKey_of_perm ?_ (hkeys p)
    refine (perm_ext_iff_of_nodup (List.Nodup.of_map _ (hkeys p))
      (List.Nodup.of_map _ (hkeys q))).mpr fun e => ⟨?_, ?_⟩
    · exact folded_subset hdtypes hplain hplain' harrays
    · exact folded_subset hdtypes hplain' hplain fun k => (harrays k).symm
  have hpayload : attrsPayload nfc (excludeKeys false "/") true (p.stagedAttrs provenance).entries =
      attrsPayload nfc (excludeKeys false "/") true (q.stagedAttrs provenance').entries :=
    (attrsPayload_eq_iff hp hq).mpr hattrs
  change (updateZarrNodeDigest nfc false (p.stagedGroup provenance) "/").map sha256 =
    (updateZarrNodeDigest nfc false (q.stagedGroup provenance') "/").map sha256
  rw [Pending.stagedGroup, Pending.stagedGroup, updateZarrNodeDigest, updateZarrNodeDigest,
    hfolded, Bool.not_false, hpayload]

/-- **What a digest of a staged group tells**: the arrays, and the attributes but `seed`. -/
theorem digest_eq_iff (hsha : Function.Injective sha256) (hdtypes : NumericNames D numeric)
    (hp : Unreserved p) (hq : Unreserved q) (hplain : p.Plain numeric) (hplain' : q.Plain numeric)
    {h h' : String} (hdigest : p.contentDigest nfc sha256 provenance = some h)
    (hdigest' : q.contentDigest nfc sha256 provenance' = some h') :
    h = h' ↔ SameArrays p q ∧ ∀ k, k ≠ "seed" → p.attr nfc k = q.attr nfc k := by
  constructor
  · rintro rfl
    exact same_of_digest_eq hsha hdtypes hp hq hplain hplain' hdigest hdigest'
  · rintro ⟨harrays, hattrs⟩
    have hsame : p.contentDigest nfc sha256 provenance = q.contentDigest nfc sha256 provenance' :=
      digest_eq_of_same hdtypes hp hq hplain hplain' harrays hattrs
    exact Option.some.inj (hdigest.symm.trans (hsame.trans hdigest'))

theorem contentDigest_committedGroup (record : Mapping) :
    zarrContentDigest nfc false sha256 (p.committedGroup provenance record) =
      p.contentDigest nfc sha256 provenance := by
  have hreserved : reservedAttrPrefix.toList.isPrefixOf commitAttr.toList = true := by decide
  have hpayload : attrsPayload nfc (excludeKeys false "/") true
        ((p.stagedAttrs provenance).set commitAttr (.obj record)).entries =
      attrsPayload nfc (excludeKeys false "/") true (p.stagedAttrs provenance).entries := by
    unfold attrsPayload
    rw [Json.obj.injEq, normalizeMembers_eq_iff ((sortByKey_sorted _).filter _)
      ((sortByKey_sorted _).filter _)
      ((sortByKey_keys_nodup (nodup _)).sublist (filter_sublist.map _))
      ((sortByKey_keys_nodup (nodup _)).sublist (filter_sublist.map _))]
    intro k v
    refine exists_congr fun w => and_congr_left' ?_
    rw [mem_filter, mem_filter, (sortByKey_perm _).mem_iff, (sortByKey_perm _).mem_iff,
      Dict.mem_set]
    refine and_congr_left fun hkept => ⟨?_, fun hmem => .inr ⟨hmem, ?_⟩⟩
    · rintro (heq | ⟨hmem, -⟩)
      · rw [heq, hreserved] at hkept
        simp at hkept
      · exact hmem
    · rintro rfl
      rw [hreserved] at hkept
      simp at hkept
  change (updateZarrNodeDigest nfc false (p.committedGroup provenance record) "/").map sha256 =
    (updateZarrNodeDigest nfc false (p.stagedGroup provenance) "/").map sha256
  rw [Pending.committedGroup, Pending.stagedGroup, updateZarrNodeDigest, updateZarrNodeDigest,
    Bool.not_false, hpayload]

end Digest

/-! ## What is covered -/

/-- The outcome of `zarr_content_digest`, for `commit_key`: a value without JSON text raises a
`ValueError`. -/
def outcomeOf : Option String → Content
  | some digest => .digest digest
  | none => .damaged "ValueError"

/-- Equal digests mean equal payloads, and so does a verified duplicate of the one at a key where
the other was committed. -/
structure Covers (nfc : String → String) (sha256 : List UInt8 → String) (p q : Pending D)
    (provenance provenance' : Provenance) : Prop where
  digests : p.contentDigest nfc sha256 provenance = q.contentDigest nfc sha256 provenance' →
    SameArrays p q ∧ SameAttrs nfc p q
  duplicates : ∀ (content : Dir → Content) (target : Dir) (record : Mapping) (args : CommitArgs)
    (existing : CommitRecord),
    content target = outcomeOf
        (zarrContentDigest nfc false sha256 (p.committedGroup provenance record)) →
      args.staged = outcomeOf (q.contentDigest nfc sha256 provenance') →
      args.verifyDuplicate = true →
      onExisting nfc sha256 content target args = .ok (.duplicate existing) →
      SameArrays p q ∧ SameAttrs nfc p q

/-- Payloads that agree on everything else agree on `seed`. -/
def SeedTold (nfc : String → String) (p q : Pending D) : Prop :=
  SameArrays p q → (∀ k, k ≠ "seed" → p.attr nfc k = q.attr nfc k) →
    p.attr nfc "seed" = q.attr nfc "seed"

/-- **The digest covers a pair of payloads** exactly when they do not differ in `seed`
alone. -/
theorem covers_iff {sha256 : List UInt8 → String} (hsha : Function.Injective sha256)
    (hdtypes : NumericNames D numeric) (hp : Accepted violations p) (hq : Accepted violations q)
    (hplain : p.Plain numeric) (hplain' : q.Plain numeric) {h h' : String}
    (hdigest : p.contentDigest nfc sha256 provenance = some h)
    (hdigest' : q.contentDigest nfc sha256 provenance' = some h') :
    Covers nfc sha256 p q provenance provenance' ↔ SeedTold nfc p q := by
  have hiff := digest_eq_iff hsha hdtypes hp.unreserved hq.unreserved hplain hplain' hdigest
    hdigest'
  constructor
  · intro hcovers harrays hattrs
    have hsame : h = h' := hiff.mpr ⟨harrays, hattrs⟩
    exact sameAttrs_iff.mp (hcovers.digests (by rw [hdigest, hdigest', hsame])).2 "seed"
  · intro hseed
    have hpayload : h = h' → SameArrays p q ∧ SameAttrs nfc p q := by
      intro hsame
      obtain ⟨harrays, hattrs⟩ := hiff.mp hsame
      refine ⟨harrays, sameAttrs_iff.mpr fun k => ?_⟩
      by_cases hk : k = "seed"
      · rw [hk]
        exact hseed harrays hattrs
      · exact hattrs k hk
    refine ⟨fun hsame => hpayload ?_, ?_⟩
    · exact Option.some.inj (hdigest.symm.trans (hsame.trans hdigest'))
    · intro content target record args existing hcontent hstaged hverify hduplicate
      obtain ⟨digest, hs, hc⟩ := duplicate_content hverify hduplicate
      rw [contentDigest_committedGroup, hdigest, hc] at hcontent
      rw [hdigest', hs] at hstaged
      exact hpayload ((Content.digest.inj hcontent).symm.trans (Content.digest.inj hstaged))

namespace Seeded
open ZarrDigest.Sample ZarrRecord.OtherWriter

theorem asText_injective : Function.Injective asText := by
  intro bytes bytes' h
  have hchar : Function.Injective fun b : UInt8 => Char.ofNat b.toNat := by
    intro b b' h
    have hval := congrArg Char.toNat h
    have hsmall : ∀ b : UInt8, (Char.ofNat b.toNat).toNat = b.toNat := by
      intro b
      rw [Char.toNat_ofNat, if_pos (.inl (by have := b.toNat_lt; omega))]
    dsimp only at hval
    rw [hsmall, hsmall] at hval
    exact UInt8.toNat_inj.mp hval
  exact map_injective_iff.mpr hchar (String.ofList_injective h)

def call (seed : Int) : StageCall numpy where
  attrs := [("seed", .int seed)]
  arrays := [("a", ⟨.uint8, [1], [7], rfl⟩)]

def payload (seed : Int) : Pending numpy where
  arrays := Dict.update ∅ (call seed).arrays
  attrs := Dict.update ∅ (call seed).attrs

def run : Provenance where
  runId := .str "r"
  gitSha := .str "g"

theorem accepted (seed : Int) : Accepted (fun _ => []) (payload seed) := by
  have hfields : (coreProvenanceFields.filter (· ∈ ["seed"])).insertionSort (· ≤ ·) = [] := by
    decide
  have hnamespace : (["seed"].filter fun k =>
      reservedAttrPrefix.toList.isPrefixOf k.toList).insertionSort (· ≤ ·) = [] := by
    decide
  have hcheck : validateStageAttrs (fun _ => []) ({ arrays := ∅, attrs := ∅ } : Pending numpy)
      (call seed).attrs = .ok () := by
    have hnames : (call seed).attrs.map (·.1) = ["seed"] := rfl
    unfold validateStageAttrs
    dsimp only
    rw [hnames, if_neg fun h => h hfields, if_neg fun h => h hnamespace, if_neg fun h => h rfl]
  refine ⟨[call seed], ?_⟩
  change (validateStageAttrs (fun _ => []) ({ arrays := ∅, attrs := ∅ } : Pending numpy)
    (call seed).attrs >>= fun _ => .ok (payload seed)) >>= pure = _
  rw [hcheck]
  rfl

theorem plain (seed : Int) : (payload seed).Plain (· = Dtype.uint8) := by
  intro e he
  obtain rfl := mem_singleton.mp he
  exact ⟨⟨⟨by decide, by decide⟩, by decide⟩, rfl⟩

/-- Two seeds, one digest. -/
theorem covers_not_always :
    Accepted (fun _ => []) (payload 1) ∧ Accepted (fun _ => []) (payload 2) ∧
      (payload 1).Plain (· = Dtype.uint8) ∧ (payload 2).Plain (· = Dtype.uint8) ∧
      (payload 1).contentDigest id asText run = (payload 2).contentDigest id asText run ∧
      ((payload 1).contentDigest id asText run).isSome = true ∧
      ¬ SameAttrs id (payload 1) (payload 2) := by
  refine ⟨accepted 1, accepted 2, plain 1, plain 2, rfl, rfl, fun hsame => ?_⟩
  have hseed : (payload 1).attr id "seed" = (payload 2).attr id "seed" :=
    sameAttrs_iff.mp hsame "seed"
  injection hseed with hint
  injection hint with hint
  exact absurd hint (by decide)

/-- The criterion at two seeds. -/
theorem covers_iff_seeds :
    Covers id asText (payload 1) (payload 2) run run ↔ SeedTold id (payload 1) (payload 2) :=
  covers_iff asText_injective (by rintro d d' rfl rfl; exact ⟨fun _ => rfl, fun _ => rfl⟩)
    (accepted 1) (accepted 2) (plain 1) (plain 2) rfl rfl

end Seeded

end Xtrax.ZarrStagedDigest
