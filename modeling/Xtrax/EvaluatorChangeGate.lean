import Xtrax.ClosureLock
import Xtrax.Gates

/-!
# Approvals of a changed evaluator

A changed evaluator is trusted after a sign-off for its closure hash.  Of several sign-offs the
check takes the one whose `attested_at` is the greatest text, and judges its freshness at the
instant that the text stands for.  Texts with offsets are not ordered as their instants are, and a
text that is no timestamp may be the greatest: the check does what it says just when the greatest
texts speak for the latest sign-offs (`approves_iff`).
-/

namespace Xtrax.EvaluatorChange

open Except List Freshness Toml FirstMatch Gates

structure GateEntry (F : Type) where
  attestedAt : String
  ttlDays : F
  attestedBy : String
  note : String

/-- The gates file: its bytes may not be UTF-8, and `tomllib` may fail on its text. -/
inductive GatesFile (F : Type)
  | missing
  | undecodable
  | invalid
  | document (data : Entries F)

inductive GateError (F : Type)
  /-- `NoMatchingApprovalError`; `malformed` where entries match and none converts. -/
  | noMatchingApproval (malformed : Bool)
  | approvalExpired (reasons : List (Reason F))
  | raised (e : PyError)

section

variable {F : Type} [PyFloat F]
  /- `str` of a value that is no text; none for a `ValueError`. -/
  (strOther : Value F → Option String) (world : World)

def loadGates : GatesFile F → Except PyError (List (Value F))
  | .missing => .ok []
  | .undecodable => .error .value
  | .invalid => .ok []
  | .document data =>
    match gatesOf data with
    | .array gates => .ok (gates.filter isTable)
    | _ => .ok []

def str : Value F → Option String
  | .text s => some s
  | v => strOther v

/-- `_to_gate_entry`.  A missing key, a value of the wrong type and one that does not convert are
caught, an `OverflowError` is not. -/
def toGateEntry (raw : Entries F) : Except PyError (Option (GateEntry F)) :=
  match (raw.lookup "attested_at").bind (str strOther), raw.lookup "ttl_days" with
  | some attestedAt, some ttl =>
    match toFloat ttl with
    | .error .overflow => .error .overflow
    | .error _ => .ok none
    | .ok ttlDays =>
      match (raw.lookup "attested_by").bind (str strOther),
        str strOther (get raw "note" (.text "")) with
      | some attestedBy, some note => .ok (some ⟨attestedAt, ttlDays, attestedBy, note⟩)
      | _, _ => .ok none
  | _, _ => .ok none

/-- The list of the entries that convert. -/
def toGateEntries : List (Value F) → Except PyError (List (GateEntry F))
  | [] => .ok []
  | .table raw :: rest =>
    match toGateEntry strOther raw with
    | .error e => .error e
    | .ok none => toGateEntries rest
    | .ok (some entry) => (toGateEntries rest).map (entry :: ·)
  | _ :: rest => toGateEntries rest

/-- `max(entries, key=lambda e: e.attested_at)`: the first of the greatest. -/
def mostRecent (first : GateEntry F) (rest : List (GateEntry F)) : GateEntry F :=
  rest.foldl (fun best e => if best.attestedAt < e.attestedAt then e else best) first

def GateEntry.attestation (entry : GateEntry F) : Attestation F where
  attestedAt := .text entry.attestedAt
  ttlDays := .float entry.ttlDays
  attestedBy := .text entry.attestedBy
  note := .text entry.note

def ifFresh (attestation : Attestation F) : Except (GateError F) (Attestation F) :=
  match evaluateFreshness world attestation none none none none with
  | .error e => .error (.raised e)
  | .ok verdict => if verdict.fresh then .ok attestation else .error (.approvalExpired verdict.reasons)

def assertEvaluatorChangeApproved {Config : Type} (newLocked : ClosureLock.ClosureManifest Config String)
    (file : GatesFile F) : Except (GateError F) (Attestation F) :=
  match loadGates file with
  | .error e => .error (.raised e)
  | .ok gates =>
    let found := gates.filter (carries "T2-29" newLocked.closureHash)
    if found.isEmpty then .error (.noMatchingApproval false)
    else
      match toGateEntries strOther found with
      | .error e => .error (.raised e)
      | .ok [] => .error (.noMatchingApproval true)
      | .ok (first :: rest) => ifFresh world (mostRecent first rest).attestation

/-! ### What a sign-off is -/

/-- The instant a timestamp stands for; without an offset it is in UTC. -/
def Moment.instant (m : Moment) : Int := m.naive - m.offset.getD 0

variable (closureHash : String) (gates : List (Value F))

/-- An entry for the closure hash that converts. -/
def Converted (e : GateEntry F) : Prop :=
  ∃ raw, Value.table raw ∈ gates ∧ carries "T2-29" closureHash (Value.table raw) = true ∧
    toGateEntry strOther raw = .ok (some e)

/-- A well-formed sign-off of the closure hash, and its moment. -/
def SignOff (e : GateEntry F) (m : Moment) : Prop :=
  Converted strOther closureHash gates e ∧ world.fromisoformat e.attestedAt = some m

/-- No sign-off is of a later instant. -/
def Latest (e : GateEntry F) (m : Moment) : Prop :=
  SignOff strOther world closureHash gates e m ∧
    ∀ e' m', SignOff strOther world closureHash gates e' m' → Moment.instant m' ≤ Moment.instant m

/-- The age of a moment in days, nothing for one that is yet to come. -/
def age (m : Moment) : F :=
  let days : F := PyFloat.days (world.clock - Moment.instant m)
  if PyFloat.lt days (PyFloat.zero : F) then PyFloat.zero else days

/-- The age of the moment is within the TTL, or TTLs are switched off. -/
def WithinTtl (e : GateEntry F) (m : Moment) : Prop :=
  envEnabled world skipTtlEnvVar true = true → PyFloat.lt e.ttlDays (age world m : F) = false

/-- Whatever the order of the entries and whatever the other entries, the check returns an
attestation when that is the attestation of a latest sign-off within its TTL, and only then. -/
def Approves {Config : Type} (newLocked : ClosureLock.ClosureManifest Config String) : Prop :=
  ∀ (data' : Entries F) (gates' : List (Value F)), gatesOf data' = .array gates' →
    SameWanted (carries "T2-29" newLocked.closureHash) gates gates' → ∀ a,
      (assertEvaluatorChangeApproved strOther world newLocked (.document data') = .ok a ↔
        ∃ e m, Latest strOther world newLocked.closureHash gates e m ∧ WithinTtl world e m ∧
          a = e.attestation)

/-! ### When the greatest text speaks for the latest instant -/

/-- No TTL of an entry for the closure hash is too large for a float. -/
def NoOverflow : Prop :=
  ∀ raw, Value.table raw ∈ gates → carries "T2-29" closureHash (Value.table raw) = true →
    (toGateEntry strOther raw).isOk = true

/-- No entry that converts has a greater text. -/
def Greatest (e : GateEntry F) : Prop :=
  Converted strOther closureHash gates e ∧
    ∀ e', Converted strOther closureHash gates e' → e'.attestedAt ≤ e.attestedAt

/-- `evaluate_freshness` takes the entry for fresh. -/
def Accepted (e : GateEntry F) : Prop := freshOf world none (.ok e.attestation) = some true

/-- The greatest texts speak for the latest sign-offs: entries with the greatest text carry what a
latest sign-off within its TTL carries, and are accepted just when there is one. -/
structure Settled : Prop where
  latest : ∀ e m, Latest strOther world closureHash gates e m → WithinTtl world e m →
    NoOverflow strOther closureHash gates ∧
      ∀ top, Greatest strOther closureHash gates top →
        top.attestation = e.attestation ∧ Accepted world top
  accepted : NoOverflow strOther closureHash gates →
    ∀ top, Greatest strOther closureHash gates top → Accepted world top →
      ∃ e m, Latest strOther world closureHash gates e m ∧ WithinTtl world e m

variable {strOther world closureHash gates} {gates' : List (Value F)}

omit [PyFloat F] in
theorem mem_of_sameWanted
    (h : SameWanted (carries "T2-29" closureHash) gates gates') {raw : Entries F} :
    Value.table raw ∈ gates ∧ carries "T2-29" closureHash (Value.table raw) = true ↔
      Value.table raw ∈ gates' ∧ carries "T2-29" closureHash (Value.table raw) = true := by
  rw [← mem_filter, ← mem_filter]
  exact List.Perm.mem_iff h

theorem converted_congr (h : SameWanted (carries "T2-29" closureHash) gates gates')
    {e : GateEntry F} :
    Converted strOther closureHash gates e ↔ Converted strOther closureHash gates' e := by
  unfold Converted
  simp only [← and_assoc, mem_of_sameWanted h]

theorem greatest_congr (h : SameWanted (carries "T2-29" closureHash) gates gates')
    {e : GateEntry F} :
    Greatest strOther closureHash gates e ↔ Greatest strOther closureHash gates' e := by
  unfold Greatest
  simp only [converted_congr h]

theorem noOverflow_congr (h : SameWanted (carries "T2-29" closureHash) gates gates') :
    NoOverflow strOther closureHash gates ↔ NoOverflow strOther closureHash gates' := by
  unfold NoOverflow
  simp only [← and_imp, mem_of_sameWanted h]

/-! ### What the check does -/

variable (strOther) in
/-- The entry that a value converts to. -/
def entryOf : Value F → Option (GateEntry F)
  | .table raw => (toGateEntry strOther raw).toOption.bind id
  | _ => none

theorem entryOf_table {raw : Entries F} {e : GateEntry F} :
    entryOf strOther (.table raw) = some e ↔ toGateEntry strOther raw = .ok (some e) := by
  rw [entryOf]
  cases hraw : toGateEntry strOther raw with
  | error err => simp [Except.toOption]
  | ok entry => simp [Except.toOption]

theorem toGateEntries_ok : ∀ {found : List (Value F)},
    (∀ raw, Value.table raw ∈ found → (toGateEntry strOther raw).isOk = true) →
    toGateEntries strOther found = .ok (found.filterMap (entryOf strOther)) := by
  intro found
  induction found with
  | nil => intro _; rfl
  | cons gate rest ih =>
    intro hok
    have hrest := ih fun raw hraw => hok raw (mem_cons_of_mem _ hraw)
    cases gate with
    | table raw =>
      have hraw := hok raw mem_cons_self
      cases hentry : toGateEntry strOther raw with
      | error e => simp [hentry, Except.isOk, Except.toBool] at hraw
      | ok entry =>
        cases entry with
        | none =>
          have hnone : entryOf strOther (.table raw) = none := by
            rw [entryOf, hentry]
            rfl
          rw [filterMap_cons_none hnone, ← hrest]
          simp only [toGateEntries, hentry]
        | some entry =>
          rw [filterMap_cons_some (entryOf_table.mpr hentry)]
          simp only [toGateEntries, hentry, hrest, Except.map]
    | _ => exact hrest

theorem toGateEntries_error : ∀ {found : List (Value F)},
    (∃ raw, Value.table raw ∈ found ∧ (toGateEntry strOther raw).isOk = false) →
    ∃ err, toGateEntries strOther found = .error err := by
  intro found
  induction found with
  | nil => simp
  | cons gate rest ih =>
    rintro ⟨raw, hraw, herr⟩
    cases gate with
    | table raw' =>
      cases hentry : toGateEntry strOther raw' with
      | error e => exact ⟨e, by simp only [toGateEntries, hentry]⟩
      | ok entry =>
        have hmem : Value.table raw ∈ rest := by
          rcases mem_cons.mp hraw with heq | hmem
          · obtain rfl := Value.table.inj heq
            simp [hentry, Except.isOk, Except.toBool] at herr
          · exact hmem
        obtain ⟨err, hrest⟩ := ih ⟨raw, hmem, herr⟩
        refine ⟨err, ?_⟩
        cases entry <;> simp only [toGateEntries, hentry, hrest, Except.map]
    | _ =>
      obtain hmem | hmem := mem_cons.mp hraw
      · cases hmem
      · exact ih ⟨raw, hmem, herr⟩

omit [PyFloat F] in
theorem mostRecent_spec (rest : List (GateEntry F)) : ∀ first : GateEntry F,
    mostRecent first rest ∈ first :: rest ∧
      ∀ e ∈ first :: rest, e.attestedAt ≤ (mostRecent first rest).attestedAt := by
  induction rest with
  | nil =>
    intro first
    exact ⟨mem_cons_self, by simp [mostRecent]⟩
  | cons next rest ih =>
    intro first
    have hstep : mostRecent first (next :: rest) =
        mostRecent (if first.attestedAt < next.attestedAt then next else first) rest := rfl
    rw [hstep]
    by_cases hlt : first.attestedAt < next.attestedAt
    · rw [if_pos hlt]
      obtain ⟨hmem, hle⟩ := ih next
      have hbest := hle _ mem_cons_self
      refine ⟨mem_cons_of_mem _ hmem, fun e he => ?_⟩
      rcases mem_cons.mp he with rfl | he
      · exact hlt.le.trans hbest
      · exact hle e he
    · rw [if_neg hlt]
      obtain ⟨hmem, hle⟩ := ih first
      have hbest := hle _ mem_cons_self
      refine ⟨?_, fun e he => ?_⟩
      · rcases mem_cons.mp hmem with heq | hmem
        · rw [heq]
          exact mem_cons_self
        · exact mem_cons_of_mem _ (mem_cons_of_mem _ hmem)
      · rcases mem_cons.mp he with rfl | he
        · exact hbest
        · rcases mem_cons.mp he with rfl | he
          · exact (not_lt.mp hlt).trans hbest
          · exact hle e (mem_cons_of_mem _ he)

omit [PyFloat F] in
theorem mostRecent_first {first : GateEntry F} {rest : List (GateEntry F)}
    (h : ∀ e ∈ rest, e.attestedAt ≤ first.attestedAt) : mostRecent first rest = first := by
  induction rest with
  | nil => rfl
  | cons next rest ih =>
    have hnext := h next mem_cons_self
    have hstep : mostRecent first (next :: rest) =
        mostRecent (if first.attestedAt < next.attestedAt then next else first) rest := rfl
    rw [hstep, if_neg (not_lt.mpr hnext)]
    exact ih fun e he => h e (mem_cons_of_mem _ he)

theorem ifFresh_ok {attestation a : Attestation F} :
    ifFresh world attestation = .ok a ↔
      a = attestation ∧ freshOf world none (.ok attestation) = some true := by
  unfold ifFresh freshOf
  dsimp only
  cases evaluateFreshness world attestation none none none none with
  | error e => simp
  | ok verdict =>
    dsimp only
    cases verdict.fresh with
    | true => simp [eq_comm]
    | false => simp

variable {Config : Type} {newLocked : ClosureLock.ClosureManifest Config String}

theorem isOk_of_mem_filter (h : NoOverflow strOther closureHash gates) {raw : Entries F}
    (hraw : Value.table raw ∈ gates.filter (carries "T2-29" closureHash)) :
    (toGateEntry strOther raw).isOk = true :=
  h raw (mem_filter.mp hraw).1 (mem_filter.mp hraw).2

theorem mem_entries {e : GateEntry F} :
    e ∈ (gates.filter (carries "T2-29" closureHash)).filterMap (entryOf strOther) ↔
      Converted strOther closureHash gates e := by
  rw [mem_filterMap]
  constructor
  · rintro ⟨v, hv, hentry⟩
    obtain ⟨hmem, hcarries⟩ := mem_filter.mp hv
    cases v with
    | table raw => exact ⟨raw, hmem, hcarries, entryOf_table.mp hentry⟩
    | _ => cases hentry
  · rintro ⟨raw, hmem, hcarries, hentry⟩
    exact ⟨_, mem_filter.mpr ⟨hmem, hcarries⟩, entryOf_table.mpr hentry⟩

omit [PyFloat F] in
theorem filter_isTable (gates : List (Value F)) :
    (gates.filter isTable).filter (carries "T2-29" closureHash) =
      gates.filter (carries "T2-29" closureHash) := by
  rw [filter_filter]
  refine filter_congr fun v _ => ?_
  cases v <;> simp [carries, isTable]

theorem assert_document {data : Entries F} (hdata : gatesOf data = .array gates) :
    assertEvaluatorChangeApproved strOther world newLocked (.document data) =
      if (gates.filter (carries "T2-29" newLocked.closureHash)).isEmpty then
        .error (.noMatchingApproval false)
      else
        match toGateEntries strOther (gates.filter (carries "T2-29" newLocked.closureHash)) with
        | .error e => .error (.raised e)
        | .ok [] => .error (.noMatchingApproval true)
        | .ok (first :: rest) => ifFresh world (mostRecent first rest).attestation := by
  have hload : loadGates (.document data) = .ok (gates.filter isTable) := by rw [loadGates, hdata]
  unfold assertEvaluatorChangeApproved
  rw [hload]
  dsimp only
  rw [filter_isTable]

theorem approved_spec {data : Entries F} (hdata : gatesOf data = .array gates) {a : Attestation F}
    (h : assertEvaluatorChangeApproved strOther world newLocked (.document data) = .ok a) :
    NoOverflow strOther newLocked.closureHash gates ∧
      ∃ top, Greatest strOther newLocked.closureHash gates top ∧ Accepted world top ∧
        a = top.attestation := by
  rw [assert_document hdata] at h
  split at h
  · cases h
  · by_cases hok : NoOverflow strOther newLocked.closureHash gates
    · rw [toGateEntries_ok fun raw hraw => isOk_of_mem_filter hok hraw] at h
      split at h
      · rename_i heq
        cases heq
      · cases h
      · rename_i first rest heq
        obtain ⟨hmem, hle⟩ := mostRecent_spec rest first
        rw [← ok.inj heq] at hmem hle
        obtain ⟨rfl, hfresh⟩ := ifFresh_ok.mp h
        refine ⟨hok, _, ⟨mem_entries.mp hmem, fun e' he' => hle e' ?_⟩, hfresh, rfl⟩
        exact mem_entries.mpr he'
    · exfalso
      unfold NoOverflow at hok
      push Not at hok
      obtain ⟨raw, hmem, hcarries, herr⟩ := hok
      obtain ⟨err, herror⟩ := toGateEntries_error
        ⟨raw, mem_filter.mpr ⟨hmem, hcarries⟩, by simpa using herr⟩
      rw [herror] at h
      cases h

/-- Where nothing overflows and something converts, the check judges an entry with a greatest
text. -/
theorem judged_spec {data : Entries F} (hdata : gatesOf data = .array gates)
    (hok : NoOverflow strOther newLocked.closureHash gates) {e : GateEntry F}
    (he : Converted strOther newLocked.closureHash gates e) :
    ∃ top, Greatest strOther newLocked.closureHash gates top ∧
      assertEvaluatorChangeApproved strOther world newLocked (.document data) =
        ifFresh world top.attestation := by
  have hmem := mem_entries.mpr he
  have hne : (gates.filter (carries "T2-29" newLocked.closureHash)).isEmpty = false := by
    cases hfound : gates.filter (carries "T2-29" newLocked.closureHash) with
    | nil => simp [hfound] at hmem
    | cons v rest => rfl
  rw [assert_document hdata, hne, toGateEntries_ok fun raw hraw => isOk_of_mem_filter hok hraw]
  cases hentries : (gates.filter (carries "T2-29" newLocked.closureHash)).filterMap
      (entryOf strOther) with
  | nil => simp [hentries] at hmem
  | cons first rest =>
    obtain ⟨htop, hle⟩ := mostRecent_spec rest first
    rw [← hentries] at htop hle
    exact ⟨_, ⟨mem_entries.mp htop, fun e' he' => hle e' (mem_entries.mpr he')⟩, rfl⟩

/-- In some order of the entries the check judges a given entry with a greatest text. -/
theorem judged_of_greatest (hok : NoOverflow strOther newLocked.closureHash gates)
    {top : GateEntry F} (htop : Greatest strOther newLocked.closureHash gates top) :
    ∃ data' gates', gatesOf data' = .array gates' ∧
      SameWanted (carries "T2-29" newLocked.closureHash) gates gates' ∧
      assertEvaluatorChangeApproved strOther world newLocked (.document data') =
        ifFresh world top.attestation := by
  obtain ⟨raw, hmem, hcarries, hentry⟩ := htop.1
  obtain ⟨front, back, rfl⟩ := append_of_mem hmem
  have hperm : (front ++ Value.table raw :: back).Perm (Value.table raw :: (front ++ back)) :=
    perm_middle
  have hsame : SameWanted (carries "T2-29" newLocked.closureHash)
      (front ++ Value.table raw :: back) (Value.table raw :: (front ++ back)) := hperm.filter _
  refine ⟨[("gates", .array (Value.table raw :: (front ++ back)))], _, rfl, hsame, ?_⟩
  have hok' := (noOverflow_congr hsame).mp hok
  have hgreatest := (greatest_congr hsame).mp htop
  rw [assert_document rfl, toGateEntries_ok fun raw' hraw' => isOk_of_mem_filter hok' hraw',
    filter_cons_of_pos hcarries, filterMap_cons_some (entryOf_table.mpr hentry)]
  dsimp only [isEmpty_cons]
  rw [mostRecent_first fun e he => hgreatest.2 e ?_]
  · rfl
  · rw [← mem_entries, filter_cons_of_pos hcarries, filterMap_cons_some (entryOf_table.mpr hentry)]
    exact mem_cons_of_mem _ he

/-- **The check approves what it should just when the greatest texts speak for the latest
sign-offs.** -/
theorem approves_iff : Approves strOther world gates newLocked ↔
    Settled strOther world newLocked.closureHash gates := by
  constructor
  · intro h
    have hself : gatesOf [("gates", Value.array gates)] = .array gates := rfl
    refine ⟨fun e m hlatest hwithin => ?_, fun hok top htop haccepted => ?_⟩
    · have hrun := (h _ gates hself (List.Perm.refl _) e.attestation).mpr
        ⟨e, m, hlatest, hwithin, rfl⟩
      have hok := (approved_spec hself hrun).1
      refine ⟨hok, fun top htop => ?_⟩
      obtain ⟨data', gates', hdata', hsame, hjudged⟩ := judged_of_greatest hok htop
      have hrun' := (h data' gates' hdata' hsame e.attestation).mpr ⟨e, m, hlatest, hwithin, rfl⟩
      rw [hjudged] at hrun'
      obtain ⟨heq, hfresh⟩ := ifFresh_ok.mp hrun'
      exact ⟨heq.symm, hfresh⟩
    · obtain ⟨data', gates', hdata', hsame, hjudged⟩ := judged_of_greatest hok htop
      have hrun := hjudged.trans (ifFresh_ok.mpr ⟨rfl, haccepted⟩)
      obtain ⟨e, m, hlatest, hwithin, -⟩ := (h data' gates' hdata' hsame _).mp hrun
      exact ⟨e, m, hlatest, hwithin⟩
  · intro h data' gates' hdata' hsame a
    constructor
    · intro hrun
      obtain ⟨hok, top, htop, haccepted, rfl⟩ := approved_spec hdata' hrun
      have hok := (noOverflow_congr hsame).mpr hok
      have htop := (greatest_congr hsame).mpr htop
      obtain ⟨e, m, hlatest, hwithin⟩ := h.accepted hok top htop haccepted
      exact ⟨e, m, hlatest, hwithin, ((h.latest e m hlatest hwithin).2 top htop).1⟩
    · rintro ⟨e, m, hlatest, hwithin, rfl⟩
      obtain ⟨hok, htops⟩ := h.latest e m hlatest hwithin
      have he := (converted_congr hsame).mp hlatest.1.1
      obtain ⟨top, htop, hjudged⟩ := judged_spec hdata' ((noOverflow_congr hsame).mp hok) he
      obtain ⟨heq, haccepted⟩ := htops top ((greatest_congr hsame).mpr htop)
      rw [hjudged]
      exact ifFresh_ok.mpr ⟨heq.symm, haccepted⟩

end

/-! ### The later day in the earlier time zone -/

namespace Zones

open Gates.Sample

def hour : Int := 3600 * 1000000

def eleven : World where
  fromisoformat s :=
    if s = "2026-03-02T00:00:00+14:00" then some ⟨day 60, some (14 * hour)⟩
    else if s = "2026-03-01T12:00:00+00:00" then some ⟨day 59 + 12 * hour, some 0⟩
    else none
  clock := day 60 + 11 * hour
  environ _ := none

def signOff (attestedAt : String) : Value Extended :=
  .table [("id", .text "T2-29"), ("event_ref", .text "abc"), ("attested_at", .text attestedAt),
    ("ttl_days", .integer 1), ("attested_by", .text "reviewer")]

def east : Value Extended := signOff "2026-03-02T00:00:00+14:00"

def west : Value Extended := signOff "2026-03-01T12:00:00+00:00"

def eastEntry : GateEntry Extended := ⟨"2026-03-02T00:00:00+14:00", .finite 1, "reviewer", ""⟩

def westEntry : GateEntry Extended := ⟨"2026-03-01T12:00:00+00:00", .finite 1, "reviewer", ""⟩

def locked : ClosureLock.ClosureManifest Unit String := ⟨[], [], [], "uv.lock", (), "abc"⟩

theorem converted {e : GateEntry Extended} (h : Converted (fun _ => none) "abc" [east, west] e) :
    e = eastEntry ∨ e = westEntry := by
  have hentries : ([east, west].filter (carries "T2-29" "abc")).filterMap
      (entryOf fun _ => none) = [eastEntry, westEntry] := rfl
  have hmem := mem_entries.mpr h
  rw [hentries] at hmem
  simpa using hmem

/-- The sign-off with the greater text has expired, the later one has not. -/
theorem later_refused : ¬ Approves (fun _ => none) eleven [east, west] locked := by
  intro h
  have hwest : Latest (fun _ => none) eleven "abc" [east, west] westEntry
      ⟨day 59 + 12 * hour, some 0⟩ := by
    refine ⟨⟨⟨_, List.mem_cons_of_mem _ List.mem_cons_self, rfl, rfl⟩, rfl⟩, ?_⟩
    rintro e' m' ⟨he', hm'⟩
    rcases converted he' with rfl | rfl
    · have heast : eleven.fromisoformat eastEntry.attestedAt = some ⟨day 60, some (14 * hour)⟩ := by
        rfl
      obtain rfl := Option.some.inj (heast.symm.trans hm')
      decide
    · have hwest : eleven.fromisoformat westEntry.attestedAt =
          some ⟨day 59 + 12 * hour, some 0⟩ := by rfl
      obtain rfl := Option.some.inj (hwest.symm.trans hm')
      exact le_rfl
  have hwithin : WithinTtl eleven westEntry ⟨day 59 + 12 * hour, some 0⟩ := by
    intro _
    decide +kernel
  have hrun := (h [("gates", .array [east, west])] [east, west] rfl (List.Perm.refl _)
    westEntry.attestation).mpr ⟨westEntry, _, hwest, hwithin, rfl⟩
  have hrefused : (assertEvaluatorChangeApproved (fun _ => none) eleven locked
      (.document [("gates", .array [east, west])])).isOk = false := by decide +kernel
  rw [hrun] at hrefused
  cases hrefused

end Zones

end Xtrax.EvaluatorChange
