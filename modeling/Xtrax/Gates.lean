import Xtrax.Extended
import Xtrax.FirstMatch
import Xtrax.Freshness

/-!
# Approvals in the gates file

A promotion and a scope expansion are approved by an entry of the gates file for the gate and the
reference.  Both checks judge the first such entry only; the one converts the TTL of every entry
before it, the other looks for keys there, and what is no table stops it.  So their outcome is that
of all the entries, in any order, just when the lists are settled (`approvals_iff`).
-/

namespace Xtrax.Gates

open Freshness Toml FirstMatch

/-- Why no entry counts. -/
inductive NoMatch
  | fileNotFound
  | parseFailed (message : String)
  | notAList
  | noEntry (reference : String)

inductive GateError (F : Type)
  | noMatchingApproval (reason : NoMatch)
  | approvalExpired (reasons : List (Reason F))
  | raised (e : PyError)

/-- The gates file: `tomllib` may fail on it. -/
inductive GatesFile (F : Type)
  | missing
  | invalid (message : String)
  | document (data : Entries F)

structure GateEntry (F : Type) where
  id : Value F
  eventRef : Option (Value F)
  attestedAt : Value F
  ttlDays : F
  attestedBy : Value F
  note : Value F

section

variable {F : Type} [PyFloat F]

omit [PyFloat F] in
/-- `entry.get(key, default)`. -/
def get (entry : Entries F) (key : String) (default : Value F) : Value F :=
  (entry.lookup key).getD default

omit [PyFloat F] in
/-- `entry[key]`. -/
def getItem (entry : Entries F) (key : String) : Except PyError (Value F) :=
  match entry.lookup key with
  | none => .error (.key key)
  | some v => .ok v

/-- `float(v)`. -/
def toFloat : Value F → Except PyError F
  | .float x => .ok x
  | .integer n =>
    match PyFloat.ofInt n with
    | none => .error .overflow
    | some x => .ok x
  | .boolean b =>
    match PyFloat.ofInt b.toNat with
    | none => .error .overflow
    | some x => .ok x
  | .text s =>
    match PyFloat.ofText s with
    | none => .error .value
    | some x => .ok x
  | _ => .error .type

omit [PyFloat F] in
/-- `data.get("gates", [])`. -/
def gatesOf (data : Entries F) : Value F := get data "gates" (.array [])

/-! ### Promotion -/

def parseGateEntry (entry : Entries F) : Except PyError (GateEntry F) :=
  (toFloat (get entry "ttl_days" (.integer 0))).map fun ttlDays =>
    { id := get entry "id" (.text "")
      eventRef := entry.lookup "event_ref"
      attestedAt := get entry "attested_at" (.text "")
      ttlDays := ttlDays
      attestedBy := get entry "attested_by" (.text "")
      note := get entry "note" (.text "") }

/-- The loop over the entries. -/
def findEntry (sha : String) : List (Value F) → Except PyError (Option (GateEntry F))
  | [] => .ok none
  | .table entry :: rest =>
    match parseGateEntry entry with
    | .error e => .error e
    | .ok parsed =>
      if parsed.id.isText "T2-30" && parsed.eventRef.any (·.isText sha) then .ok (some parsed)
      else findEntry sha rest
  | _ :: rest => findEntry sha rest

def GateEntry.attestation (entry : GateEntry F) : Attestation F where
  attestedAt := entry.attestedAt
  ttlDays := .float entry.ttlDays
  attestedBy := entry.attestedBy
  note := entry.note

def ifFresh (world : World) (attestation : Attestation F) (now : Option Moment) :
    Except (GateError F) (Attestation F) :=
  match evaluateFreshness world attestation now none none none with
  | .error e => .error (.raised e)
  | .ok verdict => if verdict.fresh then .ok attestation else .error (.approvalExpired verdict.reasons)

def assertPromotionApproved (world : World) (candidateCommitSha : String) (file : GatesFile F)
    (now : Option Moment) : Except (GateError F) (Attestation F) :=
  match file with
  | .missing => .error (.noMatchingApproval .fileNotFound)
  | .invalid message => .error (.noMatchingApproval (.parseFailed message))
  | .document data =>
    match gatesOf data with
    | .array gates =>
      match findEntry candidateCommitSha gates with
      | .error e => .error (.raised e)
      | .ok none => .error (.noMatchingApproval (.noEntry candidateCommitSha))
      | .ok (some entry) => ifFresh world entry.attestation now
    | _ => .error (.noMatchingApproval .notAList)

/-! ### Scope expansion -/

/-- What a `for` loop goes through: characters of a string, keys of a table. -/
def iterate : Value F → Except PyError (List (Value F))
  | .array items => .ok items
  | .text s => .ok (s.toList.map fun c => .text (String.singleton c))
  | .table entries => .ok (entries.map fun e => .text e.1)
  | _ => .error .type

/-- The attestation of an entry, which needs three of its keys. -/
def scopeAttestation (entry : Entries F) : Except PyError (Attestation F) :=
  match getItem entry "attested_at", getItem entry "ttl_days", getItem entry "attested_by" with
  | .error e, _, _ => .error e
  | _, .error e, _ => .error e
  | _, _, .error e => .error e
  | .ok attestedAt, .ok ttlDays, .ok attestedBy =>
    .ok
      { attestedAt := attestedAt
        ttlDays := ttlDays
        attestedBy := attestedBy
        note := get entry "note" (.text "") }

/-- The loop over the entries. -/
def scopeLoop (world : World) (capabilityName : String) :
    List (Value F) → Except (GateError F) (Attestation F)
  | [] => .error (.noMatchingApproval (.noEntry capabilityName))
  | .table entry :: rest =>
    if (entry.lookup "id").any (·.isText "T2-31") &&
        (entry.lookup "event_ref").any (·.isText capabilityName) then
      match scopeAttestation entry with
      | .error e => .error (.raised e)
      | .ok attestation => ifFresh world attestation none
    else scopeLoop world capabilityName rest
  | _ :: _ => .error (.raised .attribute)

def assertScopeExpansionApproved (world : World) (capabilityName : String) (file : GatesFile F) :
    Except (GateError F) (Attestation F) :=
  match file with
  | .missing => .error (.noMatchingApproval .fileNotFound)
  | .invalid message => .error (.noMatchingApproval (.parseFailed message))
  | .document data =>
    match iterate (gatesOf data) with
    | .error e => .error (.raised e)
    | .ok gates => scopeLoop world capabilityName gates

/-! ### Outcomes -/

omit [PyFloat F] in
/-- The outcome of a check, unless it raises another exception. -/
def outcomeOf : Except (GateError F) (Attestation F) → Option Outcome
  | .ok _ => some .approved
  | .error (.noMatchingApproval _) => some .noMatch
  | .error (.approvalExpired _) => some .expired
  | .error (.raised _) => none

omit [PyFloat F] in
/-- The entry is for the gate and the reference. -/
def carries (gate reference : String) : Value F → Bool
  | .table entry =>
    (entry.lookup "id").any (·.isText gate) && (entry.lookup "event_ref").any (·.isText reference)
  | _ => false

/-- The TTL of the entry converts, if it is a table. -/
def converts : Value F → Bool
  | .table entry => (parseGateEntry entry).isOk
  | _ => true

omit [PyFloat F] in
def isTable : Value F → Bool
  | .table _ => true
  | _ => false

/-- Whether an approval is fresh, if that can be told. -/
def freshOf (world : World) (now : Option Moment) :
    Except PyError (Attestation F) → Option Bool
  | .error _ => none
  | .ok attestation =>
    match evaluateFreshness world attestation now none none none with
    | .error _ => none
    | .ok verdict => some verdict.fresh

def promotionFresh (world : World) (now : Option Moment) : Value F → Option Bool
  | .table entry => freshOf world now ((parseGateEntry entry).map GateEntry.attestation)
  | _ => none

def scopeFresh (world : World) : Value F → Option Bool
  | .table entry => freshOf world none (scopeAttestation entry)
  | _ => none

variable {world : World} {now : Option Moment} {sha capabilityName : String}
  {gates gates' : List (Value F)}

theorem outcomeOf_ifFresh (attestation : Attestation F) :
    outcomeOf (ifFresh world attestation now) =
      (freshOf world now (.ok attestation)).map
        fun good => if good then .approved else .expired := by
  unfold ifFresh freshOf
  dsimp only
  cases evaluateFreshness world attestation now none none none with
  | error e => rfl
  | ok verdict =>
    dsimp only [Option.map_some]
    cases verdict.fresh <;> rfl

omit [PyFloat F] in
theorem carries_table {gate reference : String} {entry : Entries F} :
    carries gate reference (.table entry) = ((entry.lookup "id").any (·.isText gate) &&
      (entry.lookup "event_ref").any (·.isText reference)) := rfl

theorem parsed_carries {entry : Entries F} {parsed : GateEntry F}
    (h : parseGateEntry entry = .ok parsed) :
    (parsed.id.isText "T2-30" && parsed.eventRef.any (·.isText sha)) =
      carries "T2-30" sha (.table entry) := by
  unfold parseGateEntry at h
  cases hfloat : toFloat (get entry "ttl_days" (.integer 0)) with
  | error e =>
    rw [hfloat] at h
    cases h
  | ok ttlDays =>
    rw [hfloat] at h
    obtain rfl := Except.ok.inj h
    unfold carries get
    dsimp only
    cases entry.lookup "id" with
    | none => simp [Value.isText]
    | some id => rfl

theorem promotion_scan :
    outcomeOf
      (match findEntry sha gates with
        | .error e => .error (.raised e)
        | .ok none => .error (.noMatchingApproval (.noEntry sha))
        | .ok (some entry) => ifFresh world entry.attestation now) =
      scan converts (carries "T2-30" sha) (promotionFresh world now) gates := by
  induction gates with
  | nil => rfl
  | cons gate rest ih =>
    rw [scan]
    cases gate with
    | table entry =>
      rw [findEntry]
      cases hparse : parseGateEntry entry with
      | error e =>
        -- the TTL of an entry is converted before anything is compared
        have hconverts : ¬ converts (.table entry) = true := by
          rw [converts, hparse]
          exact Bool.false_ne_true
        rw [if_neg hconverts]
        dsimp only [outcomeOf]
        rw [promotionFresh, hparse]
        cases carries "T2-30" sha (.table entry) <;> rfl
      | ok parsed =>
        have hconverts : converts (.table entry) = true := by
          rw [converts, hparse]
          rfl
        dsimp only
        rw [parsed_carries hparse, if_pos hconverts]
        by_cases hcarries : carries "T2-30" sha (.table entry) = true
        · rw [if_pos hcarries, if_pos hcarries, promotionFresh, hparse]
          exact outcomeOf_ifFresh parsed.attestation
        · rw [if_neg hcarries, if_neg hcarries]
          exact ih
    | _ => exact ih

theorem scope_scan : outcomeOf (scopeLoop world capabilityName gates) =
    scan isTable (carries "T2-31" capabilityName) (scopeFresh world) gates := by
  induction gates with
  | nil => rfl
  | cons gate rest ih =>
    rw [scan]
    cases gate with
    | table entry =>
      rw [scopeLoop, ← carries_table]
      by_cases hcarries : carries "T2-31" capabilityName (.table entry) = true
      · rw [if_pos hcarries, if_pos hcarries, scopeFresh]
        cases scopeAttestation entry with
        | error e => rfl
        | ok attestation => exact outcomeOf_ifFresh attestation
      · rw [if_neg hcarries, if_neg hcarries, isTable, if_pos rfl]
        exact ih
    | _ => rfl

/-! ### What the order of the entries changes -/

/-- The promotion check may be judged by its list: every table before the first entry for the
commit has a TTL that converts, and that entry can be judged and is fresh, or no entry is. -/
def PromotionSettled (world : World) (now : Option Moment) (sha : String) (gates : List (Value F)) :
    Prop := Settled converts (carries "T2-30" sha) (promotionFresh world now) gates

/-- Likewise for the scope check, where only tables may come before the first entry. -/
def ScopeSettled (world : World) (capabilityName : String) (gates : List (Value F)) : Prop :=
  Settled isTable (carries "T2-31" capabilityName) (scopeFresh world) gates

/-- Two lists have one outcome, and it is an approval when an entry is fresh. -/
def Agree (outcome outcome' : Option Outcome) (fresh : Prop) : Prop :=
  ∃ o, outcome = some o ∧ outcome' = some o ∧ (fresh → o = .approved)

/-- **Approvals do not depend on the order of the entries**, nor on other entries, just when both
lists are settled. -/
theorem approvals_iff {data data' : Entries F} (hgates : gatesOf data = .array gates)
    (hgates' : gatesOf data' = .array gates') (world : World) (now : Option Moment)
    (sha capabilityName : String) :
    (SameWanted (carries "T2-30" sha) gates gates' →
      (Agree (outcomeOf (assertPromotionApproved world sha (.document data) now))
          (outcomeOf (assertPromotionApproved world sha (.document data') now))
          (∃ gate ∈ gates, carries "T2-30" sha gate ∧ promotionFresh world now gate = some true) ↔
        PromotionSettled world now sha gates ∧ PromotionSettled world now sha gates')) ∧
    (SameWanted (carries "T2-31" capabilityName) gates gates' →
      (Agree (outcomeOf (assertScopeExpansionApproved world capabilityName (.document data)))
          (outcomeOf (assertScopeExpansionApproved world capabilityName (.document data')))
          (∃ gate ∈ gates, carries "T2-31" capabilityName gate ∧
            scopeFresh world gate = some true) ↔
        ScopeSettled world capabilityName gates ∧ ScopeSettled world capabilityName gates')) := by
  constructor
  · intro hsame
    unfold assertPromotionApproved
    dsimp only
    rw [hgates, hgates']
    dsimp only
    rw [promotion_scan, promotion_scan]
    exact agree_iff hsame
  · intro hsame
    unfold assertScopeExpansionApproved
    dsimp only
    rw [hgates, hgates']
    dsimp only [iterate]
    rw [scope_scan, scope_scan]
    exact agree_iff hsame

end

/-! ### An expired entry before a fresh one -/

namespace Sample

/-- Floats without rounding.  No text is converted here. -/
instance : PyFloat Extended where
  zero := .finite 0
  lt x y := x.le y && !y.le x
  intLt n x := (Extended.finite n).le x && !x.le (.finite n)
  ofInt n := some (.finite n)
  ofText _ := none
  days n := .finite (n / (86400 * 1000000))

def day (n : Nat) : Int := (739616 + n) * 86400 * 1000000

def world : World where
  fromisoformat s :=
    if s = "2026-01-01" then some ⟨day 0, none⟩
    else if s = "2026-03-01" then some ⟨day 59, none⟩
    else none
  clock := day 60
  environ _ := none

def approval (gate attestedAt : String) : Value Extended :=
  .table [("id", .text gate), ("event_ref", .text "abc"), ("attested_at", .text attestedAt),
    ("ttl_days", .integer 30), ("attested_by", .text "reviewer")]

def old (gate : String) : Value Extended := approval gate "2026-01-01"

def new (gate : String) : Value Extended := approval gate "2026-03-01"

def data (gates : List (Value Extended)) : Entries Extended := [("gates", .array gates)]

theorem gatesOf_data (gates : List (Value Extended)) : gatesOf (data gates) = .array gates := rfl

theorem approvals_sample :
    Agree
      (outcomeOf (assertPromotionApproved world "abc"
        (.document (data [new "T2-30", old "T2-31"])) none))
      (outcomeOf (assertPromotionApproved world "abc"
        (.document (data [old "T2-31", new "T2-30"])) none))
      (∃ gate ∈ [new "T2-30", old "T2-31"],
        carries "T2-30" "abc" gate ∧ promotionFresh world none gate = some true) ↔
    PromotionSettled world none "abc" [new "T2-30", old "T2-31"] ∧
      PromotionSettled world none "abc" [old "T2-31", new "T2-30"] :=
  (approvals_iff (gatesOf_data _) (gatesOf_data _) world none "abc" "abc").1
    ((List.Perm.swap _ _ _).filter _)

/-- The same two entries for one commit, the fresh one first and the expired one first. -/
theorem not_order_free :
    SameWanted (carries "T2-30" "abc") [new "T2-30", old "T2-30"] [old "T2-30", new "T2-30"] ∧
      promotionFresh world none (new "T2-30") = some true ∧
      outcomeOf (assertPromotionApproved world "abc"
        (.document (data [new "T2-30", old "T2-30"])) none) = some .approved ∧
      outcomeOf (assertPromotionApproved world "abc"
        (.document (data [old "T2-30", new "T2-30"])) none) = some .expired := by
  refine ⟨(List.Perm.swap _ _ _).filter _, ?_, ?_, ?_⟩
  · decide +kernel
  · decide +kernel
  · decide +kernel

end Sample

end Xtrax.Gates
