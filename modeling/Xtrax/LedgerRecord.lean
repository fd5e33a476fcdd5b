import Xtrax.PyJsonRoundTrip

/-!
# One row of the run ledger and its decoding

`RunLedgerRecord.fromDict` and the migration chain before it (`readRowUpgrading`) as Python runs
them on a decoded JSON value of any shape: which exception leaves them, in the order in which the
checks are made.  A row that is accepted holds in its unchecked fields whatever the value had there,
so these fields are JSON values; a record of a run is one whose fields have the annotated types
(`RunLedgerRecord.Built`).
-/

namespace Xtrax.LedgerText
open PyJson

/-- What leaves the decoding of a row: the two errors of the ledger, and Python's own. -/
inductive Raised
  | ledgerRecord
  | schemaVersion
  | keyError
  | typeError
  | valueError
  | attributeError
  | recursionError
  | unicodeDecodeError
  deriving DecidableEq, Repr

/-- What `except (LedgerRecordError, SchemaVersionMismatchError)` catches. -/
def Raised.skipped : Raised → Bool
  | .ledgerRecord | .schemaVersion => true
  | _ => false

/-! ### Python's view of a JSON value -/

/-- `str.isspace` of one code point. -/
def isWhitespace (n : Nat) : Bool :=
  (9 ≤ n && n ≤ 13) || (28 ≤ n && n ≤ 32) || n = 0x85 || n = 0xA0 || n = 0x1680 ||
    (0x2000 ≤ n && n ≤ 0x200A) || n = 0x2028 || n = 0x2029 || n = 0x202F || n = 0x205F ||
    n = 0x3000

/-- `not s.strip()`. -/
def blank (s : PyStr) : Bool := s.all fun c => isWhitespace c.val

/-- Whether the double is not zero: below half of the smallest double the number is rounded to
zero. -/
def truthyFloat : PyFloat → Bool
  | .decimal _ digits exponent =>
    digits != 0 && (decide (0 ≤ exponent) || decide (10 ^ exponent.natAbs < digits * 2 ^ 1075))
  | .nan => true
  | .infinity _ => true

/-- `bool(v)`. -/
def truthy : PyVal → Bool
  | .none => false
  | .bool b => b
  | .int n => n != 0
  | .float x => truthyFloat x
  | .str s => s != []
  | .list vs => !vs.isEmpty
  | .dict entries => !entries.isEmpty

/-- `raw.get(key, default)`. -/
def get (raw : List (PyStr × PyVal)) (key : String) (default : PyVal := .none) : PyVal :=
  (raw.lookup (py key)).getD default

/-- `raw[key]`. -/
def getItem (raw : List (PyStr × PyVal)) (key : String) : Except Raised PyVal :=
  match raw.lookup (py key) with
  | some v => .ok v
  | none => .error .keyError

/-- A dictionary key that is no string, by what it can be sorted with. -/
inductive OtherKey
  | number
  | none
  deriving DecidableEq, Repr

/-- What `dict(...)` makes of a value: its entries for strings, the last one for each, and the keys
that are no strings. -/
structure LooseDict where
  entries : List (PyStr × PyVal) := []
  others : List OtherKey := []

/-- One step of `dict(pairs)`. -/
def LooseDict.setItem (d : LooseDict) (key value : PyVal) : Except Raised LooseDict :=
  match key with
  | .str s => .ok { d with entries := Dict.setEntry s value d.entries }
  | .none => .ok { d with others := d.others ++ [.none] }
  | .bool _ | .int _ | .float _ => .ok { d with others := d.others ++ [.number] }
  | .list _ | .dict _ => .error .typeError

/-- An element of `pairs` taken apart: a sequence of length 2. -/
def pairOf : PyVal → Except Raised (PyVal × PyVal)
  | .list [k, v] => .ok (k, v)
  | .str [k, v] => .ok (.str [k], .str [v])
  | .dict [k, v] => .ok (.str k.1, .str v.1)
  | .list _ | .str _ | .dict _ => .error .valueError
  | .none | .bool _ | .int _ | .float _ => .error .typeError

/-- `dict(v or {})`. -/
def dictOf (v : PyVal) : Except Raised LooseDict :=
  if !truthy v then .ok {}
  else
    match v with
    | .dict entries => .ok { entries := entries }
    | .list vs => vs.foldlM (fun d e => pairOf e >>= fun p => d.setItem p.1 p.2) {}
    | .str _ => .error .valueError
    | .none | .bool _ | .int _ | .float _ => .error .typeError

/-- `if keys: raise LedgerRecordError(f"... {sorted(keys)}")`: keys of several kinds are not
sorted. -/
def refuseKeys (strings : List PyStr) (others : List OtherKey) : Except Raised Unit :=
  if strings = [] ∧ others = [] then .ok ()
  else if (strings ≠ [] ∧ others ≠ []) ∨ (.number ∈ others ∧ .none ∈ others) then
    .error .typeError
  else .error .ledgerRecord

/-- `if not v or not v.strip(): raise`, and `if not (v or "").strip(): raise`. -/
def requireText (v : PyVal) : Except Raised PyStr :=
  if !truthy v then .error .ledgerRecord
  else
    match v with
    | .str s => if blank s then .error .ledgerRecord else .ok s
    | _ => .error .attributeError

/-- `if v not in names: raise`, where the names stand for what the table says. -/
def memberOf {α : Type} (table : List (PyStr × α)) : PyVal → Except Raised α
  | .str s =>
    match table.lookup s with
    | some a => .ok a
    | none => .error .ledgerRecord
  | .list _ | .dict _ => .error .typeError
  | .none | .bool _ | .int _ | .float _ => .error .ledgerRecord

/-- `len(v)`. -/
def lenOf : PyVal → Except Raised Nat
  | .str s => .ok s.length
  | .list vs => .ok vs.length
  | .dict entries => .ok entries.length
  | .none | .bool _ | .int _ | .float _ => .error .typeError

/-- `except TypeError as exc: raise LedgerRecordError`. -/
def catchType {α : Type} : Except Raised α → Except Raised α
  | .error .typeError => .error .ledgerRecord
  | r => r

/-! ### Records -/

/-- A dictionary from strings up to the order of insertion: its entries in the order of the keys. -/
@[ext]
structure SortedDict (β : Type) where
  entries : List (PyStr × β)
  sorted : entries.Pairwise fun a b => a.1 < b.1

inductive IRMode
  | full | hashOnly | skipped
  deriving DecidableEq, Repr

/-- `_VALID_IR_MODES`. -/
def irModes : List (PyStr × IRMode) :=
  [(py "full", .full), (py "hash_only", .hashOnly), (py "skipped", .skipped)]

structure IRRef where
  kind : PyStr
  sha256 : PyVal
  bytes : Nat
  mode : IRMode
  reason : PyVal

def distributionFields : List PyStr :=
  ["name", "version", "install_kind", "wheel_sha256", "vcs_commit", "source_url", "record_sha256",
    "module", "module_file", "module_in_dist"].map py

/-- The fields of `RunProvenance` other than `distributions`, with their defaults. -/
def provenanceFields : List (PyStr × PyVal) :=
  [(py "git_sha", .str (py "unknown")), (py "git_branch", .none), (py "git_dirty", .none),
    (py "dirty_content_id", .none), (py "remote_url", .none), (py "submodule_state", .none),
    (py "pinned_sha", .none), (py "run_ref", .none), (py "wip_ref", .none),
    (py "snapshot_mode", .none), (py "unpinned_reason", .none),
    (py "provenance_source", .str (py "degraded")), (py "jax_version", .none),
    (py "jaxlib_version", .none), (py "x64_enabled", .none), (py "xla_flags", .str []),
    (py "device_kind", .none), (py "hostname", .str (py "unknown")),
    (py "python_version", .str []), (py "platform", .str [])]

/-- `RunProvenance`: the values of `provenanceFields`, in their order, and the distributions. -/
structure RunProvenance where
  values : List PyVal
  distributions : SortedDict (SortedDict PyStr)

inductive RunKind
  | train | eval | export
  deriving DecidableEq, Repr

/-- `_VALID_KINDS`. -/
def runKinds : List (PyStr × RunKind) :=
  [(py "train", .train), (py "eval", .eval), (py "export", .export)]

inductive TelemetryStatus
  | complete | degraded | optedOut | failed
  deriving DecidableEq, Repr

/-- `_VALID_STATUSES`. -/
def statuses : List (PyStr × TelemetryStatus) :=
  [(py "complete", .complete), (py "degraded", .degraded), (py "opted_out", .optedOut),
    (py "failed", .failed)]

structure RunLedgerRecord where
  runId : PyStr
  kind : RunKind
  derivedFrom : PyVal
  telemetryStatus : TelemetryStatus
  statusReason : PyVal
  ir : List IRRef
  context : SortedDict PyStr
  schemaVersion : Int
  ts : PyVal
  provenance : RunProvenance

/-- `SCHEMA_VERSION`. -/
def currentVersion : Int := 2

/-! ### `upgrade_row` -/

def migrateV1 (row : List (PyStr × PyVal)) : Except Raised (List (PyStr × PyVal)) :=
  match get row "provenance" with
  | .dict provenance =>
    if provenance.lookup (py "distributions") ≠ none then .error .ledgerRecord
    else
      .ok (Dict.setEntry (py "provenance")
        (.dict (Dict.setEntry (py "distributions") (.dict []) provenance))
        (Dict.setEntry (py "schema_version") (.int 2) row))
  | _ => .error .ledgerRecord

instance (k : PyStr) (row : List (PyStr × PyVal)) : Decidable (row.lookup k ≠ none) :=
  decidable_of_iff ((row.lookup k).isSome = true) Option.isSome_iff_ne_none

/-- `upgrade_row`; `_MIGRATIONS` holds the one step from version 1. -/
def upgradeRow : PyVal → Except Raised (List (PyStr × PyVal))
  | .dict row =>
    match get row "schema_version" with
    | .int version =>
      if currentVersion < version then .error .schemaVersion
      else if version < 1 then .error .schemaVersion
      else if version < currentVersion then migrateV1 row
      else .ok row
    | _ => .error .ledgerRecord
  | _ => .error .ledgerRecord

/-! ### `from_dict` -/

def SortedDict.ofEntries {β : Type} (entries : List (PyStr × β)) : SortedDict β where
  entries := sortEntries entries
  sorted := sortEntries_pairwise entries

/-- The value of a JSON string. -/
def textOf : PyVal → Option PyStr
  | .str s => some s
  | _ => none

/-- `isinstance(v, int) and not isinstance(v, bool) and v >= 0`. -/
def countOf : PyVal → Except Raised Nat
  | .int n => if n < 0 then .error .ledgerRecord else .ok n.toNat
  | _ => .error .ledgerRecord

/-- `IRRef(...)` with the checks of `__post_init__`. -/
def IRRef.make (kind sha256 bytes mode reason : PyVal) : Except Raised IRRef := do
  let mode ← memberOf irModes mode
  let kind ← requireText kind
  let bytes ← countOf bytes
  if mode = .skipped then do
    let _ ← requireText reason
    return { kind, sha256, bytes, mode, reason }
  else do
    let n ← lenOf sha256
    if n = 64 then return { kind, sha256, bytes, mode, reason } else .error .ledgerRecord

def irFields : List PyStr := ["kind", "sha256", "bytes", "mode", "reason"].map py

/-- `IRRef(**ref)`. -/
def irRefOf : PyVal → Except Raised IRRef
  | .dict ref =>
    if ∃ e ∈ ref, e.1 ∉ irFields then .error .typeError
    else
      match ref.lookup (py "kind"), ref.lookup (py "sha256"), ref.lookup (py "bytes") with
      | some kind, some sha256, some bytes =>
        IRRef.make kind sha256 bytes (get ref "mode" (.str (py "full"))) (get ref "reason")
      | _, _, _ => .error .typeError
  | _ => .error .typeError

/-- `tuple(IRRef(**ref) for ref in refs)`.  The elements of a string and the keys of a dictionary are
strings, of which none is a mapping. -/
def irOf : PyVal → Except Raised (List IRRef)
  | .list refs => refs.mapM irRefOf
  | .str s => if s = [] then .ok [] else .error .typeError
  | .dict entries => if entries = [] then .ok [] else .error .typeError
  | .none | .bool _ | .int _ | .float _ => .error .typeError

/-- One entry of `distributions`: exactly the expected fields, all of them strings. -/
def distributionOf : PyVal → Except Raised (SortedDict PyStr)
  | .dict entry =>
    if (∀ e ∈ entry, e.1 ∈ distributionFields) ∧ ∀ f ∈ distributionFields, f ∈ entry.map Prod.fst then
      match entry.mapM fun e => (textOf e.2).map fun s => (e.1, s) with
      | some fields => .ok (.ofEntries fields)
      | none => .error .ledgerRecord
    else .error .ledgerRecord
  | _ => .error .ledgerRecord

/-- The checks of `RunProvenance.__post_init__`. -/
def distributionsOf : PyVal → Except Raised (SortedDict (SortedDict PyStr))
  | .dict entries => do
    let fields ← entries.mapM fun e => do
      if blank e.1 then .error .ledgerRecord
      else do
        let entry ← distributionOf e.2
        return (e.1, entry)
    return .ofEntries fields
  | _ => .error .ledgerRecord

/-- `RunProvenance(**prov_raw)`. -/
def RunProvenance.make (raw : List (PyStr × PyVal)) : Except Raised RunProvenance := do
  let distributions ← distributionsOf (get raw "distributions" (.dict []))
  return {
    values := provenanceFields.map fun f => (raw.lookup f.1).getD f.2
    distributions }

/-- The check of the context in `RunLedgerRecord.__post_init__`. -/
def contextOf (d : LooseDict) : Except Raised (SortedDict PyStr) := do
  refuseKeys ((d.entries.filter fun e => (textOf e.2).isNone).map Prod.fst) d.others
  return .ofEntries (d.entries.filterMap fun e => (textOf e.2).map fun s => (e.1, s))

/-- The checks of `RunLedgerRecord.__post_init__` on `derived_from`. -/
def checkDerived (derivedFrom : PyVal) (runId : PyStr) : Except Raised Unit :=
  match derivedFrom with
  | .str s => if blank s ∨ s = runId then .error .ledgerRecord else .ok ()
  | _ => .ok ()

/-- A status other than `complete` requires a reason. -/
def checkStatus (status : TelemetryStatus) (reason : PyVal) : Except Raised Unit :=
  if status = .complete then .ok () else (fun _ => ()) <$> requireText reason

/-- `RunLedgerRecord(...)` with the checks of `__post_init__`. -/
def RunLedgerRecord.make (runId kind derivedFrom telemetryStatus statusReason : PyVal)
    (context : LooseDict) (ir : List IRRef) (schemaVersion : Int) (ts : PyVal)
    (provenance : RunProvenance) : Except Raised RunLedgerRecord := do
  let runId ← requireText runId
  let kind ← memberOf runKinds kind
  let telemetryStatus ← memberOf statuses telemetryStatus
  checkDerived derivedFrom runId
  checkStatus telemetryStatus statusReason
  let context ← contextOf context
  return { runId, kind, derivedFrom, telemetryStatus, statusReason, ir, context, schemaVersion,
           ts, provenance }

/-- The fields of a row. -/
def knownFields : List PyStr :=
  ["schema_version", "run_id", "kind", "derived_from", "ts", "telemetry_status", "status_reason",
    "context", "provenance", "ir"].map py

/-- `prov_fields`. -/
def knownProvenance : List PyStr := provenanceFields.map Prod.fst ++ [py "distributions"]

/-- `RunLedgerRecord.from_dict`, of a row of the running version. -/
def RunLedgerRecord.fromDict (raw : List (PyStr × PyVal)) : Except Raised RunLedgerRecord := do
  if ∃ e ∈ raw, e.1 ∉ knownFields then .error .ledgerRecord
  else do
    let provRaw ← dictOf (get raw "provenance")
    refuseKeys ((provRaw.entries.map Prod.fst).filter fun k => k ∉ knownProvenance) provRaw.others
    let ir ← catchType (irOf (get raw "ir" (.list [])))
    let runId ← getItem raw "run_id"
    let kind ← getItem raw "kind"
    let context ← dictOf (get raw "context")
    let ts ← getItem raw "ts"
    let provenance ← RunProvenance.make provRaw.entries
    RunLedgerRecord.make runId kind (get raw "derived_from")
      (get raw "telemetry_status" (.str (py "complete"))) (get raw "status_reason") context ir
      currentVersion ts provenance

def readRowUpgrading (raw : PyVal) : Except Raised RunLedgerRecord := do
  let row ← upgradeRow raw
  RunLedgerRecord.fromDict row

/-- `_read_line`: only `JSONDecodeError` becomes an error of the ledger. -/
def readLine (depth : Nat) (line : List Char) : Except Raised RunLedgerRecord :=
  match loads depth line with
  | .ok raw => readRowUpgrading raw
  | .error .decode => .error .ledgerRecord
  | .error .digits => .error .valueError
  | .error .recursion => .error .recursionError

/-! ### `to_dict` -/

/-- The name that stands for a value. -/
def nameOf {α : Type} [DecidableEq α] (table : List (PyStr × α)) (a : α) : PyStr :=
  ((table.find? fun e => e.2 = a).map Prod.fst).getD []

/-- `dataclasses.asdict` of a reference. -/
def IRRef.toDict (ref : IRRef) : PyVal :=
  .dict [(py "kind", .str ref.kind), (py "sha256", ref.sha256), (py "bytes", .int ref.bytes),
    (py "mode", .str (nameOf irModes ref.mode)), (py "reason", ref.reason)]

/-- A dictionary of strings. -/
def textDict (d : SortedDict PyStr) : PyVal := .dict (d.entries.map fun e => (e.1, .str e.2))

/-- `dataclasses.asdict` of a provenance. -/
def RunProvenance.toDict (p : RunProvenance) : PyVal :=
  .dict ((provenanceFields.map Prod.fst).zip p.values ++
    [(py "distributions", .dict (p.distributions.entries.map fun e => (e.1, textDict e.2)))])

/-- The members of `RunLedgerRecord.to_dict`. -/
def RunLedgerRecord.members (r : RunLedgerRecord) : List (PyStr × PyVal) :=
  [(py "schema_version", .int r.schemaVersion), (py "run_id", .str r.runId),
    (py "kind", .str (nameOf runKinds r.kind)), (py "derived_from", r.derivedFrom),
    (py "ts", r.ts), (py "telemetry_status", .str (nameOf statuses r.telemetryStatus)),
    (py "status_reason", r.statusReason), (py "context", textDict r.context),
    (py "provenance", r.provenance.toDict), (py "ir", .list (r.ir.map IRRef.toDict))]

def RunLedgerRecord.toDict (r : RunLedgerRecord) : PyVal := .dict r.members

/-- `RunLedgerRecord.to_json_line`; none where an integer has more digits than are written. -/
def RunLedgerRecord.toJsonLine (floatRepr : PyFloat → List Char) (r : RunLedgerRecord) :
    Option (List Char) :=
  (dumps floatRepr r.toDict).map fun text => text ++ ['\n']

/-! ### The records of runs -/

/-- `str | None`. -/
def OptionalText (v : PyVal) : Prop := v = .none ∨ ∃ s, v = .str s

/-- `str | bool | None`. -/
def Plain (v : PyVal) : Prop := v = .none ∨ (∃ b, v = .bool b) ∨ ∃ s, v = .str s

/-- A reference with fields of their types that has passed its checks. -/
structure IRRef.Built (ref : IRRef) : Prop where
  kind : blank ref.kind = false
  sha256 : ∃ s, ref.sha256 = .str s ∧ (ref.mode ≠ .skipped → s.length = 64)
  reason : OptionalText ref.reason
  skipped : ref.mode = .skipped → ∃ s, ref.reason = .str s ∧ blank s = false

/-- A record as `build_record` makes it: fields of their types that have passed the checks. -/
structure RunLedgerRecord.Built (r : RunLedgerRecord) : Prop where
  schemaVersion : r.schemaVersion = currentVersion
  runId : blank r.runId = false
  derivedFrom : OptionalText r.derivedFrom
  parent : ∀ s, r.derivedFrom = .str s → blank s = false ∧ s ≠ r.runId
  statusReason : OptionalText r.statusReason
  status : r.telemetryStatus ≠ .complete → ∃ s, r.statusReason = .str s ∧ blank s = false
  ts : ∃ s, r.ts = .str s
  ir : ∀ ref ∈ r.ir, ref.Built
  values : r.provenance.values.length = provenanceFields.length ∧ ∀ v ∈ r.provenance.values, Plain v
  distributions : ∀ e ∈ r.provenance.distributions.entries, blank e.1 = false ∧
    (∀ f ∈ e.2.entries, f.1 ∈ distributionFields) ∧
      ∀ f ∈ distributionFields, f ∈ e.2.entries.map Prod.fst

end Xtrax.LedgerText
