import Xtrax.Engine
import Xtrax.Toml

/-!
# Fresh attestations

An attestation is fresh until its TTL has passed, unless a probe invalidates it
(`evaluateFreshness`).  Its fields are values of a TOML document and may be of any type: a date
that is no text, or a TTL that is no number, raises.
-/

namespace Xtrax.Freshness

open Toml

/-- The floats of Python. -/
class PyFloat (F : Type) where
  zero : F
  lt : F → F → Bool
  /-- `n < x` for an integer, without rounding. -/
  intLt : Int → F → Bool
  /-- `float(n)`; none for an `OverflowError`. -/
  ofInt : Int → Option F
  /-- `float(s)`; none for a `ValueError`. -/
  ofText : String → Option F
  /-- `delta.total_seconds() / 86_400.0`, by the microseconds. -/
  days : Int → F

/-- A `datetime`: microseconds since the year 1, and its offset from UTC if it has a time zone. -/
structure Moment where
  naive : Int
  offset : Option Int

/-- Python's calendar and the process it runs in. -/
structure World where
  /-- `datetime.fromisoformat`; none for a `ValueError`. -/
  fromisoformat : String → Option Moment
  /-- `datetime.now(UTC)`. -/
  clock : Int
  /-- `os.environ.get`. -/
  environ : String → Option String

/-- The built-in exceptions. -/
inductive PyError
  | attribute | key (name : String) | overflow | type | value
  deriving DecidableEq

/-- `Attestation`; nothing checks the types of its fields. -/
structure Attestation (F : Type) where
  attestedAt : Value F
  ttlDays : Value F
  attestedBy : Value F
  note : Value F

structure ProbeResult where
  invalidated : Bool
  reason : String := ""
  skipped : Bool := false

/-- Why an attestation is not fresh. -/
inductive Reason (F : Type)
  | pastTtl (ageDays : F) (ttlDays attestedBy : Value F)
  | probe (reason : String)

structure FreshnessVerdict (F : Type) where
  fresh : Bool
  ttlExpired : Bool
  probeInvalidated : Bool
  probeSkipped : Bool
  reasons : List (Reason F)

section

variable {F : Type} [PyFloat F] (world : World)

/-- The end of the year 9999, in microseconds. -/
def maxMoment : Int := 3652059 * 86400 * 1000000

/-- `parsed.astimezone(UTC)`, in UTC if it has no time zone. -/
def toUtc (parsed : Moment) : Except PyError Int :=
  let utc := parsed.naive - parsed.offset.getD 0
  if 0 ≤ utc ∧ utc < maxMoment then .ok utc else .error .overflow

def daysSince (attestedAt : Value F) (now : Option Moment) : Except PyError F :=
  match attestedAt with
  | .text s =>
    match world.fromisoformat s with
    | none => .error .value
    | some parsed =>
      let reference := now.getD ⟨world.clock, some 0⟩
      match toUtc parsed, reference.offset with
      | .error e, _ => .error e
      | .ok _, none => .error .type
      | .ok utc, some offset =>
        let age := PyFloat.days (reference.naive - offset - utc)
        .ok (if PyFloat.lt age (PyFloat.zero : F) then PyFloat.zero else age)
  | _ => .error .type

def strip (s : String) : String :=
  String.ofList ((s.toList.dropWhile Engine.isSpace).reverse.dropWhile Engine.isSpace).reverse

def envEnabled (var : String) (default : Bool) : Bool :=
  match world.environ var with
  | none => default
  | some raw => !(["1", "true", "yes"].contains (strip raw).toLower)

def skipTtlEnvVar : String := "XTRAX_FRESHNESS_SKIP_TTL"

def skipProbeEnvVar : String := "XTRAX_FRESHNESS_SKIP_PROBE"

/-- `age_days > ttl_days`. -/
def exceeds (ageDays : F) : Value F → Except PyError Bool
  | .float ttl => .ok (PyFloat.lt ttl ageDays)
  | .integer ttl => .ok (PyFloat.intLt ttl ageDays)
  | .boolean ttl => .ok (PyFloat.intLt ttl.toNat ageDays)
  | _ => .error .type

/-- The TTL backstop of `evaluate_freshness`: the reason if it has expired. -/
def ttlReason (attestation : Attestation F) (now : Option Moment) :
    Except PyError (Option (Reason F)) :=
  match daysSince world attestation.attestedAt now with
  | .error e => .error e
  | .ok ageDays =>
    (exceeds ageDays attestation.ttlDays).map fun expired =>
      if expired then some (.pastTtl ageDays attestation.ttlDays attestation.attestedBy) else none

/-- `evaluate_freshness`.  A probe that raises is skipped. -/
def evaluateFreshness (attestation : Attestation F) (now : Option Moment)
    (probe : Option (Except String ProbeResult)) (ttlBackstopEnabled probeEnabled : Option Bool) :
    Except PyError (FreshnessVerdict F) :=
  let ttlOn := ttlBackstopEnabled.getD (envEnabled world skipTtlEnvVar true)
  let probeOn := probeEnabled.getD (envEnabled world skipProbeEnvVar true)
  let ttl := if ttlOn then ttlReason world attestation now else .ok none
  let result : Option ProbeResult :=
    if probeOn then
      probe.map fun
        | .ok result => result
        | .error text => { invalidated := false, skipped := true, reason := text }
    else none
  let probeSkipped := result.any (·.skipped)
  let probeReason := result.bind fun result =>
    if !result.skipped && result.invalidated then some (.probe result.reason) else none
  ttl.map fun ttlReason =>
    { fresh := ttlReason.isNone && probeReason.isNone
      ttlExpired := ttlReason.isSome
      probeInvalidated := probeReason.isSome
      probeSkipped := probeSkipped
      reasons := ttlReason.toList ++ probeReason.toList }

end

end Xtrax.Freshness
