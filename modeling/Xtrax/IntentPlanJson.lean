import Xtrax.IntentResolveSpec
import Xtrax.PyJsonSpaced

/-!
# Plans as JSON

`toJson` writes a plan, its context only by `repr`; `fromJson` reads it back beside a live context.
Nothing checks what a label, an ordinal, a reason or the field of a strategy is, so what is read is
a `RawPlan`, in which these are any values; `rawPlan` is the plan among those.

A strategy with a callable has no JSON form, and a differentiated path takes no `StaticWhile` and no
`OpPrimal`.
-/

namespace Xtrax.Intent

open Except Option

open PyJson (PyVal PyStr PyFloat py)
open PyJson.PyVal (obj)
open Results

/-! ### Strategies -/

/-- The classes that have a JSON form. -/
inductive StrategyType
  | vmap | chunkedMap | scan | staticWhile | whileCarry | opPrimal
  deriving DecidableEq, Repr

/-- The name of the class. -/
def StrategyType.name : StrategyType → String
  | vmap => "Vmap"
  | chunkedMap => "ChunkedMap"
  | scan => "Scan"
  | staticWhile => "StaticWhile"
  | whileCarry => "WhileCarry"
  | opPrimal => "OpPrimal"

def strategyFields : StrategyType → List String
  | .vmap => []
  | .chunkedMap => ["batch_size"]
  | .scan => ["ordered_sinks"]
  | .staticWhile => ["length"]
  | .whileCarry => []
  | .opPrimal => ["backend", "form"]

def strategyTypes : List (String × StrategyType) :=
  [("Vmap", .vmap), ("ChunkedMap", .chunkedMap), ("Scan", .scan), ("StaticWhile", .staticWhile),
    ("WhileCarry", .whileCarry), ("OpPrimal", .opPrimal)]

def Strategy.type : Strategy → StrategyType
  | vmap => .vmap
  | chunkedMap _ => .chunkedMap
  | scan .. => .scan
  | staticWhile _ => .staticWhile
  | whileCarry .. => .whileCarry
  | op _ => .opPrimal

/-- `isinstance(strategy, AxisStrategy)`. -/
def Strategy.isAxis : Strategy → Bool
  | staticWhile _ | op _ => false
  | _ => true

/-- No field holds an object that is no JSON. -/
def Strategy.isBare : Strategy → Bool
  | scan _ transition init => transition.isNone && init.isNone
  | whileCarry body cond init => body.isNone && cond.isNone && init.isNone
  | _ => true

def OpForm.text : OpForm → String
  | .reference => "reference"
  | .customJvp => "custom_jvp"
  | .customVjp => "custom_vjp"

def opForms : List (String × OpForm) :=
  [("reference", .reference), ("custom_jvp", .customJvp), ("custom_vjp", .customVjp)]

def Kind.text : Kind → String
  | .loop => "loop"
  | .map => "map"
  | .op => "op"

namespace PlanJson

/-- A text or `None`. -/
def optional : Option String → PyVal
  | none => .none
  | some s => .str (py s)

/-- `getattr(strategy, name)`. -/
def getattr : Strategy → String → Option PyVal
  | .chunkedMap batchSize, "batch_size" => some (.int batchSize)
  | .scan orderedSinks _ _, "ordered_sinks" => some (.bool orderedSinks)
  | .staticWhile length, "length" => some (.int length)
  | .op primal, "backend" => some (optional primal.backend)
  | .op primal, "form" => some (.str (py primal.form.text))
  | _, _ => none

/-! ### Writing -/

/-- How `to_json` fails. -/
inductive ToJsonError
  | value (message : String)
  | attribute (name : String)
  /-- What `json.dumps` raises: an integer has too many digits, or the nesting is too deep. -/
  | dumps
  deriving DecidableEq, Repr

def strategyToJson (strategy : Strategy) : Except ToJsonError PyVal := do
  match strategy with
  | .scan _ transition init =>
    if transition.isSome || init.isSome then
      throw (.value ("Scan cannot be serialised when transition or init is set " ++
        "(callables cannot be serialised)"))
  | .whileCarry body cond init =>
    if body.isSome || cond.isSome || init.isSome then
      throw (.value ("WhileCarry cannot be serialised when body, cond, or init is set " ++
        "(callables cannot be serialised)"))
  | _ => pure ()
  let fields ← (strategyFields strategy.type).mapM fun name =>
    match getattr strategy name with
    | some v => .ok (name, v)
    | none => .error (ToJsonError.attribute name)
  return obj (("type", .str (py strategy.typeName)) :: fields)

def keyToJson : SiteKey → PyVal
  | .root path label ordinal =>
    obj [("parent", .none), ("path", .str (py path.text)), ("label", .str (py label)),
      ("ordinal", .int ordinal)]
  | .child parent path label ordinal =>
    obj [("parent", keyToJson parent), ("path", .str (py path.text)), ("label", .str (py label)),
      ("ordinal", .int ordinal)]

/-- `list(warnings)`. -/
def texts (warnings : List String) : PyVal := .list (warnings.map fun warning => .str (py warning))

def decisionToJson (d : SiteDecision) : Except ToJsonError PyVal := do
  let diff ←
    match d.diff with
    | none => pure PyVal.none
    | some strategy => strategyToJson strategy
  let primal ← strategyToJson d.primal
  return obj
    [("key", keyToJson d.key), ("kind", .str (py d.kind.text)), ("primal", primal), ("diff", diff),
      ("primal_reason", .str (py d.primalReason)), ("diff_reason", .str (py d.diffReason)),
      ("warnings", texts d.warnings)]

section Write

-- `float.__repr__` and `repr(context)`
variable (floatRepr : PyFloat → List Char) (contextRepr : Context → String)

/-- What `to_json` writes. -/
def payload (plan : Plan) : Except ToJsonError PyVal := do
  let decisions ← plan.decisions.mapM decisionToJson
  return obj
    [("schema_version", .int plan.schemaVersion), ("context", .str (py (contextRepr plan.context))),
      ("decisions", .list decisions), ("warnings", texts plan.warnings)]

/-- `to_json`, with the levels of nesting that are left. -/
def toJson (depth : Nat) (plan : Plan) : Except ToJsonError (List Char) := do
  let v ← payload contextRepr plan
  match PyJson.dumpsSpaced floatRepr depth v with
  | some text => return text
  | none => throw .dumps

end Write

/-! ### Reading -/

inductive RawKey
  | root (path : Path) (label ordinal : PyVal)
  | child (parent : RawKey) (path : Path) (label ordinal : PyVal)

inductive RawStrategy
  | vmap
  | chunkedMap (batchSize : PyVal)
  | scan (orderedSinks : PyVal) (transition init : Option Held := none)
  | staticWhile (length : PyVal)
  | whileCarry (body cond init : Option Held := none)
  | op (backend : PyVal) (form : OpForm)

structure RawDecision where
  key : RawKey
  kind : PyVal
  primal : RawStrategy
  diff : Option RawStrategy
  primalReason : PyVal
  diffReason : PyVal
  warnings : List PyVal

structure RawPlan where
  schemaVersion : PyVal
  context : Context
  decisions : List RawDecision
  warnings : List PyVal

/-- How `from_json` fails: `json.loads`, or a `ValueError`. -/
inductive FromJsonError
  | load (e : PyJson.LoadError)
  | notObject (what : String)
  | schemaVersion (version : PyVal)
  | missing (name : String)
  | notList (name : String)
  | unknownType (name : PyVal)
  | path (path : PyVal)
  | form (form : PyVal)
  | formBackend (form : OpForm) (backend : PyVal)
  | arguments (type : StrategyType)
  | diffType (type : StrategyType)

/-- `str` of an error, over `repr`; `json.loads` has its own texts. -/
def FromJsonError.message (repr : PyVal → String) : FromJsonError → Option String
  | .load _ => none
  | .notObject what => some (what ++ " is not an object")
  | .schemaVersion version =>
    some ("schema_version " ++ repr version ++ " != supported schema_version " ++
      toString planSchemaVersion)
  | .missing name => some ("missing '" ++ name ++ "'")
  | .notList name => some ("'" ++ name ++ "' is not a list")
  | .unknownType name => some ("unknown strategy type " ++ repr name)
  | .path v => some ("path " ++ repr v ++ " is not 'primal' or 'diff'")
  | .form v =>
    some ("OpPrimal form " ++ repr v ++ " is not one of " ++
      "('reference', 'custom_jvp', 'custom_vjp')")
  | .formBackend f backend =>
    some ("OpPrimal form " ++ repr (.str (py f.text)) ++ " does not match backend " ++
      repr backend ++ ": the reference has no backend and a kernel form needs one")
  | .arguments type => some (type.name ++ ".__init__() missing required arguments")
  | .diffType type => some ("'diff' cannot be " ++ type.name)

/-- `payload[name]`, for what has been found to be an object. -/
def field (body : List (PyStr × PyVal)) (name : String) : Except FromJsonError PyVal :=
  match body.lookup (py name) with
  | some v => .ok v
  | none => .error (.missing name)

def object (what : String) : PyVal → Except FromJsonError (List (PyStr × PyVal))
  | .dict body => .ok body
  | _ => .error (.notObject what)

/-- `_STRATEGY_TYPES.get`, for a text. -/
def strategyTypeOf : PyVal → Option StrategyType
  | .str name => (strategyTypes.find? fun e => py e.1 = name).map Prod.snd
  | _ => none

def opFormOf : PyVal → Option OpForm
  | .str form => (opForms.find? fun e => py e.1 = form).map Prod.snd
  | _ => none

def isNone : PyVal → Bool
  | .none => true
  | _ => false

/-- `OpPrimal(backend, form)`, with the check of `__post_init__`. -/
def rawOp (backend form : PyVal) : Except FromJsonError RawStrategy :=
  match opFormOf form with
  | none => .error (.form form)
  | some form =>
    if (form = .reference) ≠ (isNone backend = true) then .error (.formBackend form backend)
    else .ok (.op backend form)

/-- `strategy_type(**kwargs)`. -/
def construct : StrategyType → List PyVal → Except FromJsonError RawStrategy
  | .vmap, [] => .ok .vmap
  | .chunkedMap, [batchSize] => .ok (.chunkedMap batchSize)
  | .scan, [orderedSinks] => .ok (.scan orderedSinks)
  | .staticWhile, [length] => .ok (.staticWhile length)
  | .whileCarry, [] => .ok .whileCarry
  | .opPrimal, [backend, form] => rawOp backend form
  | type, _ => .error (.arguments type)

def strategyFromJson (payload : PyVal) : Except FromJsonError RawStrategy := do
  let body ← object "strategy" payload
  let typeName ← field body "type"
  match strategyTypeOf typeName with
  | none => throw (.unknownType typeName)
  | some type =>
    let kwargs ← (strategyFields type).mapM (field body)
    construct type kwargs

def pathOf : PyVal → Option Path
  | .str path =>
    if path = py "primal" then some .primal else if path = py "diff" then some .diff else none
  | _ => none

/-- `_key_from_json` for an object whose parent has been read. -/
def keyFields (body : List (PyStr × PyVal)) (parent : Option RawKey) :
    Except FromJsonError RawKey := do
  let path ← field body "path"
  match pathOf path with
  | none => throw (.path path)
  | some path =>
    let label ← field body "label"
    let ordinal ← field body "ordinal"
    match parent with
    | none => return .root path label ordinal
    | some parent => return .child parent path label ordinal

mutual

def keyFromJson : PyVal → Except FromJsonError RawKey
  | .dict body => do keyFields body (← parentFromJson body)
  | _ => .error (.notObject "key")

/-- The first entry for `parent`, read. -/
def parentFromJson : List (PyStr × PyVal) → Except FromJsonError (Option RawKey)
  | [] => .error (.missing "parent")
  | (k, v) :: body =>
    if k = py "parent" then
      if isNone v then .ok none else (keyFromJson v).map some
    else parentFromJson body

end

def list (name : String) : PyVal → Except FromJsonError (List PyVal)
  | .list vs => .ok vs
  | _ => .error (.notList name)

def RawStrategy.type : RawStrategy → StrategyType
  | vmap => .vmap
  | chunkedMap _ => .chunkedMap
  | scan .. => .scan
  | staticWhile _ => .staticWhile
  | whileCarry .. => .whileCarry
  | op .. => .opPrimal

/-- What a differentiated path is decoded to. -/
def diffFromJson (payload : PyVal) : Except FromJsonError (Option RawStrategy) :=
  if isNone payload then .ok none
  else do
    let decoded ← strategyFromJson payload
    if decoded.type = .staticWhile ∨ decoded.type = .opPrimal then
      throw (.diffType decoded.type)
    return some decoded

def decisionFromJson (payload : PyVal) : Except FromJsonError RawDecision := do
  let body ← object "decision" payload
  let diff ← diffFromJson (← field body "diff")
  let warnings ← list "warnings" (← field body "warnings")
  let key ← keyFromJson (← field body "key")
  let kind ← field body "kind"
  let primal ← strategyFromJson (← field body "primal")
  let primalReason ← field body "primal_reason"
  let diffReason ← field body "diff_reason"
  return { key, kind, primal, diff, primalReason, diffReason, warnings }

/-- A double is `1.0` if the decimal number it was read from lies next to `1`. -/
def isOneFloat : PyFloat → Bool
  | .decimal false digits exponent =>
    let x : Rat := digits * (10 : Rat) ^ exponent
    1 - 1 / 2 ^ 54 ≤ x ∧ x ≤ 1 + 1 / 2 ^ 53
  | _ => false

def isSchemaVersion : PyVal → Bool
  | .int n => n = planSchemaVersion
  | .bool b => b
  | .float x => isOneFloat x
  | _ => false

def fromJson (depth : Nat) (text : List Char) (context : Context) :
    Except FromJsonError RawPlan := do
  let payload ← (PyJson.loads depth text).mapError .load
  let body ← object "plan JSON" payload
  let version := (body.lookup (py "schema_version")).getD .none
  if !isSchemaVersion version then throw (.schemaVersion version)
  let rawDecisions ← list "decisions" (← field body "decisions")
  let decisions ← rawDecisions.mapM decisionFromJson
  let warnings ← list "warnings" ((body.lookup (py "warnings")).getD (.list []))
  return { schemaVersion := version, context, decisions, warnings }

/-! ### Plans among what is read -/

def rawKey : SiteKey → RawKey
  | .root path label ordinal => .root path (.str (py label)) (.int ordinal)
  | .child parent path label ordinal => .child (rawKey parent) path (.str (py label)) (.int ordinal)

def rawStrategy : Strategy → RawStrategy
  | .vmap => .vmap
  | .chunkedMap batchSize => .chunkedMap (.int batchSize)
  | .scan orderedSinks transition init => .scan (.bool orderedSinks) transition init
  | .staticWhile length => .staticWhile (.int length)
  | .whileCarry body cond init => .whileCarry body cond init
  | .op primal => .op (optional primal.backend) primal.form

def rawTexts (warnings : List String) : List PyVal := warnings.map fun warning => .str (py warning)

def rawDecision (d : SiteDecision) : RawDecision where
  key := rawKey d.key
  kind := .str (py d.kind.text)
  primal := rawStrategy d.primal
  diff := d.diff.map rawStrategy
  primalReason := .str (py d.primalReason)
  diffReason := .str (py d.diffReason)
  warnings := rawTexts d.warnings

def rawPlan (plan : Plan) : RawPlan where
  schemaVersion := .int plan.schemaVersion
  context := plan.context
  decisions := plan.decisions.map rawDecision
  warnings := rawTexts plan.warnings

/-! ### The round trip of the parts -/

section Parts

variable {strategy : Strategy} {v : PyVal} {d : SiteDecision}

def strategyPayload (strategy : Strategy) : PyVal :=
  match strategy with
  | .vmap => obj [("type", .str (py "Vmap"))]
  | .chunkedMap batchSize =>
    obj [("type", .str (py "ChunkedMap")), ("batch_size", .int batchSize)]
  | .scan orderedSinks _ _ =>
    obj [("type", .str (py "Scan")), ("ordered_sinks", .bool orderedSinks)]
  | .staticWhile length => obj [("type", .str (py "StaticWhile")), ("length", .int length)]
  | .whileCarry .. => obj [("type", .str (py "WhileCarry"))]
  | .op primal =>
    obj [("type", .str (py "OpPrimal")), ("backend", optional primal.backend),
      ("form", .str (py primal.form.text))]

/-- **A strategy is written if no callable is in it.** -/
theorem strategyToJson_eq_ok :
    strategyToJson strategy = .ok v ↔ strategy.isBare = true ∧ v = strategyPayload strategy := by
  have hok : strategy.isBare = true → strategyToJson strategy = .ok (strategyPayload strategy) := by
    intro hbare
    cases strategy with
    | scan orderedSinks transition init =>
      cases transition with
      | some _ => cases hbare
      | none =>
        cases init with
        | some _ => cases hbare
        | none => rfl
    | whileCarry body cond init =>
      cases body with
      | some _ => cases hbare
      | none =>
        cases cond with
        | some _ => cases hbare
        | none =>
          cases init with
          | some _ => cases hbare
          | none => rfl
    | _ => rfl
  constructor
  · intro h
    have hbare : strategy.isBare = true := by
      cases strategy with
      | scan orderedSinks transition init =>
        cases transition <;> cases init <;> first | rfl | cases h
      | whileCarry body cond init =>
        cases body <;> cases cond <;> cases init <;> first | rfl | cases h
      | _ => rfl
    exact ⟨hbare, ok.inj (h.symm.trans (hok hbare))⟩
  · rintro ⟨hbare, rfl⟩
    exact hok hbare

theorem rawOp_optional (primal : OpPrimal) :
    rawOp (optional primal.backend) (.str (py primal.form.text)) =
      .ok (.op (optional primal.backend) primal.form) := by
  obtain ⟨backend, form, hform⟩ := primal
  have hformOf : opFormOf (.str (py form.text)) = some form := by cases form <;> rfl
  have hnone : isNone (optional backend) = true ↔ backend = none := by
    cases backend with
    | none => exact ⟨fun _ => rfl, fun _ => rfl⟩
    | some backend => exact ⟨nofun, nofun⟩
  dsimp only
  unfold rawOp
  rw [hformOf]
  dsimp only
  rw [if_neg]
  rw [ne_eq, not_not, hnone, hform]

theorem strategyFromJson_payload (h : strategy.isBare = true) :
    strategyFromJson (strategyPayload strategy) = .ok (rawStrategy strategy) := by
  cases strategy with
  | op primal => exact rawOp_optional primal
  | scan orderedSinks transition init =>
    cases transition <;> cases init <;> first | rfl | cases h
  | whileCarry body cond init =>
    cases body <;> cases cond <;> cases init <;> first | rfl | cases h
  | _ => rfl

theorem keyFromJson_toJson (key : SiteKey) : keyFromJson (keyToJson key) = .ok (rawKey key) := by
  induction key with
  | root path label ordinal => cases path <;> rfl
  | child parent path label ordinal ih =>
    have hobject : isNone (keyToJson parent) = false := by cases parent <;> rfl
    have hparent : ∀ rest, parentFromJson ((py "parent", keyToJson parent) :: rest) =
        .ok (some (rawKey parent)) := by
      intro rest
      rw [parentFromJson, if_pos rfl, hobject, ih]
      rfl
    rw [keyToJson, obj, List.map_cons, keyFromJson, hparent]
    cases path <;> rfl

/-- The strategy of the differentiated path is one of an axis. -/
def Typed (d : SiteDecision) : Prop := ∀ s ∈ d.diff, s.isAxis = true

theorem type_rawStrategy (strategy : Strategy) : (rawStrategy strategy).type = strategy.type := by
  cases strategy <;> rfl

theorem isAxis_iff : strategy.isAxis = true ↔
    ¬ (strategy.type = .staticWhile ∨ strategy.type = .opPrimal) := by
  cases strategy <;> simp [Strategy.isAxis, Strategy.type]

/-- What a decision is written as. -/
def decisionPayload (d : SiteDecision) : PyVal :=
  obj
    [("key", keyToJson d.key), ("kind", .str (py d.kind.text)),
      ("primal", strategyPayload d.primal), ("diff", (d.diff.map strategyPayload).getD .none),
      ("primal_reason", .str (py d.primalReason)), ("diff_reason", .str (py d.diffReason)),
      ("warnings", texts d.warnings)]

/-- No strategy of the decision has a callable in it. -/
def Bare (d : SiteDecision) : Prop := d.primal.isBare = true ∧ ∀ s ∈ d.diff, s.isBare = true

theorem decisionToJson_eq_ok : decisionToJson d = .ok v ↔ Bare d ∧ v = decisionPayload d := by
  obtain ⟨key, kind, primal, diff, primalReason, diffReason, warnings⟩ := d
  unfold decisionToJson Bare decisionPayload
  cases diff with
  | none =>
    rw [bind_eq_ok]
    constructor
    · rintro ⟨_, hdiff, h⟩
      obtain rfl := ok.inj hdiff
      obtain ⟨w, hprimal, h⟩ := bind_eq_ok.mp h
      obtain ⟨hbare, rfl⟩ := strategyToJson_eq_ok.mp hprimal
      exact ⟨⟨hbare, nofun⟩, (ok.inj h).symm⟩
    · rintro ⟨⟨hbare, -⟩, rfl⟩
      exact ⟨_, rfl, bind_eq_ok.mpr ⟨_, strategyToJson_eq_ok.mpr ⟨hbare, rfl⟩, rfl⟩⟩
  | some diff =>
    rw [bind_eq_ok]
    constructor
    · rintro ⟨_, hdiff, h⟩
      obtain ⟨hbareDiff, rfl⟩ := strategyToJson_eq_ok.mp hdiff
      obtain ⟨w, hprimal, h⟩ := bind_eq_ok.mp h
      obtain ⟨hbare, rfl⟩ := strategyToJson_eq_ok.mp hprimal
      exact ⟨⟨hbare, fun s hs => some.inj hs ▸ hbareDiff⟩, (ok.inj h).symm⟩
    · rintro ⟨⟨hbare, hdiff⟩, rfl⟩
      exact ⟨_, strategyToJson_eq_ok.mpr ⟨hdiff diff rfl, rfl⟩,
        bind_eq_ok.mpr ⟨_, strategyToJson_eq_ok.mpr ⟨hbare, rfl⟩, rfl⟩⟩

theorem isNone_strategyPayload (strategy : Strategy) : isNone (strategyPayload strategy) = false := by
  cases strategy <;> rfl

/-- **What is read where the differentiated strategy stands.** -/
theorem diffFromJson_payload {diff : Option Strategy} (h : ∀ s ∈ diff, s.isBare = true)
    {r : Option RawStrategy} : diffFromJson ((diff.map strategyPayload).getD .none) = .ok r ↔
      (∀ s ∈ diff, s.isAxis = true) ∧ r = diff.map rawStrategy := by
  cases diff with
  | none => exact ⟨fun hr => ⟨nofun, (ok.inj hr).symm⟩, fun hr => congrArg ok hr.2.symm⟩
  | some diff =>
    have hread := strategyFromJson_payload (h diff rfl)
    rw [map_some, getD_some, diffFromJson, isNone_strategyPayload, hread]
    show (if (rawStrategy diff).type = .staticWhile ∨ (rawStrategy diff).type = .opPrimal then
        error (FromJsonError.diffType (rawStrategy diff).type)
      else .ok (some (rawStrategy diff))) = .ok r ↔ _
    rw [type_rawStrategy]
    by_cases haxis : diff.isAxis = true
    · rw [if_neg (isAxis_iff.mp haxis)]
      exact ⟨fun hr => ⟨fun s hs => some.inj hs ▸ haxis, (ok.inj hr).symm⟩,
        fun hr => congrArg ok hr.2.symm⟩
    · rw [if_pos (not_not.mp (mt isAxis_iff.mpr haxis))]
      exact ⟨nofun, fun hr => absurd (hr.1 diff rfl) haxis⟩

/-- **A written decision is read back if its differentiated strategy is one of an axis.** -/
theorem decisionFromJson_payload (h : Bare d) {r : RawDecision} :
    decisionFromJson (decisionPayload d) = .ok r ↔ Typed d ∧ r = rawDecision d := by
  have hread : decisionFromJson (decisionPayload d) = (do
      let diff ← diffFromJson ((d.diff.map strategyPayload).getD .none)
      let key ← keyFromJson (keyToJson d.key)
      let primal ← strategyFromJson (strategyPayload d.primal)
      return { rawDecision d with key := key, primal := primal, diff := diff }) := rfl
  rw [hread, keyFromJson_toJson, strategyFromJson_payload h.1, bind_eq_ok]
  constructor
  · rintro ⟨diff, hdiff, hr⟩
    obtain ⟨htyped, rfl⟩ := (diffFromJson_payload h.2).mp hdiff
    exact ⟨htyped, (ok.inj hr).symm⟩
  · rintro ⟨htyped, rfl⟩
    exact ⟨_, (diffFromJson_payload h.2).mpr ⟨htyped, rfl⟩, rfl⟩

end Parts

/-! ### The round trip -/

section RoundTrip

variable {floatRepr : PyFloat → List Char} {contextRepr : Context → String} {depth : Nat}
  {plan : Plan} {text : List Char} {v : PyVal}

/-- What a plan is written as. -/
def planPayload (contextRepr : Context → String) (plan : Plan) : PyVal :=
  obj
    [("schema_version", .int plan.schemaVersion), ("context", .str (py (contextRepr plan.context))),
      ("decisions", .list (plan.decisions.map decisionPayload)), ("warnings", texts plan.warnings)]

theorem payload_eq_ok : payload contextRepr plan = .ok v ↔
    (∀ d ∈ plan.decisions, Bare d) ∧ v = planPayload contextRepr plan := by
  unfold payload
  rw [bind_eq_ok]
  constructor
  · rintro ⟨decisions, hdecisions, h⟩
    obtain ⟨hbare, rfl⟩ := (mapM_eq_ok_iff fun _ _ _ => decisionToJson_eq_ok).mp hdecisions
    exact ⟨hbare, (ok.inj h).symm⟩
  · rintro ⟨hbare, rfl⟩
    exact ⟨_, (mapM_eq_ok_iff fun _ _ _ => decisionToJson_eq_ok).mpr ⟨hbare, rfl⟩, rfl⟩

theorem plainly_texts (warnings : List String) : PyJson.Plainly (texts warnings) := by
  refine .list fun v hv => ?_
  obtain ⟨warning, -, rfl⟩ := List.mem_map.mp hv
  exact .str (PyJson.unpaired_py warning)

theorem plainly_strategyPayload (strategy : Strategy) :
    PyJson.Plainly (strategyPayload strategy) := by
  have htext : ∀ s : String, PyJson.Plainly (.str (py s)) := fun s => .str (PyJson.unpaired_py s)
  cases strategy with
  | op primal =>
    have hbackend : PyJson.Plainly (optional primal.backend) := by
      cases primal.backend with
      | none => exact .none
      | some backend => exact htext backend
    exact .obj (by simp) (by simp [htext, hbackend])
  | chunkedMap batchSize => exact .obj (by simp) (by simp [htext, PyJson.Plainly.int])
  | scan orderedSinks => exact .obj (by simp) (by simp [htext, PyJson.Plainly.bool])
  | staticWhile length => exact .obj (by simp) (by simp [htext, PyJson.Plainly.int])
  | _ => exact .obj (by simp) (by simp [htext])

theorem plainly_keyToJson (key : SiteKey) : PyJson.Plainly (keyToJson key) := by
  have htext : ∀ s : String, PyJson.Plainly (.str (py s)) := fun s => .str (PyJson.unpaired_py s)
  induction key with
  | root path label ordinal =>
    exact .obj (by simp) (by simp [htext, PyJson.Plainly.int, PyJson.Plainly.none])
  | child parent path label ordinal ih =>
    exact .obj (by simp) (by simp [htext, PyJson.Plainly.int, ih])

theorem plainly_planPayload (contextRepr : Context → String) (plan : Plan) :
    PyJson.Plainly (planPayload contextRepr plan) := by
  have htext : ∀ s : String, PyJson.Plainly (.str (py s)) := fun s => .str (PyJson.unpaired_py s)
  have hdecisions : PyJson.Plainly (.list (plan.decisions.map decisionPayload)) := by
    refine .list fun v hv => ?_
    obtain ⟨d, -, rfl⟩ := List.mem_map.mp hv
    have hdiff : PyJson.Plainly ((d.diff.map strategyPayload).getD .none) := by
      cases d.diff with
      | none => exact .none
      | some diff => exact plainly_strategyPayload diff
    exact .obj (by simp)
      (by simp [htext, hdiff, plainly_texts, plainly_keyToJson, plainly_strategyPayload])
  exact .obj (by simp) (by simp [htext, hdecisions, plainly_texts, PyJson.Plainly.int])

theorem toJson_eq_ok : toJson floatRepr contextRepr depth plan = .ok text ↔
    (∀ d ∈ plan.decisions, Bare d) ∧
      PyJson.dumpsSpaced floatRepr depth (planPayload contextRepr plan) = some text := by
  unfold toJson
  rw [bind_eq_ok]
  constructor
  · rintro ⟨v, hv, h⟩
    obtain ⟨hbare, rfl⟩ := payload_eq_ok.mp hv
    cases hdumps : PyJson.dumpsSpaced floatRepr depth (planPayload contextRepr plan) with
    | none =>
      rw [hdumps] at h
      cases h
    | some written =>
      rw [hdumps] at h
      exact ⟨hbare, congrArg some (ok.inj h)⟩
  · rintro ⟨hbare, hdumps⟩
    exact ⟨_, payload_eq_ok.mpr ⟨hbare, rfl⟩, by rw [hdumps]; rfl⟩

/-- **A written plan is read back** if no differentiated strategy is a `StaticWhile` or an
`OpPrimal`. -/
theorem fromJson_toJson (hversion : plan.schemaVersion = planSchemaVersion)
    (h : toJson floatRepr contextRepr depth plan = .ok text) :
    fromJson depth text plan.context = .ok (rawPlan plan) ↔ ∀ d ∈ plan.decisions, Typed d := by
  obtain ⟨hbare, hdumps⟩ := toJson_eq_ok.mp h
  have hloads := PyJson.loads_dumpsSpaced (plainly_planPayload contextRepr plan) hdumps
  have hone : isSchemaVersion (.int plan.schemaVersion) = true := by rw [hversion]; rfl
  have hread : fromJson depth text plan.context = (do
      let decisions ← (plan.decisions.map decisionPayload).mapM decisionFromJson
      return { rawPlan plan with decisions := decisions }) := by
    unfold fromJson
    rw [hloads]
    show (do
      if !isSchemaVersion (.int plan.schemaVersion) then
        throw (FromJsonError.schemaVersion (.int plan.schemaVersion))
      let decisions ← (plan.decisions.map decisionPayload).mapM decisionFromJson
      return { rawPlan plan with decisions := decisions }) = _
    rw [hone]
    rfl
  have hdecisions : ∀ rs, (plan.decisions.map decisionPayload).mapM decisionFromJson = .ok rs ↔
      (∀ d ∈ plan.decisions, Typed d) ∧ rs = plan.decisions.map rawDecision := by
    intro rs
    rw [List.mapM_map]
    exact mapM_eq_ok_iff fun d hd _ => decisionFromJson_payload (hbare d hd)
  rw [hread, bind_eq_ok]
  constructor
  · rintro ⟨rs, hrs, -⟩
    exact ((hdecisions rs).mp hrs).1
  · intro htyped
    exact ⟨_, (hdecisions _).mpr ⟨htyped, rfl⟩, rfl⟩

end RoundTrip

/-! ### Plans that a resolution made -/

section Resolution

variable {jax : Jax} {records : List SiteRecord} {ctx : Context} {overrides : Overrides}
  {mode : DiffMode} {plan : Plan} {budget : Option (BatchPlanner.MemoryBudget Unit)}
  {axisDecisions : List (BatchPlanner.AxisDecision Unit)} {record : SiteRecord}
  {d d' : SiteDecision}

/-- The overrides hold no callables. -/
def BareOverrides (overrides : Overrides) : Prop :=
  ∀ e ∈ overrides, e.2.1.isBare = true ∧ ∀ s ∈ e.2.2, s.isBare = true

/-- Written, and read back. -/
def Kept (d : SiteDecision) : Prop := Bare d ∧ Typed d

theorem isBare_of_isMap {s : Strategy} (h : s.isMap = true) : s.isBare = true ∧ s.isAxis = true := by
  cases s with
  | vmap | chunkedMap => exact ⟨rfl, rfl⟩
  | _ => cases h

theorem isAxis_of_isScan {s : Strategy} (h : s.isScan = true) : s.isAxis = true := by
  cases s with
  | scan => rfl
  | _ => cases h

theorem kept_automatic (h : Automatic record ctx mode d) : Kept d := by
  cases h with
  | op hkind h =>
    unfold opDecision at h
    split at h
    · cases h
    · obtain rfl := ok.inj h
      exact ⟨⟨rfl, nofun⟩, nofun⟩
  | loop =>
    unfold loopChoice
    cases record.length with
    | none => exact ⟨⟨rfl, nofun⟩, nofun⟩
    | some length =>
      cases forbidsStaticWhile ctx <;> cases mode.available <;>
        exact ⟨⟨rfl, by simp [decision, Strategy.isBare]⟩, by simp [Typed, decision, Strategy.isAxis]⟩
  | map _ hmap =>
    obtain ⟨hbare, haxis⟩ := isBare_of_isMap hmap
    exact ⟨⟨hbare, fun s hs => some.inj hs ▸ hbare⟩, fun s hs => some.inj hs ▸ haxis⟩

theorem kept_applyOverride {override : Override} (hprimal : override.1.isBare = true)
    (hdiff : ∀ s ∈ override.2, s.isBare = true)
    (h : applyOverride record override mode = .ok d) : Kept d := by
  obtain ⟨primal, diff⟩ := override
  unfold applyOverride at h
  dsimp only at h hprimal hdiff
  split at h
  · split at h
    · cases h
    · rename_i hmaps
      obtain rfl := ok.inj h
      have hmaps : primal.isMap = true ∧ (diff.getD primal).isMap = true := by simpa using hmaps
      obtain ⟨hbare, haxis⟩ := isBare_of_isMap hmaps.2
      exact ⟨⟨hprimal, fun s hs => some.inj hs ▸ hbare⟩, fun s hs => some.inj hs ▸ haxis⟩
  · split at h
    · split at h
      · cases h
      · cases diff with
        | some diff => cases h
        | none =>
          obtain rfl := ok.inj h
          exact ⟨⟨hprimal, fun s hs => by cases hs⟩, fun s hs => by cases hs⟩
    · split at h
      · cases h
      · split at h
        · cases h
        · cases diff with
          | none =>
            dsimp only at h
            split at h
            · obtain rfl := ok.inj h
              exact ⟨⟨hprimal, fun s hs => some.inj hs ▸ rfl⟩, fun s hs => some.inj hs ▸ rfl⟩
            · obtain rfl := ok.inj h
              exact ⟨⟨hprimal, fun s hs => by cases hs⟩, fun s hs => by cases hs⟩
          | some diff =>
            dsimp only at h
            split at h
            · rename_i hscan
              obtain rfl := ok.inj h
              exact ⟨⟨hprimal, hdiff⟩, fun s hs => some.inj hs ▸ isAxis_of_isScan hscan⟩
            · cases h

theorem kept_chosenDecision (hoverrides : BareOverrides overrides)
    (h : chosenDecision record ctx budget axisDecisions overrides mode = .ok d) : Kept d := by
  unfold chosenDecision at h
  obtain ⟨automatic, hautomatic, h⟩ := bind_eq_ok.mp h
  split at h
  · obtain rfl := ok.inj h
    exact kept_automatic (automaticDecision_automatic hautomatic)
  · rename_i override hoverride
    obtain ⟨before, after, heq, -⟩ := List.lookup_eq_some_iff.mp hoverride
    have hmem : (record.key.label, override) ∈ overrides := by rw [heq]; simp
    obtain ⟨hprimal, hdiff⟩ := hoverrides _ hmem
    exact kept_applyOverride hprimal hdiff h

/-- **Every decision of a resolution has a JSON form**, unless an override holds a callable. -/
theorem kept_resolve (hoverrides : BareOverrides overrides)
    (h : resolve jax records ctx overrides mode = .ok plan) : ∀ d ∈ plan.decisions, Kept d := by
  obtain ⟨R⟩ := resolve_ok h
  have hchosen : ∀ key d, R.chosen key = some d → Kept d := by
    intro key d hd
    obtain ⟨_, -, -, -, hmade⟩ := (chooseAll_spec R.chosen_eq).sound key d hd
    exact kept_chosenDecision hoverrides hmade
  have hfinal : ∀ key d, R.final key = some d → Kept d := by
    intro key d hd
    obtain ⟨_, -, -, -, _, hmade⟩ := (hazardLoop_spec R.final_eq).sound key d hd
    obtain ⟨d₀, _, hd₀, -, hcases⟩ := withHazards_spec hmade
    obtain ⟨⟨hprimal, hdiff⟩, htyped⟩ := hchosen _ _ hd₀
    rcases hcases with ⟨hsame, -⟩ | ⟨hmoved, -⟩
    · unfold Kept Bare Typed
      rw [hsame.primal, hsame.diff]
      exact ⟨⟨hprimal, hdiff⟩, htyped⟩
    · unfold Kept Bare Typed
      rw [hmoved.primal, hmoved.diff]
      exact ⟨⟨rfl, fun s hs => some.inj hs ▸ rfl⟩, fun s hs => some.inj hs ▸ rfl⟩
  intro d hd
  obtain ⟨r, -, hmade⟩ := exists_of_forall₂ R.decisions.flip hd
  unfold finalDecision at hmade
  split at hmade
  · split at hmade
    · cases hmade
    · rename_i hsome
      obtain rfl := ok.inj hmade
      exact hfinal _ _ hsome
  · unfold diffVisit at hmade
    split at hmade
    · obtain ⟨d₁, hd₁, hmade⟩ := bind_eq_ok.mp hmade
      obtain ⟨⟨⟩, -, hmade⟩ := bind_eq_ok.mp hmade
      obtain rfl := ok.inj hmade
      exact kept_automatic (noTwinDecision_automatic hd₁)
    · rename_i twin htwin
      obtain rfl := ok.inj hmade
      exact (show Kept twin from hfinal _ _ htwin)

/-- **Plans are read back as they were written**, when no differentiated strategy is a `StaticWhile`
or an `OpPrimal`; and a plan that a resolution made under overrides without callables is one of
those, and has a JSON form within the limits of the interpreter. -/
theorem plan_round_trip (floatRepr : PyFloat → List Char) (contextRepr : Context → String)
    (depth : Nat) :
    (∀ (plan : Plan) (text : List Char), plan.schemaVersion = planSchemaVersion →
      toJson floatRepr contextRepr depth plan = .ok text →
        (fromJson depth text plan.context = .ok (rawPlan plan) ↔
          ∀ d ∈ plan.decisions, ∀ s ∈ d.diff, s.isAxis = true)) ∧
      ∀ (jax : Jax) (records : List SiteRecord) (ctx : Context) (overrides : Overrides)
        (mode : DiffMode) (plan : Plan), resolve jax records ctx overrides mode = .ok plan →
        (∀ e ∈ overrides, e.2.1.isBare = true ∧ ∀ s ∈ e.2.2, s.isBare = true) →
          (∀ d ∈ plan.decisions, ∀ s ∈ d.diff, s.isAxis = true) ∧
            ∃ v, payload contextRepr plan = .ok v ∧ (v.printable = true → v.levels ≤ depth →
              ∃ text, toJson floatRepr contextRepr depth plan = .ok text) := by
  refine ⟨fun plan text hversion h => fromJson_toJson hversion h, ?_⟩
  intro jax records ctx overrides mode plan h hoverrides
  have hkept := kept_resolve hoverrides h
  have hbare : ∀ d ∈ plan.decisions, Bare d := fun d hd => (hkept d hd).1
  refine ⟨fun d hd => (hkept d hd).2, _, payload_eq_ok.mpr ⟨hbare, rfl⟩, ?_⟩
  intro hprint hlevels
  refine ⟨(planPayload contextRepr plan).spaced floatRepr, toJson_eq_ok.mpr ⟨hbare, if_pos ?_⟩⟩
  rw [hprint, Bool.true_and]
  exact decide_eq_true hlevels

end Resolution

/-! ### A loop with an override -/

namespace Overridden

def jax : Jax := ⟨"cpu", fun _ _ => none⟩

def record : SiteRecord :=
  { key := .root .primal "steps" 0, kind := .loop, avals := [[4]], length := some 3 }

/-- The decision for the loop, with a `Scan` for its label. -/
def decided (transition : Option Held) : SiteDecision where
  key := record.key
  kind := .loop
  primal := .scan true transition
  diff := some (.scan true)
  primalReason := "override:steps"
  diffReason := "override:steps"

theorem resolve_override (transition : Option Held) :
    resolve jax [record] {} [("steps", .scan true transition, none)] {} =
      .ok { schemaVersion := 1, context := {}, decisions := [decided transition] } := by
  rfl

end Overridden

theorem plan_round_trip_loop : ∃ plan text,
    resolve Overridden.jax [Overridden.record] {} [("steps", .scan true, none)] {} = .ok plan ∧
      toJson (fun _ => []) (fun _ => "Context()") 8 plan = .ok text ∧
      fromJson 8 text plan.context = .ok (rawPlan plan) := by
  have hround := plan_round_trip (fun _ => []) (fun _ => "Context()") 8
  have hplan := Overridden.resolve_override none
  obtain ⟨htyped, v, hv, hwritten⟩ := hround.2 _ _ _ _ _ _ hplan (by decide)
  obtain rfl := Except.ok.inj hv
  obtain ⟨text, htext⟩ := hwritten (by decide) (by decide)
  exact ⟨_, text, hplan, htext, (hround.1 _ text rfl htext).mpr htyped⟩

/-- A `Scan` with a callable is a strategy that a resolution hands on, and has no JSON form. -/
theorem callable_not_written : ∃ plan,
    resolve Overridden.jax [Overridden.record] {} [("steps", .scan true (some ⟨0⟩), none)] {} =
        .ok plan ∧
      toJson (fun _ => []) (fun _ => "Context()") 1000 plan =
        .error (.value ("Scan cannot be serialised when transition or init is set " ++
          "(callables cannot be serialised)")) :=
  ⟨_, Overridden.resolve_override (some ⟨0⟩), rfl⟩

end PlanJson

end Xtrax.Intent
