import Xtrax.Graph
import Xtrax.JsonSchema

/-!
# The schema of graph documents

`emit_ir_schema`: the JSON Schema of graph documents, derived from the slots of node metadata and
from the annotations of the classes it documents.  It is a schema unless a string slot's length is
a boolean (`isSchema_emitIrSchema`).
-/

namespace Xtrax.IrSchema

open Xtrax.Graph (graphSchemaVersion)
open NodeMetadata (NodeMetadataSchema PyInt SlotDefinition)
open PyJson

def string (s : String) : PyVal := .str (py s)

/-- `{"type": kind}` -/
def ofType (kind : String) : PyVal := .obj [("type", string kind)]

/-! ### Annotations -/

/-- The annotations that a field may have. -/
inductive TypeHint
  | any | none | bool | int | float | str | shapeDtypeStruct
  | enum (values : List String)
  | union (args : List TypeHint)
  /-- `tuple[item, ...]`, `list[item]`, `frozenset[item]` or `set[item]`. -/
  | sequence (item : TypeHint)
  | dict (value : TypeHint)
  | callable
  | other (name : String)

/-- `IRSchemaTypeError`: no mapping for the type of that name. -/
structure IRSchemaTypeError where
  name : String
  deriving DecidableEq

def importPathSchema : PyVal :=
  .obj [("type", string "string"), ("description", string
    "import-path 'module.path:symbol' string (xtrax.composition.serialize convention)")]

def makeNullable : PyVal → PyVal
  | .dict entries =>
    match entries.lookup (py "anyOf"), entries.lookup (py "type") with
    | some (.list branches), _ => .obj [("anyOf", .list (branches ++ [ofType "null"]))]
    | _, some (.list types) =>
      .dict (Dict.setEntry (py "type") (.list (types ++ [string "null"])) entries)
    | _, some type => .dict (Dict.setEntry (py "type") (.list [type, string "null"]) entries)
    | _, none => .dict entries
  | schema => schema

mutual

/-- `==` on schemas, in which no float stands. -/
def sameSchema : PyVal → PyVal → Bool
  | .none, .none => true
  | .bool a, .bool b => a = b
  | .int n, .int m => n = m
  | .str s, .str t => s = t
  | .list vs, .list ws => sameItems vs ws
  | .dict entries, .dict entries' => entries.length = entries'.length && sameEntries entries entries'
  | _, _ => false

def sameItems : List PyVal → List PyVal → Bool
  | [], [] => true
  | v :: vs, w :: ws => sameSchema v w && sameItems vs ws
  | _, _ => false

def sameEntries : List (PyStr × PyVal) → List (PyStr × PyVal) → Bool
  | [], _ => true
  | (k, v) :: entries, entries' =>
    (entries'.lookup k).any (fun w => sameSchema v w) && sameEntries entries entries'

end

/-- The alternatives of a union, each once. -/
def branches (schemas : List PyVal) : List PyVal :=
  schemas.foldl (fun found schema =>
    if found.any fun other => sameSchema other schema then found else found ++ [schema]) []

def unionSchema (schemas : List PyVal) : PyVal :=
  match branches schemas with
  | [schema] => schema
  | schemas => .obj [("anyOf", .list schemas)]

mutual

def typeToJsonSchema : TypeHint → Except IRSchemaTypeError PyVal
  | .any => .ok (.obj [])
  | .none => .ok (ofType "null")
  | .bool => .ok (ofType "boolean")
  | .int => .ok (ofType "integer")
  | .float => .ok (ofType "number")
  | .str => .ok (ofType "string")
  | .shapeDtypeStruct => .ok (.obj [("type", string "object"),
      ("properties", .obj [
        ("shape", .obj [("type", string "array"), ("items", ofType "integer")]),
        ("dtype", ofType "string")])])
  | .enum values => .ok (.obj [("type", string "string"), ("enum", .list (values.map string))])
  | .union args => do
    let (schemas, nullable) ← memberSchemas args
    return if nullable then makeNullable (unionSchema schemas) else unionSchema schemas
  | .sequence item => do
    let items ← typeToJsonSchema item
    return .obj [("type", string "array"), ("items", items)]
  | .dict value => do
    let values ← typeToJsonSchema value
    return .obj [("type", string "object"), ("additionalProperties", values)]
  | .callable => .ok importPathSchema
  | .other name => .error ⟨name⟩

/-- The schemas of a union's members other than `None`, and whether `None` is one. -/
def memberSchemas : List TypeHint → Except IRSchemaTypeError (List PyVal × Bool)
  | [] => .ok ([], false)
  | .none :: args => do
    let (schemas, _) ← memberSchemas args
    return (schemas, true)
  | arg :: args => do
    let schema ← typeToJsonSchema arg
    let (schemas, nullable) ← memberSchemas args
    return (schema :: schemas, nullable)

end

/-! ### Classes -/

/-- A field of a dataclass. -/
structure Field where
  name : String
  hint : TypeHint
  hasDefault : Bool

/-- The object with given properties, of which some are required. -/
def objectSchema (properties : List (String × PyVal)) (required : List String) : PyVal :=
  .obj ([("type", string "object"), ("properties", .obj properties)] ++
    if required = [] then [] else [("required", .list (required.map string))])

def dataclassToJsonSchema (fields : List Field) : Except IRSchemaTypeError PyVal := do
  let fields := fields.filter fun f => !"_".toList.isPrefixOf f.name.toList
  let properties ← fields.mapM fun f => do
    let schema ← typeToJsonSchema f.hint
    return (f.name, schema)
  return objectSchema properties ((fields.filter fun f => !f.hasDefault).map Field.name)

def protocolToJsonSchema (hints : List (String × TypeHint)) : Except IRSchemaTypeError PyVal := do
  let hints := hints.filter fun hint => !"_".toList.isPrefixOf hint.1.toList
  if hints.isEmpty then return importPathSchema
  let properties ← hints.mapM fun (name, hint) => do
    let schema ← typeToJsonSchema hint
    return (name, schema)
  return objectSchema (("callable_ref", importPathSchema) :: properties)
    ("callable_ref" :: hints.map Prod.fst)

/-- The fields of `BundleSchema`. -/
def bundleSchema : List Field :=
  [⟨"fields", .dict .shapeDtypeStruct, true⟩, ⟨"carry_specs", .union [.sequence .any, .none], true⟩]

/-- The fields of `AxisSpec`. -/
def axisSpec : List Field :=
  [⟨"name", .str, false⟩, ⟨"cardinality", .int, false⟩, ⟨"default_batch_size", .int, false⟩,
    ⟨"tile_granularity", .int, true⟩, ⟨"heterogeneous", .bool, true⟩,
    ⟨"dedup_eligible", .bool, true⟩,
    ⟨"bucket_boundaries", .union [.sequence .int, .sequence .int, .none], true⟩,
    ⟨"role", .enum ["known", "unknown"], true⟩, ⟨"element_input_bytes", .union [.int, .none], true⟩,
    ⟨"varying_inputs", .union [.sequence .str, .sequence .str, .str], true⟩]

/-- The fields of `AxisOverride`. -/
def axisOverride : List Field :=
  [⟨"name", .str, false⟩, ⟨"default_batch_size", .int, false⟩,
    ⟨"cardinality", .union [.int, .none], true⟩, ⟨"tile_granularity", .int, true⟩,
    ⟨"heterogeneous", .bool, true⟩, ⟨"dedup_eligible", .bool, true⟩,
    ⟨"bucket_boundaries", .union [.sequence .int, .none], true⟩]

/-- The annotations of `Fuse`, of `Tap` and of `Sink`. -/
def fuse : List (String × TypeHint) := []

def tap : List (String × TypeHint) := [("ordered", .bool)]

def sink : List (String × TypeHint) := [("ordered", .bool)]

/-! ### Documents -/

/-- A length, as it stands in the slot. -/
def lengthValue : PyInt → PyVal
  | .bool b => .bool b
  | .int n => .int n

def slotToJsonSchema (slot : SlotDefinition) : PyVal :=
  match slot.type with
  | .string => .obj ([("type", string "string")] ++
      (slot.minLength.map fun n => ("minLength", lengthValue n)).toList)
  | .enum => .obj [("type", string "string"),
      ("enum", .list ((slot.values.getD []).map string))]
  | .array => .obj [("type", string "array"), ("items", ofType "object")]
  | .object => .obj [("type", string "object"),
      ("properties", .obj ((slot.fields.getD ∅).entries.map fun (name, _) =>
        (name, ofType "string")))]

def nodeMetadataJsonSchema (schema : NodeMetadataSchema) : PyVal :=
  .obj [("type", string "object"),
    ("properties", .obj (schema.slots.map fun slot => (slot.id, slotToJsonSchema slot))),
    ("required", .list ((schema.slots.filter fun slot => slot.required).map
      fun slot => string slot.id))]

def ref (name : String) : PyVal := .obj [("$ref", string ("#/$defs/" ++ name))]

def nullableRef (name : String) : PyVal := .obj [("anyOf", .list [ref name, ofType "null"])]

def axisBoundaryJsonSchema : PyVal :=
  .obj [("type", string "object"), ("properties", .obj [("fuse", nullableRef "Fuse"),
    ("tap", nullableRef "Tap"), ("sink", nullableRef "Sink")])]

def nodeSchema : PyVal :=
  .obj [("type", string "object"),
    ("properties", .obj [("id", ofType "string"), ("callable_ref", importPathSchema),
      ("metadata", ref "NodeMetadata"), ("frozen", ofType "boolean")]),
    ("required", .list [string "id", string "callable_ref", string "metadata"])]

def edgeSchema : PyVal :=
  .obj [("type", string "object"),
    ("properties", .obj [("src", ofType "string"), ("dst", ofType "string")]),
    ("required", .list [string "src", string "dst"])]

/-- The definitions that no document refers to. -/
def vocabulary : Except IRSchemaTypeError (List (String × PyVal)) := do
  let bundleSchema ← dataclassToJsonSchema bundleSchema
  let axisSpec ← dataclassToJsonSchema axisSpec
  let axisOverride ← dataclassToJsonSchema axisOverride
  let fuse ← protocolToJsonSchema fuse
  let tap ← protocolToJsonSchema tap
  let sink ← protocolToJsonSchema sink
  return [("BundleSchema", bundleSchema), ("AxisSpec", axisSpec), ("AxisOverride", axisOverride),
    ("AxisBoundary", axisBoundaryJsonSchema), ("Fuse", fuse), ("Tap", tap), ("Sink", sink)]

/-- `emit_ir_schema`, with the slots that `load_node_metadata_schema` gives. -/
def emitIrSchema (schema : NodeMetadataSchema) : Except IRSchemaTypeError PyVal := do
  let vocabulary ← vocabulary
  return .obj [("$schema", string "https://json-schema.org/draft/2020-12/schema"),
    ("$id", string "xtrax://composition-ir"),
    ("schema_version", .int graphSchemaVersion),
    ("title", string "xtrax composition IR"),
    ("type", string "object"),
    ("properties", .obj [("schema_version", ofType "integer"),
      ("nodes", .obj [("type", string "array"), ("items", ref "Node")]),
      ("edges", .obj [("type", string "array"), ("items", ref "Edge")])]),
    ("required", .list [string "schema_version", string "nodes"]),
    ("$defs", .obj ([("Node", nodeSchema), ("Edge", edgeSchema),
      ("NodeMetadata", nodeMetadataJsonSchema schema)] ++ vocabulary))]

end Xtrax.IrSchema
