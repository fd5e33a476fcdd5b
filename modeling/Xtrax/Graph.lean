import Xtrax.NodeMetadata
import Xtrax.PyJsonIndent

/-!
# Graph documents

`HostPrepGraph`, and how it is written to a JSON document (`dumpGraph`) and read from one
(`loadGraph`).  A node and a graph carry what their constructors check.  Reading keeps a log of the
modules it imports: a document whose version is refused imports none.
-/

namespace Xtrax.Graph

open NodeMetadata (MetadataError NodeMetadataSchema validateNodeMetadata)
open PyJson

/-! ### Objects -/

/-- What Python knows about its objects, which are told apart by their identity. -/
structure Python (Obj : Type) where
  /-- `importlib.import_module`, none for an `ImportError`, and `getattr` of the module. -/
  importModule : PyStr → Option (PyStr → Option Obj)
  callable : Obj → Bool
  moduleName : Obj → Option PyStr
  qualname : Obj → Option PyStr

structure GraphEdge where
  src : PyStr
  dst : PyStr
  deriving DecidableEq

inductive SerializationProblem
  | noQualname
  | notTopLevel (qualname : PyStr)
  | notImported (module : PyStr)
  | notSame (module qualname : PyStr)
  | notString
  | malformed (path : PyStr)
  | emptyPart (path : PyStr)
  | cannotImport (module path : PyStr)
  | noAttribute (module attr path : PyStr)
  | notCallable (path : PyStr)
  deriving DecidableEq

/-- `SchemaVersionError`. -/
inductive VersionProblem
  | missing
  | notInt
  | old (version : Int)
  | unknown (version : Int)
  deriving DecidableEq

/-- The `ValueError`s of a document of another shape. -/
inductive ShapeProblem
  | graphObject
  | nodesMissing
  | nodesList
  | nodeObject
  | nodeField (key : String)
  | edgesList
  | edgeObject
  deriving DecidableEq

inductive GraphError
  | serialization (problem : SerializationProblem)
  | schemaVersion (problem : VersionProblem)
  | shape (problem : ShapeProblem)
  | metadata (e : MetadataError)
  | duplicateIds (ids : List PyStr)
  | unknownEnd (edge : GraphEdge)
  /-- A field that is not of its annotated type.  Nothing checks it, and what Python makes of it
  is left open. -/
  | untyped (field : String)
  | json (e : LoadError)
  /-- An integer with too many digits to be written. -/
  | digits
  deriving DecidableEq

/-! ### Graphs -/

/-- `HostPrepGraphNode`, under the slots of `node_metadata_schema.toml`. -/
structure HostPrepGraphNode (schema : NodeMetadataSchema) (Obj : Type) where
  id : PyStr
  callableRef : Obj
  metadata : Dict PyStr PyVal
  frozen : Bool
  valid : validateNodeMetadata schema metadata.entries = .ok ()

structure HostPrepGraph (schema : NodeMetadataSchema) (Obj : Type) where
  nodes : List (HostPrepGraphNode schema Obj)
  edges : List GraphEdge
  distinct : (nodes.map HostPrepGraphNode.id).Nodup
  known : ∀ edge ∈ edges, edge.src ∈ nodes.map HostPrepGraphNode.id ∧
    edge.dst ∈ nodes.map HostPrepGraphNode.id

section Construct

variable {schema : NodeMetadataSchema} {Obj : Type}

def HostPrepGraphNode.new (id : PyStr) (callableRef : Obj) (metadata : Dict PyStr PyVal)
    (frozen : Bool) : Except GraphError (HostPrepGraphNode schema Obj) :=
  match valid : validateNodeMetadata schema metadata.entries with
  | .ok () => .ok { id, callableRef, metadata, frozen, valid }
  | .error e => .error (.metadata e)

/-- An edge of which an end is no node. -/
def dangling (ids : List PyStr) (edge : GraphEdge) : Bool :=
  decide (edge.src ∉ ids) || decide (edge.dst ∉ ids)

def HostPrepGraph.new (nodes : List (HostPrepGraphNode schema Obj)) (edges : List GraphEdge) :
    Except GraphError (HostPrepGraph schema Obj) :=
  let ids := nodes.map HostPrepGraphNode.id
  if distinct : ids.Nodup then
    match hfind : edges.find? (dangling ids) with
    | some edge => .error (.unknownEnd edge)
    | none => .ok
      { nodes, edges, distinct
        known := fun edge hedge => by
          have hends := List.find?_eq_none.mp hfind edge hedge
          simp only [dangling, Bool.or_eq_true, decide_eq_true_eq, not_or, not_not] at hends
          exact hends }
  else .error (.duplicateIds ((ids.filter fun id => 1 < ids.count id).dedup.mergeSort
    fun a b => !decide (b < a)))

end Construct

/-! ### Writing -/

def graphSchemaVersion : Int := 1

def minSupportedGraphSchemaVersion : Int := 1

def dot : CodePoint := point 46

def colon : CodePoint := point 58

def angle : CodePoint := point 60

section Serialize

variable {schema : NodeMetadataSchema} {Obj : Type} [DecidableEq Obj] (python : Python Obj)

def callableToImportPath (fn : Obj) : Except GraphError PyStr :=
  let moduleName := (python.moduleName fn).getD []
  let qualname := (python.qualname fn).getD []
  if moduleName = [] ∨ qualname = [] then .error (.serialization .noQualname)
  else if dot ∈ qualname ∨ angle ∈ qualname then
    .error (.serialization (.notTopLevel qualname))
  else
    match python.importModule moduleName with
    | none => .error (.serialization (.notImported moduleName))
    | some attributes =>
      if attributes qualname = some fn then .ok (moduleName ++ colon :: qualname)
      else .error (.serialization (.notSame moduleName qualname))

def serializeNode (node : HostPrepGraphNode schema Obj) : Except GraphError PyVal := do
  let path ← callableToImportPath python node.callableRef
  return .obj [("id", .str node.id), ("callable_ref", .str path),
    ("metadata", .dict node.metadata.entries), ("frozen", .bool node.frozen)]

def serializeEdge (edge : GraphEdge) : PyVal :=
  .obj [("src", .str edge.src), ("dst", .str edge.dst)]

def serializeGraph (graph : HostPrepGraph schema Obj) : Except GraphError PyVal := do
  let nodes ← graph.nodes.mapM (serializeNode python)
  return .obj [("schema_version", .int graphSchemaVersion), ("nodes", .list nodes),
    ("edges", .list (graph.edges.map serializeEdge))]

/-- `dump_graph`, the text that is written. -/
def dumpGraph (floatRepr : PyFloat → List Char) (graph : HostPrepGraph schema Obj) :
    Except GraphError (List Char) := do
  let document ← serializeGraph python graph
  match dumpsIndented floatRepr document with
  | some text => return text
  | none => throw .digits

end Serialize

/-! ### Reading -/

/-- A step of the reader, over the log of the modules that were imported. -/
abbrev Load (A : Type) := ExceptT GraphError (StateM (List PyStr)) A

def Load.run {A : Type} (x : Load A) (log : List PyStr) : Except GraphError A × List PyStr :=
  StateT.run (ExceptT.run x) log

def load {A : Type} (x : Except GraphError A) : Load A := ExceptT.mk (pure x)

section Deserialize

variable (schema : NodeMetadataSchema) {Obj : Type} (python : Python Obj)

def importModule (name : PyStr) : Load (Option (PyStr → Option Obj)) := do
  modify fun log => log ++ [name]
  return python.importModule name

/-- `path.rpartition(":")`, without the separator. -/
def rpartition (separator : CodePoint) (path : PyStr) : PyStr × PyStr :=
  ((path.reverse.dropWhile fun c => decide (c ≠ separator)).tail.reverse,
    (path.reverse.takeWhile fun c => decide (c ≠ separator)).reverse)

def resolveImportPath : PyVal → Load Obj
  | .str path =>
    let (moduleName, attrName) := rpartition colon path
    if colon ∉ path then throw (.serialization (.malformed path))
    else if moduleName = [] ∨ attrName = [] then throw (.serialization (.emptyPart path))
    else do
      match ← importModule python moduleName with
      | none => throw (.serialization (.cannotImport moduleName path))
      | some attributes =>
        match attributes attrName with
        | none => throw (.serialization (.noAttribute moduleName attrName path))
        | some resolved =>
          if python.callable resolved then return resolved
          else throw (.serialization (.notCallable path))
  | _ => throw (.serialization .notString)

/-- The node of a document's fields; its callable is resolved before it is constructed. -/
def deserializeNode : PyVal → Load (HostPrepGraphNode schema Obj)
  | .dict fields =>
    match fields.lookup (py "id"), fields.lookup (py "callable_ref"),
      fields.lookup (py "metadata") with
    | some id, some callableRef, some metadata => do
      let callableRef ← resolveImportPath python callableRef
      match id, metadata, (fields.lookup (py "frozen")).getD (.bool false) with
      | .str id, .dict metadata, .bool frozen =>
        load (HostPrepGraphNode.new id callableRef ((∅ : Dict PyStr PyVal).update metadata) frozen)
      | .str _, .dict _, _ => throw (.untyped "frozen")
      | .str _, _, _ => throw (.untyped "metadata")
      | _, _, _ => throw (.untyped "id")
    | none, _, _ => throw (.shape (.nodeField "id"))
    | _, none, _ => throw (.shape (.nodeField "callable_ref"))
    | _, _, none => throw (.shape (.nodeField "metadata"))
  | _ => throw (.shape .nodeObject)

/-- The gate on `schema_version`. -/
def checkSchemaVersion (fields : List (PyStr × PyVal)) : Except GraphError Unit :=
  match fields.lookup (py "schema_version") with
  | none => .error (.schemaVersion .missing)
  | some (.int version) =>
    if version < minSupportedGraphSchemaVersion then .error (.schemaVersion (.old version))
    else if graphSchemaVersion < version then .error (.schemaVersion (.unknown version))
    else .ok ()
  | some _ => .error (.schemaVersion .notInt)

def deserializeEdge : PyVal → Except GraphError GraphEdge
  | .dict fields =>
    match fields.lookup (py "src"), fields.lookup (py "dst") with
    | some (.str src), some (.str dst) => .ok { src, dst }
    | some _, some _ => .error (.untyped "edge")
    | _, _ => .error (.shape .edgeObject)
  | _ => .error (.shape .edgeObject)

def deserializeGraph : PyVal → Load (HostPrepGraph schema Obj)
  | .dict fields => do
    load (checkSchemaVersion fields)
    match fields.lookup (py "nodes") with
    | none => throw (.shape .nodesMissing)
    | some (.list rawNodes) =>
      let nodes ← rawNodes.mapM (deserializeNode schema python)
      match (fields.lookup (py "edges")).getD (.list []) with
      | .list rawEdges =>
        let edges ← load (rawEdges.mapM deserializeEdge)
        load (HostPrepGraph.new nodes edges)
      | _ => throw (.shape .edgesList)
    | some _ => throw (.shape .nodesList)
  | _ => throw (.shape .graphObject)

/-- `load_graph`, of the text that is read, with the levels of nesting that `json.loads` reads. -/
def loadGraph (depth : Nat) (text : List Char) : Load (HostPrepGraph schema Obj) := do
  let document ← load ((loads depth text).mapError .json)
  deserializeGraph schema python document

end Deserialize

end Xtrax.Graph
