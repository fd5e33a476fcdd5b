import Xtrax.IrSchemaFits

/-!
# Graph documents and their published schema

A graph that is written to a document is read back from it, and the document satisfies the schema
that is published for it, just when no string slot's minimal length is a boolean
(`documented_iff`): the loader takes `min_length = true` for an integer, and what is published
then is no schema.
-/

namespace Xtrax.Graph

open List

open IrSchema (accepts_graphDocument emitIrSchema emitIrSchema_eq_ok irSchema isSchema_irSchema)
open JsonSchema (Satisfies)
open NodeMetadata (BooleanLength HasBooleanLength NodeMetadataSchema SlotDefinition
  hasBooleanLength_iff loadNodeMetadataSchema)
open PyJson
open Toml (Entries Value)

section

variable {schema : NodeMetadataSchema} {Obj : Type} [DecidableEq Obj]

/-- The graph is written, read back as it was, and its document satisfies the published schema. -/
def RoundTrips (python : Python Obj) (floatRepr : PyFloat → List Char) (depth : Nat)
    (graph : HostPrepGraph schema Obj) : Prop :=
  ∃ text document published, dumpGraph python floatRepr graph = .ok text ∧
    (loadGraph schema python depth text).Returns graph ∧
    loads depth text = .ok document ∧ emitIrSchema schema = .ok published ∧
    Satisfies published document

/-- A document without a supported version is refused before anything is imported. -/
def Gated (schema : NodeMetadataSchema) (python : Python Obj) : Prop :=
  ∀ fields, ¬ Supported fields → ∃ problem, ∀ log,
    (deserializeGraph schema python (.dict fields)).run log = (.error (.schemaVersion problem), log)

theorem not_roundTrips {python : Python Obj} {floatRepr : PyFloat → List Char} {depth : Nat}
    {graph : HostPrepGraph schema Obj} {slot : SlotDefinition} (hslot : slot ∈ schema.slots)
    (hlength : BooleanLength slot) : ¬ RoundTrips python floatRepr depth graph := by
  rintro ⟨_, _, published, -, -, -, hpublished, hschema, -⟩
  obtain ⟨defs, hemit, hdefs⟩ := emitIrSchema_eq_ok schema
  rw [hemit] at hpublished
  obtain rfl := Except.ok.inj hpublished
  exact (isSchema_irSchema hdefs).mp hschema slot hslot hlength

/-- **Documents round trip and fit their schema just when no string slot's length is a boolean.**
For every slot schema that the loader accepts, and every graph whose callables are attributes of
modules and whose ids and metadata JSON holds. -/
theorem documented_iff {F : Type} {isDecimal : Char → Bool} {data : Entries F}
    (hload : loadNodeMetadataSchema isDecimal data = .ok schema) {python : Python Obj}
    {floatRepr : PyFloat → List Char} {depth : Nat} {graph : HostPrepGraph schema Obj}
    (hgraph : Storable python floatRepr depth graph) :
    RoundTrips python floatRepr (depth + 3) graph ∧ Gated schema python ↔
      ¬ HasBooleanLength data := by
  rw [hasBooleanLength_iff hload]
  constructor
  · rintro ⟨hroundTrips, -⟩ ⟨slot, hslot, hlength⟩
    exact not_roundTrips hslot hlength hroundTrips
  · intro hnone
    have hlength : ∀ slot ∈ schema.slots, ¬ BooleanLength slot :=
      fun slot hslot hlength => hnone ⟨slot, hslot, hlength⟩
    obtain ⟨defs, hemit, hdefs⟩ := emitIrSchema_eq_ok schema
    obtain ⟨documents, text, hdocuments, hdump, hloads, hread⟩ := loadGraph_dumpGraph hgraph
    refine ⟨⟨text, _, _, hdump, hread, hloads, hemit, ?_⟩, fun fields hfields => ?_⟩
    · exact ⟨(isSchema_irSchema hdefs).mpr hlength, 8, accepts_graphDocument hdocuments hlength⟩
    · exact deserializeGraph_refused hfields

end

/-! ### Two slot schemas -/

namespace Sample

/-- A slot schema with a description of a given minimal length, and citations. -/
def slots (minLength : Value Unit) : Entries Unit :=
  [("schema", .table [("version", .text "0.1.0"), ("schema_version", .text "1")]),
    ("slots", .array [
      .table [("id", .text "nl_description"), ("required", .boolean true),
        ("type", .text "string"), ("min_length", minLength)],
      .table [("id", .text "citations"), ("required", .boolean false),
        ("type", .text "array"), ("item_type", .text "citation")]])]

def schema (minLength : NodeMetadata.PyInt) (h : 1 ≤ minLength.value) : NodeMetadataSchema where
  version := "0.1.0"
  schemaVersion := "1"
  slots := [
    { id := "nl_description", required := true, type := .string, minLength := some minLength
      positive := fun _ hn => Option.some.inj hn ▸ h
      values := none, fields := none, itemType := none, citations := nofun },
    { id := "citations", required := false, type := .array, minLength := none
      positive := nofun, values := none, fields := none, itemType := some "citation"
      citations := fun _ => rfl }]
  distinct := by simp only [List.map_cons, List.map_nil]; decide

theorem load_boolean : loadNodeMetadataSchema Char.isDigit (slots (.boolean true)) =
    .ok (schema (.bool true) (by decide)) := rfl

theorem load_integer : loadNodeMetadataSchema Char.isDigit (slots (.integer 1)) =
    .ok (schema (.int 1) (by decide)) := rfl

/-- The attributes of the module: one callable, `add`. -/
def attributes (name : PyStr) : Option Unit := if name = py "add" then some () else none

/-- One module, `jobs.steps`. -/
def python : Python Unit where
  importModule moduleName := if moduleName = py "jobs.steps" then some attributes else none
  callable _ := true
  moduleName _ := some (py "jobs.steps")
  qualname _ := some (py "add")

def floatRepr (_ : PyFloat) : List Char := "0.5".toList

def half : PyFloat := .decimal false 5 (-1)

def metadata : Dict PyStr PyVal where
  entries := [(py "nl_description", .str (py "adds \"one\"")),
    (py "citations", .list [.dict [(py "doi", .str (py "10.1/x")), (py "weight", .float half)]])]
  nodup := by simp only [List.map_cons, List.map_nil]; decide

theorem isAttribute : IsAttribute python () (py "jobs.steps") (py "add") where
  callable := rfl
  inModule := rfl
  named := rfl
  attr := by
    refine ⟨attributes, ?_, if_pos rfl⟩
    show (if py "jobs.steps" = py "jobs.steps" then some attributes else none) = some attributes
    exact if_pos rfl
  nonempty := by decide
  identifier := by decide
  text := ⟨unpaired_py _, unpaired_py _⟩

theorem writes_half : WritesFloat floatRepr half :=
  ⟨[], ['0'], ['.', '5'], [], ⟨⟨.inl rfl, ⟨nofun, all_eq_true.mp rfl, fun _ => rfl⟩,
    .digits nofun (all_eq_true.mp rfl), .none⟩, .inl nofun⟩, rfl, rfl⟩

theorem stored_metadata : Stored floatRepr 3 (.dict metadata.entries) := by
  have hcitation : Stored floatRepr 1
      (.obj [("doi", .str (py "10.1/x")), ("weight", .float half)]) := by
    apply Stored.obj (by decide)
    simp only [forall_mem_cons]
    exact ⟨.str (unpaired_py _), .float writes_half, nofun⟩
  have hmetadata : Stored floatRepr 3 (.obj [("nl_description", .str (py "adds \"one\"")),
      ("citations", .list [.obj [("doi", .str (py "10.1/x")), ("weight", .float half)]])]) := by
    apply Stored.obj (by simp only [map_cons, map_nil]; decide)
    simp only [forall_mem_cons]
    exact ⟨.str (unpaired_py _), .list (forall_mem_singleton.mpr hcitation), nofun⟩
  exact hmetadata

theorem storable {schema : NodeMetadataSchema} {graph : HostPrepGraph schema Unit}
    (h : ∀ node ∈ graph.nodes, (∃ id, node.id = py id) ∧ node.metadata = metadata) :
    Storable python floatRepr 3 graph where
  callables node _ := ⟨_, _, isAttribute⟩
  ids node hnode := by
    obtain ⟨id, hid⟩ := (h node hnode).1
    rw [hid]
    exact unpaired_py id
  metadata node hnode := by
    rw [(h node hnode).2]
    exact stored_metadata

/-- Two nodes and an edge, under a length that is an integer. -/
def graph : HostPrepGraph (schema (.int 1) (by decide)) Unit where
  nodes := [
    { id := py "a", callableRef := (), metadata := metadata, frozen := true, valid := rfl },
    { id := py "b", callableRef := (), metadata := metadata, frozen := false, valid := rfl }]
  edges := [{ src := py "a", dst := py "b" }]
  distinct := by decide
  known := by decide

theorem documented_integer :
    RoundTrips python floatRepr 6 graph ∧ Gated (schema (.int 1) (by decide)) python := by
  refine (documented_iff load_integer (storable ?_)).mpr ?_
  · simp only [graph, List.forall_mem_cons]
    exact ⟨⟨⟨"a", rfl⟩, trivial⟩, ⟨⟨"b", rfl⟩, trivial⟩, nofun⟩
  · rw [hasBooleanLength_iff load_integer]
    rintro ⟨slot, hslot, -, b, hb⟩
    obtain rfl | hslot := List.mem_cons.mp hslot
    · cases hb
    · obtain rfl := List.mem_singleton.mp hslot
      cases hb

def booleanGraph : HostPrepGraph (schema (.bool true) (by decide)) Unit where
  nodes := [{ id := py "a", callableRef := (), metadata := metadata, frozen := true, valid := rfl }]
  edges := []
  distinct := by decide
  known := by decide

theorem not_documented_boolean :
    loadNodeMetadataSchema Char.isDigit (slots (.boolean true)) =
        .ok (schema (.bool true) (by decide)) ∧
      Storable python floatRepr 3 booleanGraph ∧
      ¬ (RoundTrips python floatRepr 6 booleanGraph ∧
        Gated (schema (.bool true) (by decide)) python) := by
  refine ⟨load_boolean, storable ?_, fun h => ?_⟩
  · simp only [booleanGraph, List.forall_mem_cons]
    exact ⟨⟨⟨"a", rfl⟩, trivial⟩, nofun⟩
  · exact not_roundTrips List.mem_cons_self ⟨rfl, true, rfl⟩ h.1

end Sample

end Xtrax.Graph
