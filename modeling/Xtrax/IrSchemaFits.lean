import Xtrax.GraphRoundTrip
import Xtrax.IrSchema

/-!
# Graph documents fit their schema

What `emit_ir_schema` builds is a schema unless a string slot's length is a boolean
(`isSchema_emitIrSchema`), and it accepts the document of every graph (`accepts_graphDocument`).
-/

namespace Xtrax.IrSchema

open List

open Xtrax.Graph (HostPrepGraph HostPrepGraphNode IsNodeDocument graphDocument nodeDocument serializeEdge
  graphSchemaVersion)
open JsonSchema
open NodeMetadata (BooleanLength Fits NodeMetadataSchema PyInt SlotDefinition accepted_of_validate slot?_eq_some)
open PyJson

/-! ### What is a schema -/

theorem areNames_string {names : List String} (h : names.Nodup) :
    areNames (names.map string) = true := by
  have hstrings : (names.map string).mapM str? = some (names.map py) := by
    clear h
    induction names with
    | nil => rfl
    | cons name names ih =>
      rw [map_cons, mapM_cons, ih]
      rfl
  rw [areNames, hstrings]
  exact decide_eq_true (h.map py_injective)

theorem isSchema_slot (slot : SlotDefinition) :
    isSchema (slotToJsonSchema slot) = true ↔ ¬ BooleanLength slot := by
  unfold slotToJsonSchema BooleanLength
  cases htype : slot.type with
  | string =>
    cases hlength : slot.minLength with
    | none => exact iff_of_true rfl (by simp)
    | some n =>
      rw [isSchema_obj]
      show (∀ e ∈ [("type", string "string"), ("minLength", lengthValue n)], _) ↔ _
      simp only [forall_mem_cons]
      cases n with
      | bool b => exact iff_of_false (fun h => by cases h.2.1) fun h => h ⟨trivial, b, rfl⟩
      | int n =>
        have hpositive : 1 ≤ n := slot.positive _ hlength
        have htakes : takes .minLength (.int n) = true := decide_eq_true (by omega)
        exact iff_of_true ⟨by decide, htakes, by simp⟩ (by simp)
  | enum =>
    have hstrings : takes .enum (.list ((slot.values.getD []).map string)) = true := by
      refine all_eq_true.mpr fun v hv => ?_
      obtain ⟨s, -, rfl⟩ := mem_map.mp hv
      rfl
    refine iff_of_true (isSchema_obj.mpr ?_) (by simp)
    simp only [forall_mem_cons]
    exact ⟨by decide, hstrings, by simp⟩
  | array => exact iff_of_true rfl (by simp)
  | object =>
    have hfields : isSchemaMap (.obj ((slot.fields.getD ∅).entries.map fun e =>
        (e.1, ofType "string"))) = true := by
      refine isSchemaMap_obj.mpr fun e he => ?_
      obtain ⟨field, -, rfl⟩ := mem_map.mp he
      rfl
    refine iff_of_true (isSchema_obj.mpr ?_) (by simp)
    simp only [forall_mem_cons]
    exact ⟨by decide, hfields, by simp⟩

theorem isSchema_nodeMetadata (schema : NodeMetadataSchema) :
    isSchema (nodeMetadataJsonSchema schema) = true ↔
      ∀ slot ∈ schema.slots, ¬ BooleanLength slot := by
  have hrequired : takes .required (.list ((schema.slots.filter fun slot => slot.required).map
      fun slot => string slot.id)) = true := by
    have hdistinct : ((schema.slots.filter fun slot => slot.required).map
        SlotDefinition.id).Nodup := schema.distinct.sublist (filter_sublist.map _)
    have hnames := areNames_string hdistinct
    rw [map_map] at hnames
    exact hnames
  have hslots : isSchemaMap (.obj (schema.slots.map fun slot => (slot.id, slotToJsonSchema slot))) =
      true ↔ ∀ slot ∈ schema.slots, ¬ BooleanLength slot := by
    rw [isSchemaMap_obj, forall_mem_map]
    exact forall₂_congr fun slot _ => isSchema_slot slot
  rw [← hslots, nodeMetadataJsonSchema, isSchema_obj]
  simp only [forall_mem_cons]
  exact ⟨fun h => h.2.1, fun h => ⟨by decide, h, hrequired, nofun⟩⟩

/-! ### What the emitter builds -/

/-- The schema of graph documents with the definitions that no document refers to. -/
def irSchema (schema : NodeMetadataSchema) (vocabulary : List (String × PyVal)) : PyVal :=
  .obj [("$schema", string "https://json-schema.org/draft/2020-12/schema"),
    ("$id", string "xtrax://composition-ir"),
    ("schema_version", .int graphSchemaVersion),
    ("title", string "xtrax composition IR"),
    ("type", string "object"),
    ("properties", .obj [("schema_version", ofType "integer"),
      ("nodes", .obj [("type", string "array"), ("items", ref "Node")]),
      ("edges", .obj [("type", string "array"), ("items", ref "Edge")])]),
    ("required", .list [string "schema_version", string "nodes"]),
    ("$defs", .obj ([("Node", nodeSchema), ("Edge", edgeSchema),
      ("NodeMetadata", nodeMetadataJsonSchema schema)] ++ vocabulary))]

theorem exists_vocabulary : ∃ defs, vocabulary = .ok defs ∧ ∀ e ∈ defs, isSchema e.2 = true := by
  have hall : (vocabulary.toOption.any fun defs => defs.all fun e => isSchema e.2) = true := by
    decide
  cases hdefs : vocabulary with
  | error e =>
    rw [hdefs] at hall
    cases hall
  | ok defs =>
    rw [hdefs] at hall
    exact ⟨defs, rfl, all_eq_true.mp hall⟩

theorem emitIrSchema_eq_ok (schema : NodeMetadataSchema) : ∃ defs,
    emitIrSchema schema = .ok (irSchema schema defs) ∧ ∀ e ∈ defs, isSchema e.2 = true := by
  obtain ⟨defs, hdefs, hschemas⟩ := exists_vocabulary
  refine ⟨defs, ?_, hschemas⟩
  rw [emitIrSchema, hdefs]
  rfl

/-- **The emitter builds a schema** unless a string slot's length is a boolean. -/
theorem isSchema_irSchema {schema : NodeMetadataSchema} {defs : List (String × PyVal)}
    (hdefs : ∀ e ∈ defs, isSchema e.2 = true) :
    isSchema (irSchema schema defs) = true ↔ ∀ slot ∈ schema.slots, ¬ BooleanLength slot := by
  have hdefinitions : isSchemaMap (.obj ([("Node", nodeSchema), ("Edge", edgeSchema),
      ("NodeMetadata", nodeMetadataJsonSchema schema)] ++ defs)) = true ↔
      ∀ slot ∈ schema.slots, ¬ BooleanLength slot := by
    rw [← isSchema_nodeMetadata, isSchemaMap_obj, forall_mem_append]
    simp only [forall_mem_cons]
    exact ⟨fun h => h.1.2.2.1, fun h => ⟨⟨by decide, by decide, h, nofun⟩, hdefs⟩⟩
  have hname : Keyword.ofName (py "$defs") = .defs := by decide
  rw [irSchema, isSchema_obj, ← hdefinitions]
  simp only [forall_mem_cons, hname]
  refine ⟨fun h => h.2.2.2.2.2.2.2.1, fun h => ⟨?_, ?_, ?_, ?_, ?_, ?_, ?_, h, nofun⟩⟩
  all_goals decide

/-! ### What the schema accepts -/

section Accepts

variable {root : PyVal} {fuel : Nat}

theorem accepts_slot {slot : SlotDefinition} {v : PyVal} (h : Fits slot v)
    (hlength : ¬ BooleanLength slot) :
    accepts root (fuel + 2) (slotToJsonSchema slot) v = true := by
  unfold Fits at h
  unfold slotToJsonSchema
  cases htype : slot.type with
  | string =>
    rw [htype] at h
    obtain ⟨s, rfl, hs⟩ := h
    cases hn : slot.minLength with
    | none => rfl
    | some n =>
      cases n with
      | bool b => exact absurd ⟨htype, b, hn⟩ hlength
      | int n =>
        apply accepts_obj
        show ∀ e ∈ [("type", string "string"), ("minLength", lengthValue (.int n))], _
        simp only [forall_mem_cons]
        exact ⟨rfl, decide_eq_true (hs _ hn), nofun⟩
  | enum =>
    rw [htype] at h
    obtain ⟨s, rfl, hs⟩ := h
    have hany : ((slot.values.getD []).map string).any (fun w => str? w = some s) = true := by
      obtain ⟨value, hvalue, rfl⟩ := mem_map.mp hs
      exact any_eq_true.mpr ⟨_, mem_map_of_mem hvalue, decide_eq_true rfl⟩
    apply accepts_obj
    simp only [forall_mem_cons]
    exact ⟨rfl, hany, nofun⟩
  | array =>
    rw [htype] at h
    obtain ⟨vs, rfl, hvs⟩ := h
    apply accepts_obj
    simp only [forall_mem_cons]
    refine ⟨rfl, accepts_items fun v hv => ?_, nofun⟩
    obtain ⟨entries, rfl⟩ := hvs v hv
    rfl
  | object =>
    rw [htype] at h
    obtain ⟨entries, rfl, hfields⟩ := h
    apply accepts_obj
    simp only [forall_mem_cons]
    refine ⟨rfl, accepts_properties fun e he v hv => ?_, nofun⟩
    obtain ⟨field, hfield, rfl⟩ := mem_map.mp he
    cases hf : slot.fields with
    | none =>
      rw [hf] at hfield
      cases hfield
    | some fields =>
      rw [hf] at hfield
      obtain ⟨s, hs⟩ := hfields fields hf field hfield
      obtain rfl := Option.some.inj (hs.symm.trans hv)
      rfl

theorem mem_of_lookup {k : PyStr} {v : PyVal} {entries : List (PyStr × PyVal)}
    (h : entries.lookup k = some v) : (k, v) ∈ entries := by
  obtain ⟨l₁, l₂, rfl, -⟩ := lookup_eq_some_iff.mp h
  exact mem_append_right _ mem_cons_self

theorem exists_lookup {k : PyStr} {entries : List (PyStr × PyVal)}
    (h : k ∈ entries.map Prod.fst) : ∃ v, entries.lookup k = some v := by
  induction entries with
  | nil => cases h
  | cons e entries ih =>
    rw [lookup_cons]
    cases heq : k == e.1 with
    | true => exact ⟨_, rfl⟩
    | false =>
      rcases mem_cons.mp h with rfl | h
      · rw [beq_self_eq_true] at heq
        cases heq
      · exact ih h

theorem accepts_nodeMetadata {schema : NodeMetadataSchema} {Obj : Type}
    (node : HostPrepGraphNode schema Obj) (hlength : ∀ slot ∈ schema.slots, ¬ BooleanLength slot) :
    accepts root (fuel + 3) (nodeMetadataJsonSchema schema) (.dict node.metadata.entries) = true := by
  have haccepted := accepted_of_validate node.valid
  apply accepts_obj
  simp only [forall_mem_cons]
  refine ⟨rfl, accepts_properties fun e he v hv => ?_, ?_, nofun⟩
  · obtain ⟨slot, hslot, rfl⟩ := mem_map.mp he
    obtain ⟨slot', hslot', hfits⟩ := haccepted.fits _ (mem_of_lookup hv)
    obtain ⟨hmem', hid⟩ := slot?_eq_some hslot'
    obtain rfl : slot' = slot :=
      inj_on_of_nodup_map schema.distinct hmem' hslot (py_injective hid)
    exact accepts_slot hfits (hlength slot' hslot)
  · have hrequired : ∀ name ∈ (schema.slots.filter fun slot => slot.required).map
        SlotDefinition.id, ∃ v, node.metadata.entries.lookup (py name) = some v := by
      intro name hname
      obtain ⟨slot, hslot, rfl⟩ := mem_map.mp hname
      obtain ⟨hmem, hreq⟩ := mem_filter.mp hslot
      exact exists_lookup (haccepted.required slot hmem hreq)
    have hnames : ((schema.slots.filter fun slot => slot.required).map fun slot => string slot.id) =
        ((schema.slots.filter fun slot => slot.required).map SlotDefinition.id).map
          fun name => .str (py name) := by
      rw [map_map]
      rfl
    rw [hnames]
    exact accepts_required hrequired

end Accepts

section Document

variable {schema : NodeMetadataSchema} {defs : List (String × PyVal)} {Obj : Type}
  {python : Graph.Python Obj} {fuel : Nat}

theorem accepts_nodeDocument (node : HostPrepGraphNode schema Obj) (path : PyStr)
    (hlength : ∀ slot ∈ schema.slots, ¬ BooleanLength slot) :
    accepts (irSchema schema defs) (fuel + 5) nodeSchema (nodeDocument node path) = true := by
  have hmetadata : accepts (irSchema schema defs) (fuel + 4) (ref "NodeMetadata")
      (.dict node.metadata.entries) = true := accepts_ref rfl (accepts_nodeMetadata node hlength)
  apply accepts_obj
  simp only [forall_mem_cons]
  refine ⟨rfl, accepts_members (by simp only [map_cons, map_nil]; decide) ?_, rfl, nofun⟩
  exact .cons ⟨rfl, rfl⟩ (.cons ⟨rfl, rfl⟩ (.cons ⟨rfl, hmetadata⟩ (.cons ⟨rfl, rfl⟩ .nil)))

theorem accepts_edge (edge : Graph.GraphEdge) :
    accepts (irSchema schema defs) (fuel + 2) edgeSchema (serializeEdge edge) = true := by
  apply accepts_obj
  simp only [forall_mem_cons]
  refine ⟨rfl, accepts_members (by simp only [map_cons, map_nil]; decide) ?_, rfl, nofun⟩
  exact .cons ⟨rfl, rfl⟩ (.cons ⟨rfl, rfl⟩ .nil)

theorem accepts_array {root target : PyVal} {name : String} {vs : List PyVal}
    (hresolve : resolve root (py ("#/$defs/" ++ name)) = some target)
    (h : ∀ v ∈ vs, accepts root fuel target v = true) :
    accepts root (fuel + 2) (.obj [("type", string "array"), ("items", ref name)]) (.list vs) =
      true := by
  apply accepts_obj
  simp only [forall_mem_cons]
  exact ⟨rfl, accepts_items fun v hv => accepts_ref hresolve (h v hv), nofun⟩

/-- **The document of every graph is accepted.** -/
theorem accepts_graphDocument {graph : HostPrepGraph schema Obj} {documents : List PyVal}
    (hdocuments : List.Forall₂ (IsNodeDocument python) graph.nodes documents)
    (hlength : ∀ slot ∈ schema.slots, ¬ BooleanLength slot) :
    accepts (irSchema schema defs) 8 (irSchema schema defs) (graphDocument graph documents) =
      true := by
  have hnodes : ∀ document ∈ documents,
      accepts (irSchema schema defs) 5 nodeSchema document = true := by
    intro document hdocument
    obtain ⟨node, -, moduleName, name, -, rfl⟩ :=
      Results.exists_of_forall₂ hdocuments.flip hdocument
    exact accepts_nodeDocument node _ hlength
  have hedges : ∀ document ∈ graph.edges.map serializeEdge,
      accepts (irSchema schema defs) 5 edgeSchema document = true := by
    intro document hdocument
    obtain ⟨edge, -, rfl⟩ := mem_map.mp hdocument
    exact accepts_edge edge
  have hproperties : Keyword.properties.accepts (irSchema schema defs)
      (accepts (irSchema schema defs) 7) [] (.obj [("schema_version", ofType "integer"),
        ("nodes", .obj [("type", string "array"), ("items", ref "Node")]),
        ("edges", .obj [("type", string "array"), ("items", ref "Edge")])])
      (graphDocument graph documents) = true := by
    refine accepts_members (by simp only [map_cons, map_nil]; decide) ?_
    exact .cons ⟨rfl, rfl⟩ (.cons ⟨rfl, accepts_array rfl hnodes⟩
      (.cons ⟨rfl, accepts_array rfl hedges⟩ .nil))
  apply accepts_obj
  simp only [forall_mem_cons]
  refine ⟨?_, ?_, ?_, ?_, rfl, hproperties, rfl, rfl, nofun⟩
  all_goals exact accepts_other (by decide)

end Document

end Xtrax.IrSchema
