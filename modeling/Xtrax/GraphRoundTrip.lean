import Xtrax.Graph

/-!
# Graph documents are read back

A graph whose callables are attributes of modules and whose metadata JSON holds is read back from
the document that is written for it (`loadGraph_dumpGraph`).  A document with no supported version
is refused before a module is imported (`deserializeGraph_refused`).
-/

namespace Xtrax.Graph

open List

open NodeMetadata (NodeMetadataSchema)
open PyJson
open Results (bind_eq_ok mapM_eq_ok)

/-! ### Steps of the reader -/

section Returns

variable {A B : Type}

/-- The step returns the value, whatever was imported before. -/
def Load.Returns (x : Load A) (a : A) : Prop := ∀ log, ∃ log', x.run log = (.ok a, log')

theorem Load.run_bind (x : Load A) (f : A → Load B) (log : List PyStr) :
    (x >>= f).run log = match x.run log with
      | (.ok a, log') => (f a).run log'
      | (.error e, log') => (.error e, log') := by
  unfold Load.run ExceptT.run StateT.run
  simp only [bind, ExceptT.bind, ExceptT.mk, StateT.bind, ExceptT.bindCont]
  generalize x log = r
  obtain ⟨r, log'⟩ := r
  cases r <;> rfl

theorem returns_pure (a : A) : (pure a : Load A).Returns a := fun log => ⟨log, rfl⟩

theorem returns_load {x : Except GraphError A} {a : A} (h : x = .ok a) : (load x).Returns a := by
  subst h
  exact fun log => ⟨log, rfl⟩

theorem Load.Returns.bind {x : Load A} {f : A → Load B} {a : A} {b : B} (hx : x.Returns a)
    (hf : (f a).Returns b) : (x >>= f).Returns b := by
  intro log
  obtain ⟨log₁, h₁⟩ := hx log
  obtain ⟨log₂, h₂⟩ := hf log₁
  exact ⟨log₂, by rw [Load.run_bind, h₁]; exact h₂⟩

theorem returns_mapM {f : A → Load B} {as : List A} {bs : List B}
    (h : List.Forall₂ (fun a b => (f a).Returns b) as bs) : (as.mapM f).Returns bs := by
  induction h with
  | nil => exact returns_pure []
  | cons hhead _ ih =>
    rw [mapM_cons]
    exact hhead.bind (ih.bind (returns_pure _))

end Returns

/-! ### Callables -/

section Callables

variable {Obj : Type} {python : Python Obj} {moduleName name : PyStr}

/-- The callable is the attribute of a module under its own name; a name is an identifier, and has
no dot, colon or angle bracket in it. -/
structure IsAttribute (python : Python Obj) (fn : Obj) (moduleName name : PyStr) : Prop where
  callable : python.callable fn = true
  inModule : python.moduleName fn = some moduleName
  named : python.qualname fn = some name
  attr : ∃ attributes, python.importModule moduleName = some attributes ∧ attributes name = some fn
  nonempty : moduleName ≠ [] ∧ name ≠ []
  identifier : dot ∉ name ∧ colon ∉ name ∧ angle ∉ name
  text : Unpaired moduleName ∧ Unpaired name

theorem rpartition_append {separator : CodePoint} {after : PyStr} (h : separator ∉ after)
    (before : PyStr) :
    rpartition separator (before ++ separator :: after) = (before, after) := by
  have hall : ∀ c ∈ after.reverse, decide (c ≠ separator) = true := by
    intro c hc
    refine decide_eq_true ?_
    rintro rfl
    exact h (mem_reverse.mp hc)
  have hreverse : (before ++ separator :: after).reverse =
      after.reverse ++ separator :: before.reverse := by
    rw [reverse_append, reverse_cons, append_assoc]
    rfl
  have hstop : decide (separator ≠ separator) = false := decide_eq_false (not_not.mpr rfl)
  rw [rpartition, hreverse, dropWhile_append_of_pos hall, takeWhile_append_of_pos hall,
    dropWhile_cons, takeWhile_cons, hstop]
  simp

variable [DecidableEq Obj]

theorem callableToImportPath_attribute {fn : Obj} (h : IsAttribute python fn moduleName name) :
    callableToImportPath python fn = .ok (moduleName ++ colon :: name) := by
  obtain ⟨attributes, himport, hattr⟩ := h.attr
  have hempty : ¬ (moduleName = [] ∨ name = []) := not_or.mpr h.nonempty
  have hplain : ¬ (dot ∈ name ∨ angle ∈ name) := not_or.mpr ⟨h.identifier.1, h.identifier.2.2⟩
  rw [callableToImportPath, h.inModule, h.named]
  dsimp only [Option.getD_some]
  rw [if_neg hempty, if_neg hplain, himport]
  dsimp only
  rw [if_pos hattr]

omit [DecidableEq Obj] in
theorem resolveImportPath_attribute {fn : Obj} (h : IsAttribute python fn moduleName name) :
    (resolveImportPath python (.str (moduleName ++ colon :: name))).Returns fn := by
  obtain ⟨attributes, himport, hattr⟩ := h.attr
  have hempty : ¬ (moduleName = [] ∨ name = []) := not_or.mpr h.nonempty
  have hcolon : ¬ colon ∉ moduleName ++ colon :: name :=
    not_not.mpr (mem_append_right _ mem_cons_self)
  have hmodule : (importModule python moduleName).Returns (some attributes) :=
    fun log => ⟨log ++ [moduleName], congrArg (fun m => (Except.ok m, _)) himport⟩
  unfold resolveImportPath
  dsimp only
  rw [rpartition_append h.identifier.2.1, if_neg hcolon]
  dsimp only
  rw [if_neg hempty]
  refine hmodule.bind ?_
  dsimp only
  rw [hattr]
  dsimp only
  rw [if_pos h.callable]
  exact returns_pure fn

omit [DecidableEq Obj] in
theorem unpaired_path {fn : Obj} (h : IsAttribute python fn moduleName name) :
    Unpaired (moduleName ++ colon :: name) := by
  have hhigh : isHigh colon.val = false := rfl
  have hlow : isLow colon.val = false := rfl
  refine isChain_append.mpr ⟨h.text.1, isChain_cons.mpr ⟨?_, h.text.2⟩, ?_⟩
  · intro c _ hpair
    rw [hhigh] at hpair
    cases hpair.1
  · intro c _ c' hc' hpair
    obtain rfl := Option.some.inj hc'
    rw [hlow] at hpair
    cases hpair.2

end Callables

/-! ### Nodes, edges and graphs -/

section Documents

variable {schema : NodeMetadataSchema} {Obj : Type} {python : Python Obj}
  {floatRepr : PyFloat → List Char} {graph : HostPrepGraph schema Obj} {depth : Nat}

theorem new_node (node : HostPrepGraphNode schema Obj) :
    HostPrepGraphNode.new node.id node.callableRef node.metadata node.frozen = .ok node := by
  unfold HostPrepGraphNode.new
  split
  · rfl
  · rename_i herror
    rw [node.valid] at herror
    cases herror

theorem new_graph (graph : HostPrepGraph schema Obj) :
    HostPrepGraph.new graph.nodes graph.edges = .ok graph := by
  unfold HostPrepGraph.new
  dsimp only
  rw [dif_pos graph.distinct]
  split
  · rename_i edge hfind
    have hends := graph.known edge (mem_of_find?_eq_some hfind)
    have hdangling := find?_some hfind
    rw [dangling, decide_eq_false (not_not.mpr hends.1), decide_eq_false (not_not.mpr hends.2)]
      at hdangling
    cases hdangling
  · rfl

theorem update_entries (metadata : Dict PyStr PyVal) :
    (∅ : Dict PyStr PyVal).update metadata.entries = metadata := by
  have hentries := Dict.entries_update (d := (∅ : Dict PyStr PyVal)) metadata.nodup
  cases metadata
  exact Dict.mk.injEq .. ▸ hentries

def nodeDocument (node : HostPrepGraphNode schema Obj) (path : PyStr) : PyVal :=
  .obj [("id", .str node.id), ("callable_ref", .str path),
    ("metadata", .dict node.metadata.entries), ("frozen", .bool node.frozen)]

theorem deserializeNode_document {node : HostPrepGraphNode schema Obj} {moduleName name : PyStr}
    (h : IsAttribute python node.callableRef moduleName name) :
    (deserializeNode schema python (nodeDocument node (moduleName ++ colon :: name))).Returns
      node := by
  have hnew : (load (HostPrepGraphNode.new node.id node.callableRef
      ((∅ : Dict PyStr PyVal).update node.metadata.entries) node.frozen)).Returns node :=
    returns_load (by rw [update_entries, new_node])
  exact (resolveImportPath_attribute h).bind hnew

theorem deserializeEdge_serializeEdge (edge : GraphEdge) :
    deserializeEdge (serializeEdge edge) = .ok edge := rfl

/-- The callables of the graph are attributes of modules, its ids are texts, and JSON holds its
metadata: nested no deeper than `depth`, which bounds `json.dumps` as it does `json.loads`. -/
structure Storable (python : Python Obj) (floatRepr : PyFloat → List Char) (depth : Nat)
    (graph : HostPrepGraph schema Obj) : Prop where
  callables : ∀ node ∈ graph.nodes, ∃ moduleName name,
    IsAttribute python node.callableRef moduleName name
  ids : ∀ node ∈ graph.nodes, Unpaired node.id
  metadata : ∀ node ∈ graph.nodes, Stored floatRepr depth (.dict node.metadata.entries)

/-- The document of a node whose callable is an attribute. -/
def IsNodeDocument (python : Python Obj) (node : HostPrepGraphNode schema Obj) (document : PyVal) :
    Prop :=
  ∃ moduleName name, IsAttribute python node.callableRef moduleName name ∧
    document = nodeDocument node (moduleName ++ colon :: name)

def graphDocument (graph : HostPrepGraph schema Obj) (documents : List PyVal) : PyVal :=
  .obj [("schema_version", .int graphSchemaVersion), ("nodes", .list documents),
    ("edges", .list (graph.edges.map serializeEdge))]

theorem serializeGraph_eq_ok [DecidableEq Obj] (h : Storable python floatRepr depth graph) :
    ∃ documents, List.Forall₂ (IsNodeDocument python) graph.nodes documents ∧
      serializeGraph python graph = .ok (graphDocument graph documents) := by
  have hnode : ∀ node ∈ graph.nodes, ∃ document, serializeNode python node = .ok document ∧
      IsNodeDocument python node document := by
    intro node hnode
    obtain ⟨moduleName, name, hattr⟩ := h.callables node hnode
    refine ⟨_, ?_, moduleName, name, hattr, rfl⟩
    rw [serializeNode, callableToImportPath_attribute hattr]
    rfl
  obtain ⟨documents, hdocuments⟩ : ∃ documents, graph.nodes.mapM (serializeNode python) =
      .ok documents := Results.exists_mapM fun node hmem => (hnode node hmem).imp fun _ hd => hd.1
  refine ⟨documents, ?_, ?_⟩
  · have hpairs := (forall₂_and_left _ _).mpr ⟨hnode, mapM_eq_ok.mp hdocuments⟩
    refine hpairs.imp ?_
    rintro node document ⟨⟨document', hdocument', hnode'⟩, hdocument⟩
    rw [hdocument] at hdocument'
    obtain rfl := Except.ok.inj hdocument'
    exact hnode'
  · rw [serializeGraph, hdocuments]
    rfl

theorem deserializeGraph_document {documents : List PyVal}
    (h : List.Forall₂ (IsNodeDocument python) graph.nodes documents) :
    (deserializeGraph schema python (graphDocument graph documents)).Returns graph := by
  have hversion : (load (checkSchemaVersion [(py "schema_version", .int graphSchemaVersion),
      (py "nodes", .list documents), (py "edges", .list (graph.edges.map serializeEdge))])).Returns
      () := returns_load rfl
  have hnodes : (documents.mapM (deserializeNode schema python)).Returns graph.nodes := by
    refine returns_mapM (h.imp ?_).flip
    rintro node document ⟨moduleName, name, hattr, rfl⟩
    exact deserializeNode_document hattr
  have hedges : (load ((graph.edges.map serializeEdge).mapM deserializeEdge)).Returns
      graph.edges := by
    refine returns_load (mapM_eq_ok.mpr ?_)
    rw [forall₂_map_left_iff, forall₂_same]
    exact fun edge _ => deserializeEdge_serializeEdge edge
  exact hversion.bind (hnodes.bind (hedges.bind (returns_load (new_graph graph))))

theorem stored_graphDocument (h : Storable python floatRepr depth graph) {documents : List PyVal}
    (hdocuments : List.Forall₂ (IsNodeDocument python) graph.nodes documents) :
    Stored floatRepr (depth + 3) (graphDocument graph documents) := by
  have hnodes : ∀ document ∈ documents, Stored floatRepr (depth + 1) document := by
    intro document hdocument
    obtain ⟨node, hnode, moduleName, name, hattr, rfl⟩ :=
      Results.exists_of_forall₂ hdocuments.flip hdocument
    apply Stored.obj (by simp only [map_cons, map_nil]; decide)
    simp only [forall_mem_cons]
    exact ⟨.str (h.ids node hnode), .str (unpaired_path hattr), h.metadata node hnode, .bool _, nofun⟩
  have hids : ∀ id ∈ graph.nodes.map HostPrepGraphNode.id, Unpaired id := by
    intro id hid
    obtain ⟨node, hnode, rfl⟩ := mem_map.mp hid
    exact h.ids node hnode
  have hedges : ∀ document ∈ graph.edges.map serializeEdge, Stored floatRepr (depth + 1) document := by
    intro document hdocument
    obtain ⟨edge, hedge, rfl⟩ := mem_map.mp hdocument
    obtain ⟨hsrc, hdst⟩ := graph.known edge hedge
    apply Stored.obj (by simp only [map_cons, map_nil]; decide)
    simp only [forall_mem_cons]
    exact ⟨.str (hids _ hsrc), .str (hids _ hdst), nofun⟩
  apply Stored.obj (by simp only [map_cons, map_nil]; decide)
  simp only [forall_mem_cons]
  exact ⟨.int (by decide), .list hnodes, .list hedges, nofun⟩

/-- **The round trip of a graph.** -/
theorem loadGraph_dumpGraph [DecidableEq Obj] (h : Storable python floatRepr depth graph) :
    ∃ documents text, List.Forall₂ (IsNodeDocument python) graph.nodes documents ∧
      dumpGraph python floatRepr graph = .ok text ∧
      loads (depth + 3) text = .ok (graphDocument graph documents) ∧
      (loadGraph schema python (depth + 3) text).Returns graph := by
  obtain ⟨documents, hdocuments, hserialize⟩ := serializeGraph_eq_ok h
  obtain ⟨text, hdumps, hloads⟩ := loads_dumpsIndented (stored_graphDocument h hdocuments)
  refine ⟨documents, text, hdocuments, ?_, hloads, ?_⟩
  · rw [dumpGraph, hserialize]
    dsimp only [bind, Except.bind]
    rw [hdumps]
    rfl
  · have hdocument : (load ((loads (depth + 3) text).mapError GraphError.json)).Returns
        (graphDocument graph documents) := returns_load (by rw [hloads]; rfl)
    exact hdocument.bind (deserializeGraph_document hdocuments)

/-! ### The gate -/

/-- The document has a supported version. -/
def Supported (fields : List (PyStr × PyVal)) : Prop :=
  ∃ version, fields.lookup (py "schema_version") = some (.int version) ∧
    minSupportedGraphSchemaVersion ≤ version ∧ version ≤ graphSchemaVersion

theorem checkSchemaVersion_refused {fields : List (PyStr × PyVal)} (h : ¬ Supported fields) :
    ∃ problem, checkSchemaVersion fields = .error (.schemaVersion problem) := by
  unfold checkSchemaVersion
  split
  · exact ⟨_, rfl⟩
  · rename_i version hversion
    split_ifs with hold hnew
    · exact ⟨_, rfl⟩
    · exact ⟨_, rfl⟩
    · exact absurd ⟨version, hversion, not_lt.mp hold, not_lt.mp hnew⟩ h
  · exact ⟨_, rfl⟩

/-- **A document without a supported version is refused**, and nothing has been imported for it. -/
theorem deserializeGraph_refused {fields : List (PyStr × PyVal)} (h : ¬ Supported fields) :
    ∃ problem, ∀ log, (deserializeGraph schema python (.dict fields)).run log =
      (.error (.schemaVersion problem), log) := by
  obtain ⟨problem, hproblem⟩ := checkSchemaVersion_refused h
  refine ⟨problem, fun log => ?_⟩
  rw [deserializeGraph, Load.run_bind, hproblem]
  rfl

end Documents

end Xtrax.Graph
