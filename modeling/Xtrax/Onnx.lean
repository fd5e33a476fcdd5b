import Mathlib.Data.List.Perm.Basic

/-!
# ONNX models and the walkers over them

A graph has initializers and nodes, a node has attributes, and an attribute may hold a tensor,
tensors, a graph or graphs.  A function is no graph: it has nodes, and these may carry graphs.
Tensors are told apart by their identity; what they hold is kept in a heap, which the inlining of
external tensors writes to.

What a model holds is collected along its structure (`Model.collect`).  The walkers of the source
list first all graphs, then what each of them holds.
-/

namespace Xtrax.Onnx

open List

abbrev TensorId := Nat

mutual

inductive Graph
  | mk (initializer : List TensorId) (node : List Node)

inductive Node
  | mk (opType name : String) (attributes : List Attribute)

inductive Attribute
  | mk (t : Option TensorId) (tensors : List TensorId) (g : Option Graph) (graphs : List Graph)

end

namespace Graph

def initializer : Graph → List TensorId
  | mk initializer _ => initializer

def node : Graph → List Node
  | mk _ node => node

end Graph

namespace Attribute

def t : Attribute → Option TensorId
  | mk t _ _ _ => t

def tensors : Attribute → List TensorId
  | mk _ tensors _ _ => tensors

def g : Attribute → Option Graph
  | mk _ _ g _ => g

def graphs : Attribute → List Graph
  | mk _ _ _ graphs => graphs

end Attribute

namespace Node

def opType : Node → String
  | mk opType _ _ => opType

def name : Node → String
  | mk _ name _ => name

def attributes : Node → List Attribute
  | mk _ _ attributes => attributes

/-- The tensors in a node's attributes. -/
def ownTensors (n : Node) : List TensorId :=
  n.attributes.flatMap fun attr => attr.t.toList ++ attr.tensors

end Node

structure Function where
  node : List Node

structure Model where
  graph : Graph
  functions : List Function := []

/-! ### What a model holds -/

section

variable {α : Type*} (ofGraph : Graph → List α) (ofNode : Node → List α)

mutual

/-- What a graph holds: its own, and what its nodes hold. -/
def Graph.collect : Graph → List α
  | .mk initializer node => ofGraph (.mk initializer node) ++ collectNodes node

/-- What nodes hold: their own, each followed by what its subgraphs hold. -/
def collectNodes : List Node → List α
  | [] => []
  | n :: rest => n.collect ++ collectNodes rest

def Node.collect : Node → List α
  | .mk opType name attributes => ofNode (.mk opType name attributes) ++ collectAttributes attributes

def collectAttributes : List Attribute → List α
  | [] => []
  | attr :: rest => attr.collect ++ collectAttributes rest

def Attribute.collect : Attribute → List α
  | .mk _ _ g graphs => collectOption g ++ collectGraphs graphs

def collectOption : Option Graph → List α
  | none => []
  | some g => g.collect

def collectGraphs : List Graph → List α
  | [] => []
  | g :: rest => g.collect ++ collectGraphs rest

end

def Model.collect (model : Model) : List α :=
  model.graph.collect ofGraph ofNode ++
    model.functions.flatMap fun f => collectNodes ofGraph ofNode f.node

end

def Model.nodes (model : Model) : List Node := model.collect (fun _ => []) fun n => [n]

/-- Every tensor of a model: initializers, and tensors in attributes. -/
def Model.tensors (model : Model) : List TensorId := model.collect Graph.initializer Node.ownTensors

/-- The tensors in graphs that nodes of functions carry. -/
def Model.functionSubgraphTensors (model : Model) : List TensorId :=
  model.functions.flatMap fun f => f.node.flatMap fun n =>
    collectAttributes Graph.initializer Node.ownTensors n.attributes

/-! ### The walkers -/

mutual

def walkGraphs : Graph → List Graph
  | .mk initializer node => .mk initializer node :: walkNodes node

def walkNodes : List Node → List Graph
  | [] => []
  | n :: rest => walkNode n ++ walkNodes rest

def walkNode : Node → List Graph
  | .mk _ _ attributes => walkAttributes attributes

def walkAttributes : List Attribute → List Graph
  | [] => []
  | attr :: rest => walkAttribute attr ++ walkAttributes rest

def walkAttribute : Attribute → List Graph
  | .mk _ _ g graphs => walkOption g ++ walkList graphs

def walkOption : Option Graph → List Graph
  | none => []
  | some g => walkGraphs g

def walkList : List Graph → List Graph
  | [] => []
  | g :: rest => walkGraphs g ++ walkList rest

end

def nodesOfGraph (g : Graph) : List Node := (walkGraphs g).flatMap Graph.node

def allNodes (model : Model) : List Node :=
  nodesOfGraph model.graph ++ model.functions.flatMap fun f => f.node.flatMap fun n =>
    n :: n.attributes.flatMap fun attr =>
      attr.g.toList.flatMap nodesOfGraph ++ attr.graphs.flatMap nodesOfGraph

def onnxRngOpTypes : List String :=
  ["Bernoulli", "Multinomial", "RandomNormal", "RandomNormalLike", "RandomUniform",
    "RandomUniformLike"]

def Node.isRng (n : Node) : Bool := n.opType ∈ onnxRngOpTypes

def Node.label (n : Node) : String := n.opType ++ ":" ++ n.name

def findOnnxRngOps (model : Model) : List String :=
  ((allNodes model).filter Node.isRng).map Node.label

/-- The tensors that a container of nodes holds itself. -/
def tensorsOf (initializer : List TensorId) (node : List Node) : List TensorId :=
  initializer ++ node.flatMap Node.ownTensors

/-- `_model_tensors`.  A function has no initializers. -/
def modelTensors (model : Model) : List TensorId :=
  ((walkGraphs model.graph).flatMap fun g => tensorsOf g.initializer g.node) ++
    model.functions.flatMap fun f => tensorsOf [] f.node

/-! ### External tensors -/

/-- A `TensorProto`, with its external marker: the location and the entries. -/
structure TensorProto where
  name : String
  rawData : List UInt8 := []
  isExternal : Bool := false
  externalData : List (String × String) := []

/-- `tensor.data_location == EXTERNAL or tensor.external_data`. -/
def TensorProto.external (t : TensorProto) : Bool := t.isExternal || !t.externalData.isEmpty

abbrev Heap := TensorId → TensorProto

section

variable {ε : Type} (load : TensorProto → Except ε TensorProto)

/-- One pass of `_inline_external_tensors`; `load` is `load_external_data_for_tensor`. -/
def inlineTensor (t : TensorProto) : Except ε TensorProto :=
  if t.external then
    if t.rawData.isEmpty then load t
    else .ok { t with isExternal := false, externalData := [] }
  else .ok t

/-- The loop of `_inline_external_tensors`. -/
def inlineTensors : List TensorId → Heap → Except ε Heap
  | [], heap => .ok heap
  | id :: rest, heap => do
    let t ← inlineTensor load (heap id)
    inlineTensors rest (Function.update heap id t)

/-- What `_write_model` serializes with `embed_external_data=True`. -/
def embedExternalData (model : Model) (heap : Heap) : Except ε Heap :=
  inlineTensors load (modelTensors model) heap

end

/-! ### All graphs first, or along the structure -/

section

variable {α : Type*} {ofGraph : Graph → List α} {ofNode : Node → List α}

theorem perm_zip {a b c d bc ad : List α} (h : (a ++ b).Perm ad) (h' : (c ++ d).Perm bc) :
    ((a ++ c) ++ (b ++ d)).Perm (ad ++ bc) := by
  have hswap : (c ++ (b ++ d)).Perm (b ++ (c ++ d)) := by
    rw [← append_assoc, ← append_assoc]
    exact perm_append_comm.append_right d
  rw [append_assoc]
  refine (hswap.append_left a).trans ?_
  rw [← append_assoc]
  exact h.append h'

variable (ofGraph ofNode) in
/-- What a graph holds outside its nodes' subgraphs. -/
def own (g : Graph) : List α := ofGraph g ++ g.node.flatMap ofNode

mutual

theorem walkGraphs_perm : ∀ g : Graph,
    ((walkGraphs g).flatMap (own ofGraph ofNode)).Perm (g.collect ofGraph ofNode)
  | .mk initializer node => by
    rw [walkGraphs, flatMap_cons, own, Graph.collect, append_assoc]
    exact (walkNodes_perm node).append_left _

theorem walkNodes_perm : ∀ node : List Node,
    (node.flatMap ofNode ++ (walkNodes node).flatMap (own ofGraph ofNode)).Perm
      (collectNodes ofGraph ofNode node)
  | [] => .refl _
  | n :: rest => by
    rw [flatMap_cons, walkNodes, flatMap_append, collectNodes]
    exact perm_zip (walkNode_perm n) (walkNodes_perm rest)

theorem walkNode_perm : ∀ n : Node,
    (ofNode n ++ (walkNode n).flatMap (own ofGraph ofNode)).Perm (n.collect ofGraph ofNode)
  | .mk _ _ attributes => by
    rw [walkNode, Node.collect]
    exact (walkAttributes_perm attributes).append_left _

theorem walkAttributes_perm : ∀ attributes : List Attribute,
    ((walkAttributes attributes).flatMap (own ofGraph ofNode)).Perm
      (collectAttributes ofGraph ofNode attributes)
  | [] => .refl _
  | attr :: rest => by
    rw [walkAttributes, flatMap_append, collectAttributes]
    exact (walkAttribute_perm attr).append (walkAttributes_perm rest)

theorem walkAttribute_perm : ∀ attr : Attribute,
    ((walkAttribute attr).flatMap (own ofGraph ofNode)).Perm (attr.collect ofGraph ofNode)
  | .mk _ _ g graphs => by
    rw [walkAttribute, flatMap_append, Attribute.collect]
    exact (walkOption_perm g).append (walkList_perm graphs)

theorem walkOption_perm : ∀ g : Option Graph,
    ((walkOption g).flatMap (own ofGraph ofNode)).Perm (collectOption ofGraph ofNode g)
  | none => .refl _
  | some g => walkGraphs_perm g

theorem walkList_perm : ∀ graphs : List Graph,
    ((walkList graphs).flatMap (own ofGraph ofNode)).Perm (collectGraphs ofGraph ofNode graphs)
  | [] => .refl _
  | g :: rest => by
    rw [walkList, flatMap_append, collectGraphs]
    exact (walkGraphs_perm g).append (walkList_perm rest)

end

theorem walkAttributes_eq (attributes : List Attribute) : walkAttributes attributes =
    attributes.flatMap fun attr => attr.g.toList.flatMap walkGraphs ++
      attr.graphs.flatMap walkGraphs := by
  have hlist : ∀ graphs : List Graph, walkList graphs = graphs.flatMap walkGraphs := by
    intro graphs
    induction graphs with
    | nil => rfl
    | cons g rest ih => rw [walkList, ih, flatMap_cons]
  induction attributes with
  | nil => rfl
  | cons attr rest ih =>
    obtain ⟨t, tensors, g, graphs⟩ := attr
    rw [walkAttributes, ih, flatMap_cons, walkAttribute, hlist]
    cases g with
    | none => rfl
    | some g => simp [walkOption, Attribute.g, Attribute.graphs]

theorem collectNodes_eq (node : List Node) : collectNodes ofGraph ofNode node =
    node.flatMap fun n => ofNode n ++ collectAttributes ofGraph ofNode n.attributes := by
  induction node with
  | nil => rfl
  | cons n rest ih =>
    obtain ⟨opType, name, attributes⟩ := n
    rw [collectNodes, ih, flatMap_cons, Node.collect]
    rfl

end

/-! ### The nodes -/

theorem own_nodes : own (fun _ => []) (fun n : Node => [n]) = Graph.node := by
  funext g
  rw [own, nil_append, flatMap_singleton']

theorem nodesOfGraph_perm (g : Graph) :
    (nodesOfGraph g).Perm (g.collect (fun _ => []) fun n => [n]) := by
  have hwalk : ((walkGraphs g).flatMap (own (fun _ => []) fun n => [n])).Perm
      (g.collect (fun _ => []) fun n => [n]) := walkGraphs_perm g
  rwa [own_nodes] at hwalk

/-- **`_all_nodes` yields every node once.** -/
theorem allNodes_perm (model : Model) : (allNodes model).Perm model.nodes := by
  refine (nodesOfGraph_perm model.graph).append (List.Perm.flatMap_left _ fun f _ => ?_)
  rw [collectNodes_eq]
  refine List.Perm.flatMap_left _ fun n _ => .cons n ?_
  have hwalk : ((walkAttributes n.attributes).flatMap (own (fun _ => []) fun n => [n])).Perm
      (collectAttributes (fun _ => []) (fun n => [n]) n.attributes) :=
    walkAttributes_perm n.attributes
  rw [own_nodes, walkAttributes_eq, flatMap_assoc] at hwalk
  refine .trans (.of_eq (flatMap_congr fun attr _ => ?_)) hwalk
  rw [flatMap_append, flatMap_assoc, flatMap_assoc]
  rfl

/-! ### The tensors -/

theorem modelTensors_append_perm (model : Model) :
    (modelTensors model ++ model.functionSubgraphTensors).Perm model.tensors := by
  have hmain : ((walkGraphs model.graph).flatMap fun g => tensorsOf g.initializer g.node).Perm
      (model.graph.collect Graph.initializer Node.ownTensors) := walkGraphs_perm model.graph
  rw [modelTensors, append_assoc]
  refine hmain.append ((flatMap_append_perm _ _ _).trans (List.Perm.flatMap_left _ fun f _ => ?_))
  rw [collectNodes_eq, tensorsOf, nil_append]
  exact flatMap_append_perm _ _ _

theorem modelTensors_perm_iff (model : Model) :
    (modelTensors model).Perm model.tensors ↔ model.functionSubgraphTensors = [] := by
  have hall := modelTensors_append_perm model
  constructor
  · intro h
    have hlength := (h.trans hall.symm).length_eq
    rw [length_append] at hlength
    exact length_eq_zero_iff.mp (by omega)
  · intro h
    rwa [h, append_nil] at hall

/-! ### Embedding -/

section

variable {ε : Type} {load : TensorProto → Except ε TensorProto}

theorem inlineTensor_external (hload : ∀ t t', load t = .ok t' → t'.external = false)
    {t t' : TensorProto} (h : inlineTensor load t = .ok t') : t'.external = false := by
  unfold inlineTensor at h
  split at h
  · split at h
    · exact hload t t' h
    · exact Except.ok.inj h ▸ rfl
  · rename_i hexternal
    exact Except.ok.inj h ▸ Bool.eq_false_iff.mpr hexternal

theorem inlineTensors_external (hload : ∀ t t', load t = .ok t' → t'.external = false)
    {ids : List TensorId} {heap heap' : Heap} (h : inlineTensors load ids heap = .ok heap')
    {id : TensorId} (hid : id ∈ ids ∨ (heap id).external = false) :
    (heap' id).external = false := by
  induction ids generalizing heap with
  | nil => exact Except.ok.inj h ▸ hid.resolve_left not_mem_nil
  | cons first rest ih =>
    rw [inlineTensors] at h
    cases hfirst : inlineTensor load (heap first) with
    | error e =>
      rw [hfirst] at h
      exact nomatch h
    | ok t =>
      rw [hfirst] at h
      refine ih h ?_
      by_cases heq : id = first
      · subst heq
        rw [Function.update_self]
        exact .inr (inlineTensor_external hload hfirst)
      · rw [Function.update_of_ne heq]
        exact hid.imp_left fun hmem => (mem_cons.mp hmem).resolve_left heq

end

/-- Every node and every tensor once, every random op named, and nothing external after embedding. -/
structure Reaches {ε : Type} (load : TensorProto → Except ε TensorProto) (model : Model) :
    Prop where
  nodes : (allNodes model).Perm model.nodes
  tensors : (modelTensors model).Perm model.tensors
  rng : (findOnnxRngOps model).Perm ((model.nodes.filter Node.isRng).map Node.label)
  embedded : ∀ heap heap', embedExternalData load model heap = .ok heap' →
    ∀ id ∈ model.tensors, (heap' id).external = false

/-- **The walkers reach everything** just when no graph in a function's node has a tensor. -/
theorem reaches_iff {ε : Type} (load : TensorProto → Except ε TensorProto)
    (hload : ∀ t t', load t = .ok t' → t'.external = false) (model : Model) :
    Reaches load model ↔ model.functionSubgraphTensors = [] := by
  constructor
  · intro h
    exact (modelTensors_perm_iff model).mp h.tensors
  · intro h
    have htensors := (modelTensors_perm_iff model).mpr h
    refine ⟨allNodes_perm model, htensors, ((allNodes_perm model).filter _).map _, ?_⟩
    intro heap heap' hembed id hid
    exact inlineTensors_external hload hembed (.inl (htensors.mem_iff.mpr hid))

/-- A loader that finds every file. -/
def sampleLoad (t : TensorProto) : Except String TensorProto :=
  .ok { t with rawData := [0], isExternal := false, externalData := [] }

/-- A function with a constant and a loop that has none. -/
def sampleModel : Model where
  graph := .mk [0] [.mk "Loop" "loop" [.mk none [] (some (.mk [1] [])) []]]
  functions := [⟨[.mk "Constant" "c" [.mk (some 2) [] none []],
    .mk "Loop" "loop" [.mk none [] (some (.mk [] [.mk "RandomUniform" "draw" []])) []]]⟩]

theorem reaches_iff_sample : Reaches sampleLoad sampleModel :=
  (reaches_iff sampleLoad (fun _ _ h => Except.ok.inj h ▸ rfl) sampleModel).mpr rfl

/-- A loop in a function, with an initializer: it is not reached. -/
def hiddenModel : Model where
  graph := .mk [] []
  functions := [⟨[.mk "Loop" "loop" [.mk none [] (some (.mk [0] [])) []]]⟩]

theorem hidden_not_reached : ¬Reaches sampleLoad hiddenModel := by
  intro h
  have hlength : (modelTensors hiddenModel).length = hiddenModel.tensors.length :=
    h.tensors.length_eq
  exact absurd hlength (by decide)

end Xtrax.Onnx
