import Xtrax.PyJsonIndent
import Xtrax.Results

/-!
# JSON Schema

A validator for the part of draft 2020-12 that types, enumerations, lengths, properties, items,
alternatives and references make up.  A document satisfies a schema if the schema is one
(`isSchema`: every keyword has a value of the kind it takes) and accepts the document.  A schema
with another keyword that restricts documents is refused.
-/

namespace JsonSchema

open List Xtrax.PyJson

inductive Keyword
  | ref | type | enum | minLength | properties | required | items | additionalProperties | anyOf
  | defs | other | unread
  deriving DecidableEq

/-- The keywords that restrict documents, and where definitions stand. -/
def keywords : List (PyStr × Keyword) :=
  [(py "$ref", .ref), (py "type", .type), (py "enum", .enum), (py "minLength", .minLength),
    (py "properties", .properties), (py "required", .required), (py "items", .items),
    (py "additionalProperties", .additionalProperties), (py "anyOf", .anyOf), (py "$defs", .defs)] ++
  ["$dynamicRef", "allOf", "const", "contains", "dependentRequired", "dependentSchemas", "else",
    "exclusiveMaximum", "exclusiveMinimum", "if", "maxContains", "maxItems", "maxLength",
    "maxProperties", "maximum", "minContains", "minItems", "minProperties", "minimum", "multipleOf",
    "not", "oneOf", "pattern", "patternProperties", "prefixItems", "propertyNames", "then",
    "unevaluatedItems", "unevaluatedProperties", "uniqueItems"].map fun k => (py k, .unread)

/-- What is no keyword is an annotation. -/
def Keyword.ofName (k : PyStr) : Keyword := (keywords.lookup k).getD .other

inductive Kind
  | null | boolean | object | array | number | string | integer
  deriving DecidableEq

def kinds : List (PyStr × Kind) :=
  [(py "null", .null), (py "boolean", .boolean), (py "object", .object), (py "array", .array),
    (py "number", .number), (py "string", .string), (py "integer", .integer)]

def Kind.ofName (t : PyStr) : Option Kind := kinds.lookup t

/-- A number without a fraction. -/
def isWhole : PyFloat → Bool
  | .decimal _ digits exponent => digits % 10 ^ (-exponent).toNat = 0
  | _ => false

/-- The value is of the kind; `true` and `false` are no numbers. -/
def Kind.has : Kind → PyVal → Bool
  | null, .none => true
  | boolean, .bool _ => true
  | object, .dict _ => true
  | array, .list _ => true
  | number, .int _ => true
  | number, .float _ => true
  | string, .str _ => true
  | integer, .int _ => true
  | integer, .float x => isWhole x
  | _, _ => false

def str? : PyVal → Option PyStr
  | .str s => some s
  | _ => none

/-! ### What a schema is -/

/-- A list of strings, each once. -/
def areNames (vs : List PyVal) : Bool :=
  match vs.mapM str? with
  | some names => names.Nodup
  | none => false

/-- The value is of the kind that the keyword takes, for keywords without schemas in them. -/
def takes : Keyword → PyVal → Bool
  | .ref, .str _ => true
  | .type, .str t => (Kind.ofName t).isSome
  | .type, .list ts => !ts.isEmpty && areNames ts && ts.all fun t =>
      ((str? t).bind Kind.ofName).isSome
  | .enum, .list vs => vs.all fun v => (str? v).isSome
  | .minLength, .int n => 0 ≤ n
  | .required, .list names => areNames names
  | .other, _ => true
  | _, _ => false

mutual

def isSchema : PyVal → Bool
  | .bool _ => true
  | .dict entries => areKeywords entries
  | _ => false

def areKeywords : List (PyStr × PyVal) → Bool
  | [] => true
  | (k, x) :: entries =>
    (match Keyword.ofName k with
      | .items => isSchema x
      | .additionalProperties => isSchema x
      | .properties => isSchemaMap x
      | .defs => isSchemaMap x
      | .anyOf => isSchemaList x
      | keyword => takes keyword x) && areKeywords entries

/-- Schemas by names. -/
def isSchemaMap : PyVal → Bool
  | .dict entries => areNamed entries
  | _ => false

def areNamed : List (PyStr × PyVal) → Bool
  | [] => true
  | (_, x) :: entries => isSchema x && areNamed entries

/-- At least one schema. -/
def isSchemaList : PyVal → Bool
  | .list [] => false
  | .list (x :: xs) => areSchemas (x :: xs)
  | _ => false

def areSchemas : List PyVal → Bool
  | [] => true
  | x :: xs => isSchema x && areSchemas xs

end

/-! ### What a schema accepts -/

/-- The names of a reference `#/a/b`. -/
def pointer (ref : PyStr) : Option (List PyStr) :=
  match ref.splitOn (point 47) with
  | root :: names => if root = py "#" then some names else none
  | [] => none

/-- The schema that a reference names. -/
def resolve (root : PyVal) (ref : PyStr) : Option PyVal := do
  let names ← pointer ref
  names.foldlM (fun x name =>
    match x with
    | .dict entries => entries.lookup name
    | _ => none) root

/-- The names that the keyword `properties` of a schema mentions. -/
def propertyNames (schema : List (PyStr × PyVal)) : List PyStr :=
  match schema.lookup (py "properties") with
  | some (.dict entries) => entries.map Prod.fst
  | _ => []

/-- A keyword of a schema, with the value it has there, accepts a value. -/
def Keyword.accepts (root : PyVal) (accepts : PyVal → PyVal → Bool)
    (schema : List (PyStr × PyVal)) : Keyword → PyVal → PyVal → Bool
  | ref, .str s, v =>
    match resolve root s with
    | some target => accepts target v
    | none => false
  | type, .str t, v => (Kind.ofName t).any fun kind => kind.has v
  | type, .list ts, v => ts.any fun t => ((str? t).bind Kind.ofName).any fun kind => kind.has v
  | enum, .list vs, v => (str? v).any fun s => vs.any fun w => str? w = some s
  | minLength, .int n, .str s => n ≤ s.length
  | minLength, .int _, _ => true
  | properties, .dict props, .dict members => props.all fun (name, x) =>
    (members.lookup name).all fun v => accepts x v
  | properties, .dict _, _ => true
  | required, .list names, .dict members => names.all fun name =>
    (str? name).any fun name => (members.lookup name).isSome
  | required, .list _, _ => true
  | items, x, .list vs => vs.all fun v => accepts x v
  | items, _, _ => true
  | additionalProperties, x, .dict members => members.all fun (name, v) =>
    name ∈ propertyNames schema || accepts x v
  | additionalProperties, _, _ => true
  | anyOf, .list xs, v => xs.any fun x => accepts x v
  | defs, _, _ => true
  | other, _, _ => true
  | _, _, _ => false

/-- The schema accepts a value; references are followed as far as the fuel goes. -/
def accepts (root : PyVal) : Nat → PyVal → PyVal → Bool
  | 0, _, _ => false
  | _ + 1, .bool b, _ => b
  | fuel + 1, .dict schema, v => schema.all fun (k, x) =>
    (Keyword.ofName k).accepts root (accepts root fuel) schema x v
  | _ + 1, _, _ => false

def Satisfies (schema document : PyVal) : Prop :=
  isSchema schema = true ∧ ∃ fuel, accepts schema fuel schema document = true

/-! ### Schemas by their parts -/

theorem areNamed_iff {entries : List (PyStr × PyVal)} :
    areNamed entries = true ↔ ∀ e ∈ entries, isSchema e.2 = true := by
  induction entries with
  | nil => exact ⟨fun _ => nofun, fun _ => rfl⟩
  | cons e entries ih => rw [areNamed, Bool.and_eq_true, ih, forall_mem_cons]

/-- The keyword has a value of the kind it takes. -/
def wellFormed (keyword : Keyword) (x : PyVal) : Bool :=
  match keyword with
  | .items => isSchema x
  | .additionalProperties => isSchema x
  | .properties => isSchemaMap x
  | .defs => isSchemaMap x
  | .anyOf => isSchemaList x
  | keyword => takes keyword x

theorem isSchema_obj {entries : List (String × PyVal)} : isSchema (.obj entries) = true ↔
    ∀ e ∈ entries, wellFormed (Keyword.ofName (py e.1)) e.2 = true := by
  show areKeywords (entries.map fun e => (py e.1, e.2)) = true ↔ _
  induction entries with
  | nil => exact iff_of_true rfl (by simp)
  | cons e entries ih =>
    rw [forall_mem_cons, ← ih]
    exact Bool.and_eq_true_iff

theorem isSchemaMap_obj {entries : List (String × PyVal)} :
    isSchemaMap (.obj entries) = true ↔ ∀ e ∈ entries, isSchema e.2 = true :=
  areNamed_iff.trans forall_mem_map

theorem accepts_obj {root v : PyVal} {fuel : Nat} {entries : List (String × PyVal)}
    (h : ∀ e ∈ entries, (Keyword.ofName (py e.1)).accepts root (accepts root fuel)
      (entries.map fun (k, x) => (py k, x)) e.2 v = true) :
    accepts root (fuel + 1) (.obj entries) v = true := by
  refine all_eq_true.mpr fun e he => ?_
  obtain ⟨e', he', rfl⟩ := mem_map.mp he
  exact h e' he'

theorem accepts_other {root x v : PyVal} {accepts : PyVal → PyVal → Bool}
    {schema : List (PyStr × PyVal)} {k : PyStr} (h : Keyword.ofName k = .other) :
    (Keyword.ofName k).accepts root accepts schema x v = true := by
  rw [h]
  rfl

theorem accepts_properties {root : PyVal} {accepts : PyVal → PyVal → Bool}
    {schema members : List (PyStr × PyVal)} {properties : List (String × PyVal)}
    (h : ∀ e ∈ properties, ∀ v, members.lookup (py e.1) = some v → accepts e.2 v = true) :
    Keyword.properties.accepts root accepts schema (.obj properties) (.dict members) = true := by
  refine all_eq_true.mpr fun e he => ?_
  obtain ⟨e', he', rfl⟩ := mem_map.mp he
  cases hlookup : members.lookup (py e'.1) with
  | none =>
    show (members.lookup (py e'.1)).all _ = true
    rw [hlookup]
    rfl
  | some v =>
    show (members.lookup (py e'.1)).all _ = true
    rw [hlookup]
    exact h e' he' v hlookup

theorem accepts_members {root : PyVal} {accepts : PyVal → PyVal → Bool}
    {schema : List (PyStr × PyVal)} {properties members : List (String × PyVal)}
    (hkeys : (members.map Prod.fst).Nodup)
    (h : List.Forall₂ (fun p m => p.1 = m.1 ∧ accepts p.2 m.2 = true) properties members) :
    Keyword.properties.accepts root accepts schema (.obj properties) (.obj members) = true := by
  refine accepts_properties fun p hp v hv => ?_
  obtain ⟨m, hm, hname, haccepts⟩ := Xtrax.Results.exists_of_forall₂ h hp
  have hnodup : ((members.map fun (k, x) => (py k, x)).map Prod.fst).Nodup := by
    have hnames := hkeys.map py_injective
    rw [map_map] at hnames ⊢
    exact hnames
  have hlookup := (Xtrax.Results.lookup_eq_some (k := py p.1) (v := m.2) hnodup).mpr
    (mem_map.mpr ⟨m, hm, by rw [hname]⟩)
  obtain rfl := Option.some.inj (hlookup.symm.trans hv)
  exact haccepts

theorem accepts_required {root : PyVal} {accepts : PyVal → PyVal → Bool}
    {schema members : List (PyStr × PyVal)} {names : List String}
    (h : ∀ name ∈ names, ∃ v, members.lookup (py name) = some v) :
    Keyword.required.accepts root accepts schema (.list (names.map fun name => .str (py name)))
      (.dict members) = true := by
  refine all_eq_true.mpr fun x hx => ?_
  obtain ⟨name, hname, rfl⟩ := mem_map.mp hx
  obtain ⟨v, hv⟩ := h name hname
  show (members.lookup (py name)).isSome = true
  rw [hv]
  rfl

theorem accepts_items {root : PyVal} {accepts : PyVal → PyVal → Bool}
    {schema : List (PyStr × PyVal)} {x : PyVal} {vs : List PyVal}
    (h : ∀ v ∈ vs, accepts x v = true) :
    Keyword.items.accepts root accepts schema x (.list vs) = true :=
  all_eq_true.mpr h

theorem accepts_ref {root target v : PyVal} {fuel : Nat} {name : String}
    (hresolve : resolve root (py name) = some target) (h : accepts root fuel target v = true) :
    accepts root (fuel + 1) (.obj [("$ref", .str (py name))]) v = true := by
  apply accepts_obj
  simp only [forall_mem_cons]
  refine ⟨?_, nofun⟩
  show (match resolve root (py name) with
    | some target => accepts root fuel target v
    | none => false) = true
  rw [hresolve]
  exact h

end JsonSchema
