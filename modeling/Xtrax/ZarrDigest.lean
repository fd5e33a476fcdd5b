import Xtrax.JsonText

/-!
# The content digest of a zarr store

`zarrContentDigest` walks a store from its root group: for every node the path, the
attributes that are not excluded, as JSON with sorted keys, and for an array its dtype name,
shape and little-endian element bytes are folded into one running hash.  The pieces are only
separated by line breaks and bars.

A digest is the hash of the bytes folded by the whole walk; it is absent where the walk raises,
at a NaN or an infinity among the attributes.  What numpy says about dtypes is a parameter.
-/

namespace Xtrax.ZarrDigest

/-! ### Attributes -/

section Attributes

-- Unicode normalization form NFC
variable (nfc : String → String)

mutual

/-- `normalize_json_value` on the values that JSON attributes hold.  The keys stay as they are, so
the items may be sorted after their values are normalized. -/
def normalizeJsonValue : Json → Json
  | .arr vs => .arr (normalizeItems vs)
  | .obj kvs => .obj (sortByKey (normalizeMembers kvs))
  | .str s => .str (nfc s)
  | v => v

def normalizeItems : List Json → List Json
  | [] => []
  | v :: vs => normalizeJsonValue v :: normalizeItems vs

def normalizeMembers : List (String × Json) → List (String × Json)
  | [] => []
  | (k, v) :: kvs => (k, normalizeJsonValue v) :: normalizeMembers kvs

end

def coreProvenanceFields : List String :=
  ["git_sha", "git_branch", "git_dirty", "run_id", "created_at", "producer", "xtrax_version"]

def rootStampedFields : List String := ["seed"]

def reservedAttrPrefix : String := "xtrax."

/-- The attribute names a group at a path leaves out. -/
def excludeKeys (includeProvenance : Bool) (path : String) : List String :=
  if includeProvenance then []
  -- `path.strip("/") == ""`
  else if path.toList.all (· == '/') then coreProvenanceFields ++ rootStampedFields
  else coreProvenanceFields.filter (· ∈ ["run_id", "git_sha"])

/-- `attrs_payload`: the attributes that are kept, normalized. -/
def attrsPayload (exclude : List String) (excludeReserved : Bool)
    (attrs : List (String × Json)) : Json :=
  .obj (normalizeMembers nfc ((sortByKey attrs).filter fun p =>
    !(exclude.contains p.1)
      && !(excludeReserved && reservedAttrPrefix.toList.isPrefixOf p.1.toList)))

end Attributes

/-! ### Arrays -/

/-- What numpy says about dtypes: their name, the bytes of an element, the dtype with its bytes in
little-endian order, and what a cast to that dtype makes of an array's bytes.  A name fixes the
size of an element, contains no bar and does not start with a slash. -/
structure Dtypes (δ : Type) where
  name : δ → String
  itemsize : δ → Nat
  newbyteorder : δ → δ
  astype : δ → List UInt8 → List UInt8
  itemsize_of_name : ∀ {d d'}, name d = name d' → itemsize d = itemsize d'
  bar_notMem_name : ∀ d, '|' ∉ (name d).toList
  name_head : ∀ d, '/' ∉ (name d).toList.head?
  length_astype : ∀ d bs, (astype d bs).length = bs.length

variable {δ : Type} {D : Dtypes δ}

/-- An array as it is read from a store: its elements' bytes in C order, in the byte order of
its dtype. -/
structure NdArray (D : Dtypes δ) where
  dtype : δ
  shape : List Nat
  bytes : List UInt8
  length_bytes : bytes.length = D.itemsize dtype * shape.prod

/-- `str(array.shape)`. -/
def strShape : List Nat → List Char
  | [] => ['(', ')']
  | [n] => '(' :: (n.repr.toList ++ [',', ')'])
  | n :: ns => '(' :: (n.repr.toList ++ (ns.flatMap fun m => ',' :: ' ' :: m.repr.toList) ++ [')'])

def updateArrayDigest (a : NdArray D) : List UInt8 :=
  utf8 (D.name a.dtype).toList ++ utf8 ['|'] ++ utf8 (strShape a.shape) ++ utf8 ['|']
    ++ D.astype a.dtype a.bytes

/-! ### The walk -/

/-- A node of a store.  The children of a group are listed in no particular order. -/
inductive Node (D : Dtypes δ) where
  | array (attrs : List (String × Json)) (data : NdArray D)
  | group (attrs : List (String × Json)) (children : List (String × Node D))

/-- The bytes that several children fold one after the other, unless one of them raises. -/
def foldAll : List (String × Option (List UInt8)) → Option (List UInt8)
  | [] => some []
  | (_, folded) :: rest => do return (← folded) ++ (← foldAll rest)

section Walk

variable (nfc : String → String) (includeProvenance : Bool)

mutual

/-- `update_zarr_node_digest`: the bytes folded for a node and all nodes under it. -/
def updateZarrNodeDigest : Node D → String → Option (List UInt8)
  | .array attrs data, path => do
    let payload ← (attrsPayload nfc [] (!includeProvenance) attrs).dumps
    return utf8 path.toList ++ utf8 ['\n'] ++ (utf8 payload ++ utf8 ['\n'])
      ++ (updateArrayDigest data ++ utf8 ['\n'])
  | .group attrs children, path => do
    let payload ← (attrsPayload nfc (excludeKeys includeProvenance path)
      (!includeProvenance) attrs).dumps
    -- `for key in sorted(node.keys())`
    let below ← foldAll (sortByKey (updateChildren children path))
    return utf8 path.toList ++ utf8 ['\n'] ++ (utf8 payload ++ utf8 ['\n']) ++ below

/-- The bytes folded for each child, under its name. -/
def updateChildren : List (String × Node D) → String → List (String × Option (List UInt8))
  | [], _ => []
  | (key, child) :: rest, path =>
    (key, updateZarrNodeDigest child (path ++ "/" ++ key)) :: updateChildren rest path

end

/-- `zarr_content_digest`, with the hash as a parameter.  Opening an array as a group
raises. -/
def zarrContentDigest {γ : Type} (sha256 : List UInt8 → γ) : Node D → Option γ
  | .array _ _ => none
  | .group attrs children =>
    (updateZarrNodeDigest nfc includeProvenance (.group attrs children) "/").map sha256

end Walk

/-! ### What a store holds -/

/-- The node that a path leads to. -/
def Node.At : Node D → List String → Node D → Prop
  | n, [], m => m = n
  | .array _ _, _ :: _, _ => False
  | .group _ children, k :: ks, m => ∃ c, (k, c) ∈ children ∧ c.At ks m

/-- What a store holds at a path: the kind of node, its normalized attributes outside the
exclusions and, for an array, its dtype up to byte order, its shape and its bytes. -/
inductive Entry (δ : Type) where
  | array (attrs : Json) (dtype : δ) (shape : List Nat) (bytes : List UInt8)
  | group (attrs : Json)

/-- The attribute names that are excluded by default: all provenance fields at the root, the
per-key pointer pair in the groups below it. -/
def documentedExclusions (includeProvenance : Bool) (path : List String) : List String :=
  if includeProvenance then []
  else if path = [] then
    ["git_sha", "git_branch", "git_dirty", "run_id", "created_at", "producer", "xtrax_version",
      "seed"]
  else ["git_sha", "run_id"]

def Node.entry (nfc : String → String) (includeProvenance : Bool) (path : List String) :
    Node D → Entry δ
  | .array attrs a =>
    .array (attrsPayload nfc [] (!includeProvenance) attrs) (D.newbyteorder a.dtype) a.shape
      (D.astype a.dtype a.bytes)
  | .group attrs _ =>
    .group (attrsPayload nfc (documentedExclusions includeProvenance path)
      (!includeProvenance) attrs)

/-- `e` is what the store holds at `path`. -/
def Node.Holds (nfc : String → String) (includeProvenance : Bool) (t : Node D)
    (path : List String) (e : Entry δ) : Prop :=
  ∃ n, t.At path n ∧ n.entry nfc includeProvenance path = e

/-- The two stores hold the same at every path. -/
def SameContent (nfc : String → String) (includeProvenance : Bool) (t u : Node D) : Prop :=
  ∀ path e, t.Holds nfc includeProvenance path e ↔ u.Holds nfc includeProvenance path e

mutual

/-- Every child's name and every array's dtype is one of the given. -/
def Node.Over (names : String → Prop) (dtypes : δ → Prop) : Node D → Prop
  | .array _ a => dtypes a.dtype
  | .group _ children => OverChildren names dtypes children

def OverChildren (names : String → Prop) (dtypes : δ → Prop) : List (String × Node D) → Prop
  | [] => True
  | (k, c) :: rest => names k ∧ c.Over names dtypes ∧ OverChildren names dtypes rest

end

/-- What every name of a child satisfies: it is not empty and has no slash. -/
def ChildName (k : String) : Prop := k.toList ≠ [] ∧ '/' ∉ k.toList

end Xtrax.ZarrDigest
