import Mathlib.Data.List.Basic

/-! # TOML documents

What a TOML document says, over any floats.  Dates and times keep their text.
-/
namespace Toml

inductive Value (F : Type)
  | text (s : String)
  | integer (n : Int)
  | float (x : F)
  | boolean (b : Bool)
  | datetime (text : String)
  | array (items : List (Value F))
  | table (entries : List (String × Value F))

/-- The entries of a table, each key once. -/
abbrev Entries (F : Type) := List (String × Value F)

variable {F : Type}

/-- `v == s`, for a string. -/
def Value.isText (v : Value F) (s : String) : Bool :=
  match v with
  | text t => t = s
  | _ => false

end Toml
