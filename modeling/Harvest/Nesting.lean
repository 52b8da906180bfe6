/-
  Harvest.Nesting — values that a spec is matched against.

  A nested value is a container, which lists its entries in order, or a scalar. An entry
  has its position and may have a name. Documents are nested values: the items of an
  array have no names, the members of an object all have one.
-/

import Harvest.Json.Basic

namespace Harvest

structure Entry (V : Type) where
  position : Nat
  name : Option String
  value : V

class Nesting (V : Type) where
  /-- The entries of a container; nothing for a scalar. -/
  entries : V → Option (List (Entry V))
  /-- What a value is, in a word. -/
  kind : V → String

namespace Json

def kind : Json → String
  | .null => "null"
  | .bool _ => "bool"
  | .int _ => "number"
  | .float _ => "number"
  | .string _ => "string"
  | .array _ => "array"
  | .object _ => "object"

def entries : Json → Option (List (Entry Json))
  | .array items => some (items.mapIdx fun i v => ⟨i, none, v⟩)
  | .object members => some (members.mapIdx fun i (name, v) => ⟨i, some name, v⟩)
  | _ => none

instance : Nesting Json := ⟨entries, kind⟩

end Json

end Harvest
