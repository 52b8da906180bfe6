/-
  Harvest.NamedList — lists whose items may have names.

  Unlike the members of an object the items of such a list may be unnamed, and two of
  them may have one name. A document stands for a named list where an array is a list
  of pairs of a name, or null, and an item; any other document is a leaf.
-/

import Harvest.Json.Printer
import Harvest.Nesting

namespace Harvest

inductive NamedList where
  | leaf (v : Json)
  | list (items : List (Option String × NamedList))
  deriving Inhabited

namespace NamedList

def kind : NamedList → String
  | .leaf _ => "leaf"
  | .list _ => "list"

def entries : NamedList → Option (List (Entry NamedList))
  | .leaf _ => none
  | .list items => some (items.mapIdx fun i (name, v) => ⟨i, name, v⟩)

instance : Nesting NamedList := ⟨entries, kind⟩

/-! ## Text -/

mutual

/-- A leaf as compact JSON; a list as its items between parentheses. -/
def text : NamedList → String
  | .leaf v => v.compact
  | .list items => "(" ++ String.intercalate " " (itemTexts items) ++ ")"

def itemTexts : List (Option String × NamedList) → List String
  | [] => []
  | (name, v) :: rest => (name.elim "" (· ++ "=") ++ text v) :: itemTexts rest

end

/-! ## Documents -/

mutual

/-- The named list that a document stands for; nothing if an item is not a pair of a
    name and an item. -/
def ofJson? : Json → Option NamedList
  | .array items => (itemsOfJson? items).map .list
  | v => some (.leaf v)

def itemsOfJson? : List Json → Option (List (Option String × NamedList))
  | [] => some []
  | .array [name, v] :: rest => do
    let name ← match name with
      | .null => some none
      | .string s => some (some s)
      | _ => none
    let v ← ofJson? v
    let rest ← itemsOfJson? rest
    return (name, v) :: rest
  | _ :: _ => none

end

end NamedList

end Harvest
