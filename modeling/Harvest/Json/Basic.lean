/-
  Harvest.Json.Basic — JSON documents.

  A number is whole or a double: a document's reader keeps a number whole when it is
  written without fraction and exponent and lies from `-2 ^ 63` up to `2 ^ 64 - 1`, and
  makes it a double otherwise. An object is the list of its members in document order;
  `ofMembers` gives a repeated name its first place and its last value, so the names of
  an object it builds are distinct.
-/

namespace Harvest

inductive Json where
  | null
  | bool (b : Bool)
  | int (n : Int)
  | float (x : Float)
  | string (s : String)
  | array (items : List Json)
  | object (members : List (String × Json))
  deriving Inhabited

namespace Json

def nat (n : Nat) : Json := .int n

/-- A text or, where there is none, null. -/
def text? : Option String → Json
  | some s => .string s
  | none => .null

/-- The members with `name` standing for `value`, in its old place or at the end. -/
def put (name : String) (value : Json) : List (String × Json) → List (String × Json)
  | [] => [(name, value)]
  | (n, v) :: rest => if n = name then (name, value) :: rest else (n, v) :: put name value rest

/-- An object of members read one after the other. -/
def ofMembers (members : List (String × Json)) : Json :=
  .object (members.foldl (fun ms (name, value) => put name value ms) [])

def member? (v : Json) (name : String) : Option Json :=
  match v with
  | .object ms => (ms.find? (·.1 == name)).map (·.2)
  | _ => none

/-! ## Size -/

mutual

/-- How many values a document holds, itself included. -/
def size : Json → Nat
  | .array items => sizeAll items + 1
  | .object members => sizeMembers members + 1
  | _ => 1

def sizeAll : List Json → Nat
  | [] => 0
  | v :: rest => size v + sizeAll rest

def sizeMembers : List (String × Json) → Nat
  | [] => 0
  | (_, v) :: rest => size v + sizeMembers rest

end

theorem size_pos (v : Json) : 0 < v.size := by cases v <;> simp [size]

end Json

end Harvest
