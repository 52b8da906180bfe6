/-
  Harvest.Spec.Rule — what a node of a spec says of itself.

  A rule has a type, an output label, two output modes, a filter on the elements of the
  container it looks at, and optionally a name under which the positions of the chosen
  elements are put out. `terminal` is a derived mark: it says that no filter stands at
  the node or among its children and theirs, and lets the node take every element
  without looking.
-/

import Harvest.Filter
import Harvest.Text.Blank

namespace Harvest

/-! ## Modes -/

/-- How the values of a node are laid out. -/
inductive Stack where
  | stack
  | spread
  | auto
  deriving DecidableEq, Repr, Inhabited

def Stack.text : Stack → String
  | .stack => "STACK"
  | .spread => "SPREAD"
  | .auto => "AUTO"

/-- The words for the layouts in a description. -/
def Stack.words : List (String × Stack) := [("stack", .stack), ("spread", .spread), ("auto", .auto)]

/-- What of a value is put out: itself, its leaves as one text, or nothing. -/
inductive Treatment where
  | asis
  | paste
  | none
  deriving DecidableEq, Repr, Inhabited

def Treatment.text : Treatment → String
  | .asis => "ASIS"
  | .paste => "PASTE"
  | .none => "NONE"

/-- The words for the treatments in a description. -/
def Treatment.words : List (String × Treatment) := [("asis", .asis), ("paste", .paste), ("none", .none)]

/-! ## Types -/

/-- A node without a type, the absent node, or a type by name. -/
inductive TypeTag where
  | nil
  | untyped
  | named (s : String)
  deriving DecidableEq, Repr, Inhabited

def TypeTag.text : TypeTag → String
  | .nil => "NIL"
  | .untyped => ""
  | .named s => s

/-- The type a text names. Blanks around it do not count, but a name keeps them. -/
def TypeTag.ofText (s : String) : TypeTag :=
  if Text.trim s = "" then .untyped
  else if Text.word s = "nil" then .nil
  else .named s

/-! ## Rules -/

structure Rule where
  type : TypeTag := .untyped
  label : Option String := none
  stack : Stack := .auto
  process : Treatment := .none
  filter : Filter := {}
  /-- The name under which positions are put out. -/
  ordinal : Option String := none
  terminal : Bool := true
  deriving DecidableEq, Inhabited

namespace Rule

def isNil (r : Rule) : Bool := r.type == .nil

/-- A mark that denies a filter of the node itself. -/
def isStale (r : Rule) : Bool := r.terminal && !r.filter.isEmpty

/-- The rule on one line: its type and the names it includes, its modes and its mark. -/
def text (r : Rule) : String :=
  "spec[" ++ r.type.text ++ String.join (r.filter.included.names.toList.map (· ++ ",")) ++
    " stack:" ++ r.stack.text ++ " process:" ++ r.process.text ++
    " terminal[parent]:" ++ (if r.terminal then "T" else "F") ++ "]"

end Rule

end Harvest
