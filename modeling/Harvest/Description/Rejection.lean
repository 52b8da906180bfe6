/-
  Harvest.Description.Rejection — why a description is refused, and where.

  A problem belongs to one place: a node, or a declaration of a group. The place is the
  list of steps that lead to it from the described root, and is written as the steps
  joined by dots, after a base path if there is one. A path that is carried down as text
  grows by a step at a time, and is set before the problem where that is found (`Located`).
-/

import Harvest.Description.Declaration

namespace Harvest

/-! ## Problems -/

/-- The two lists of keys of a filter. -/
inductive Axis where
  | included
  | excluded
  deriving DecidableEq, Repr

def Axis.text : Axis → String
  | .included => "include"
  | .excluded => "exclude"

/-- What an absent node may not have. -/
inductive Content where
  | children
  | groups
  | filters
  deriving DecidableEq, Repr

def Content.text : Content → String
  | .children => "children"
  | .groups => "groups"
  | .filters => "filters"

inductive Problem where
  | malformed (e : ShapeError)
  | nilContent (content : Content)
  | unknownStack (keyword : String)
  | unknownProcess (keyword : String)
  | badKey (axis : Axis) (entry : Json)
  | groupShape (found : Json)
  | groupArity (count : Nat)
  | groupLabel (found : Json)
  | groupMembers (label : String)

def Problem.message : Problem → String
  | .malformed e => "malformed spec description: " ++ e.message
  | .nilContent content => "NIL spec cannot declare " ++ content.text
  | .unknownStack keyword => "unknown stack keyword '" ++ keyword ++ "' (expected stack, spread or auto)"
  | .unknownProcess keyword => "unknown process keyword '" ++ keyword ++ "' (expected asis, paste or none)"
  | .badKey axis entry =>
    axis.text ++ " entry " ++ entry.compact ++ " is neither a non-negative position nor a name"
  | .groupShape found => "group declaration must be a list [alias, specs], found " ++ found.compact
  | .groupArity count => "group declaration must have 2 elements [alias, specs], found " ++ toString count
  | .groupLabel found => "group alias must be a string, found " ++ found.compact
  | .groupMembers label => "members of group '" ++ label ++ "' must be a list of specs"

/-! ## Places -/

inductive Step where
  | child (i : Nat)
  | group (i : Nat)
  | member (label : String) (i : Nat)
  deriving DecidableEq, Repr

def Step.text : Step → String
  | .child i => "children[" ++ toString i ++ "]"
  | .group i => "groups[" ++ toString i ++ "]"
  | .member label i => label ++ "[" ++ toString i ++ "]"

/-- A problem and the steps to its place. -/
structure Rejection where
  place : List Step
  problem : Problem

namespace Rejection

/-- A problem at the place itself. -/
def here (problem : Problem) : Rejection := ⟨[], problem⟩

/-- The rejection seen from one step above. -/
def under (step : Step) (r : Rejection) : Rejection := { r with place := step :: r.place }

/-- The path of the place from a base; nothing when that is the place and has no path. -/
def path? (base : String) (r : Rejection) : Option String :=
  match (if base = "" then [] else [base]) ++ r.place.map Step.text with
  | [] => none
  | segments => some (String.intercalate "." segments)

def message (base : String) (r : Rejection) : String :=
  match r.path? base with
  | none => r.problem.message
  | some path => "at " ++ path ++ ": " ++ r.problem.message

end Rejection

/-! ## Problems with their paths -/

/-- A problem as it is told, with the path of its place or without one. -/
structure Located where
  path? : Option String
  problem : Problem

/-- The empty path is none. -/
def Problem.locatedAt (path : String) (problem : Problem) : Located := ⟨if path = "" then none else some path, problem⟩

def Rejection.located (base : String) (r : Rejection) : Located := ⟨r.path? base, r.problem⟩

def joinPath (parent segment : String) : String := if parent = "" then segment else parent ++ "." ++ segment

end Harvest
