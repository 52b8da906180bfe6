/-
  Harvest.Spec.Listing — a spec tree as indented text.

  Each node and each group heading is one entry ended by a line feed. Children and group
  headings stand one level below their node, the members of a group one level below its
  heading. Labels and names are written as they are.
-/

import Harvest.Spec.Basic
import Harvest.Text.Column

namespace Harvest

/-- The rule with the label and the ordinal name it may have. -/
def Rule.entry (r : Rule) : String :=
  r.text ++ (r.label.elim "" (" as " ++ ·)) ++ (r.ordinal.elim "" (" ix_name " ++ ·))

namespace Spec

/-- The heading of a group. -/
def heading (label : String) : String := "group " ++ label ++ ":"

mutual

/-- The entries of a node and of what is below it, indented from `depth` on. -/
def entries (depth : Nat) : Spec → List String
  | ⟨rule, children, groups⟩ =>
    (Text.indent depth ++ rule.entry) :: entriesAll (depth + 1) children ++ entriesGroups (depth + 1) groups

def entriesAll (depth : Nat) : List Spec → List String
  | [] => []
  | s :: rest => entries depth s ++ entriesAll depth rest

def entriesGroups (depth : Nat) : List (Group Spec) → List String
  | [] => []
  | ⟨label, members⟩ :: rest =>
    (Text.indent depth ++ heading label) :: entriesAll (depth + 1) members ++ entriesGroups depth rest

end

/-- The tree as text. -/
def listing (s : Spec) : String := String.join ((s.entries 0).map Text.line)

end Spec

end Harvest
