/-
  Harvest.Matching.Record — what a match puts out.

  A record is an entry that a node chose, under the name it is put out by. A mismatch is
  a scalar that a node met where it needs a container; it has the path that leads to the
  scalar.
-/

import Harvest.Nesting
import Harvest.Spec.Basic

namespace Harvest

/-! ## Records -/

inductive RecordKind where
  | value
  | ordinal
  deriving DecidableEq, Repr, Inhabited

def RecordKind.text : RecordKind → String
  | .value => "value"
  | .ordinal => "ordinal"

/-- A chosen entry as it is put out: the entry, the name it goes under, and the node that
    chose it. -/
structure Record (V : Type) where
  kind : RecordKind
  specName : Option String
  entry : Entry V
  node : Spec

def Record.text {V : Type} (r : Record V) : String :=
  "match[ix:" ++ toString r.entry.position ++ " spec_name:" ++ r.specName.getD "NULL" ++
    " elem_name:" ++ r.entry.name.getD "NULL" ++ "]"

/-! ## Paths -/

/-- A step into a container, to the entry at a position. -/
structure Hop where
  position : Nat
  name : Option String
  deriving DecidableEq, Repr

def Entry.hop {V : Type} (e : Entry V) : Hop := ⟨e.position, e.name⟩

def Hop.text (h : Hop) : String :=
  match h.name with
  | some name => "." ++ name
  | none => "[" ++ toString h.position ++ "]"

/-- The hops from the input on, which is `$`. -/
def pathText (hops : List Hop) : String := "$" ++ String.join (hops.map Hop.text)

/-! ## Mismatches -/

/-- A node that needs a container, and the scalar it met. -/
structure Mismatch (V : Type) where
  node : Spec
  path : List Hop
  found : V

variable {V : Type} [Nesting V]

def Mismatch.kind (m : Mismatch V) : String := Nesting.kind m.found

def Mismatch.message (m : Mismatch V) : String :=
  "structural mismatch at " ++ pathText m.path ++ ": " ++ m.node.text ++ " expects a container, found " ++ m.kind

end Harvest
