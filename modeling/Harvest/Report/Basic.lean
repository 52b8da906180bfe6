/-
  Harvest.Report.Basic — the rows that a match yields.

  A row carries the output modes of the node that put the record out. What it surfaces
  is the position of the entry for an ordinal, and for a value what the node's process
  mode asks for: the value, its pasted text, or nothing.
-/

import Harvest.Json.Printer
import Harvest.Matching.Outcome

namespace Harvest

/-! ## Pasting -/

namespace Json

mutual

/-- A value as one text: a string is itself, null is empty, and a container joins its
    pasted items by commas. -/
def paste : Json → String
  | .null => ""
  | .string s => s
  | .array items => String.intercalate "," (pasteItems items)
  | .object members => String.intercalate "," (pasteMembers members)
  | v => compact v

def pasteItems : List Json → List String
  | [] => []
  | v :: rest => paste v :: pasteItems rest

def pasteMembers : List (String × Json) → List String
  | [] => []
  | (_, v) :: rest => paste v :: pasteMembers rest

end

end Json

/-! ## Rows -/

structure Row where
  position : Nat
  kind : RecordKind
  specName : Option String
  elementName : Option String
  stack : Stack
  process : Treatment
  value : Option Json

def Treatment.surface (p : Treatment) (v : Json) : Option Json :=
  match p with
  | .asis => some v
  | .paste => some (.string v.paste)
  | .none => Option.none

def Row.ofRecord (r : Record Json) : Row where
  position := r.entry.position
  kind := r.kind
  specName := r.specName
  elementName := r.entry.name
  stack := r.node.stack
  process := r.node.process
  value := match r.kind with
    | .ordinal => some (.nat r.entry.position)
    | .value => r.node.process.surface r.entry.value

/-! ## Reports -/

structure Report where
  spec : String
  rows : List Row
  mismatches : List String

namespace Report

def ofYield (spec : Spec) (y : Yield Json) : Report :=
  ⟨spec.text, y.records.map .ofRecord, y.mismatches.map (·.message)⟩

/-- How many rows are of a kind. -/
def count (r : Report) (kind : RecordKind) : Nat := r.rows.countP (·.kind == kind)

end Report

end Harvest
