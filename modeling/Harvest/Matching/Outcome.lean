/-
  Harvest.Matching.Outcome — the result of a match.

  A lenient match skips branches and reports them beside the records; a strict one fails
  at the first. A match comes to nothing at a mark that denies a filter.
-/

import Harvest.Matching.Walk

namespace Harvest

variable {V : Type}

/-- The records of a match and the branches that were skipped. -/
structure Yield (V : Type) where
  records : List (Record V)
  mismatches : List (Mismatch V)

def Yield.isComplete (y : Yield V) : Bool := y.mismatches.isEmpty

/-- The records if no branch was skipped, else the first mismatch. -/
def Yield.toExcept (y : Yield V) : Except (Mismatch V) (List (Record V)) :=
  match y.mismatches with
  | [] => .ok y.records
  | m :: _ => .error m

def Progress.yield (p : Progress V) : Yield V := ⟨p.records, p.mismatches⟩

namespace Spec

variable [Nesting V]

/-- A walk from its start: how it ends and what it has done by then. -/
def explore (mode : Mode) (spec : Spec) (v : V) : Except (Halt V) Unit × Progress V := (spec.walk mode v).run {}

/-- The tree matched against a value, strictly or not. -/
def gather (mode : Mode) (spec : Spec) (v : V) : Except (Halt V) (Yield V) :=
  match spec.explore mode v with
  | (.ok (), p) => .ok p.yield
  | (.error h, _) => .error h

/-- Everything a lenient walk finds; nothing only if it meets a node with a stale mark. -/
def gatherLenient (spec : Spec) (v : V) : Except Spec (Yield V) :=
  match spec.explore .lenient v with
  | (.error (.stale node), _) => .error node
  | (_, p) => .ok p.yield

/-- The records if nothing was skipped. -/
def gatherStrict (spec : Spec) (v : V) : Except (Halt V) (List (Record V)) := (spec.gather .strict v).map (·.records)

end Spec

end Harvest
