/-
  Harvest.Matching.Walk — the walk of a spec over a value.

  The root describes the value itself; every other node looks at the entries of the
  container its parent entered. A node chooses the entries its filter accepts. A leaf
  puts out each chosen entry, an inner node enters it and lets its children look at what
  is inside, then the members of its groups. Before that, a node with an ordinal name
  puts out the position of the entry. The absent node does nothing.

  A record goes under the label nearest to its node: the node's own, else that of its
  group, else the nearest label above. `label` carries the last two down the tree.

  A walker keeps what it has put out, the branches it skipped and the path it is at. A
  strict walk halts at the first scalar met by a node that needs a container, a lenient
  one skips the branch; both halt at a mark that denies a filter.
-/

import Harvest.Matching.Record

namespace Harvest

variable {V : Type}

/-! ## Walkers -/

inductive Mode where
  | lenient
  | strict
  deriving DecidableEq, Repr

/-- What ends a match before its walk does. -/
inductive Halt (V : Type) where
  | mismatch (m : Mismatch V)
  | stale (node : Spec)

def Halt.message [Nesting V] : Halt V → String
  | .mismatch m => m.message
  | .stale node => "stale terminal flag on " ++ node.text ++ "; call finalize() after editing filters"

/-- What a walk tells on its way. -/
inductive Note (V : Type) where
  | chose (node : Spec) (chosen available : Nat)
  | skipped (m : Mismatch V)

/-- What a walk has done so far. -/
structure Progress (V : Type) where
  records : List (Record V) := []
  mismatches : List (Mismatch V) := []
  /-- The hops into the container that is looked at. -/
  path : List Hop := []
  notes : List (Note V) := []

/-- A part of a walk: it goes on from what has been done, and may halt. -/
abbrev Walker (V : Type) := ExceptT (Halt V) (StateM (Progress V))

namespace Walker

def tell (n : Note V) : Walker V Unit := modify fun p => { p with notes := p.notes ++ [n] }

def put (r : Record V) : Walker V Unit := modify fun p => { p with records := p.records ++ [r] }

/-- A part of a walk one hop further in. The hop is taken back even if the part halts. -/
def within (hop : Hop) (part : Walker V Unit) : Walker V Unit := .mk do
  modify fun p => { p with path := p.path ++ [hop] }
  let result ← part.run
  modify fun p => { p with path := p.path.dropLast }
  return result

/-- A branch that cannot be followed. -/
def miss (mode : Mode) (m : Mismatch V) : Walker V Unit :=
  match mode with
  | .strict => throw (.mismatch m)
  | .lenient => do
    tell (.skipped m)
    modify fun p => { p with mismatches := p.mismatches ++ [m] }

/-- A node that needs a container met a scalar, where the walk is. -/
def refuse (mode : Mode) (node : Spec) (found : V) : Walker V Unit := do
  miss mode ⟨node, (← get).path, found⟩

end Walker

/-! ## Choosing -/

/-- The entries that the filter accepts. -/
def Rule.accepted (r : Rule) (entries : List (Entry V)) : List (Entry V) :=
  entries.filter fun e => r.filter.accepts e.position e.name

/-- The entries a node looks at further: all of them when it is marked terminal. -/
def Spec.choose (node : Spec) (entries : List (Entry V)) : Walker V (List (Entry V)) := do
  if node.isStale then throw (.stale node)
  return if node.terminal then entries else node.accepted entries

/-! ## The walk -/

namespace Spec

variable [Nesting V]

open Walker

omit [Nesting V] in
/-- The position of an entry put out, if the node names positions. -/
def putOrdinal (node : Spec) (e : Entry V) : Walker V Unit :=
  match node.ordinal with
  | some name => put ⟨.ordinal, some name, e, node⟩
  | none => pure ()

mutual

/-- A node looks at the entries of a container. -/
def select (mode : Mode) (label : Option String) (entries : List (Entry V)) : Spec → Walker V Unit
  | ⟨rule, children, groups⟩ => do
    let node : Spec := ⟨rule, children, groups⟩
    unless rule.isNil do
      let chosen ← node.choose entries
      tell (.chose node chosen.length entries.length)
      let label := rule.label.or label
      chosen.forM fun e =>
        if node.isLeaf then do
          node.putOrdinal e
          put ⟨.value, label, e, node⟩
        else within e.hop do
          match Nesting.entries e.value with
          | some inside =>
            node.putOrdinal e
            selectAll mode label inside children
            selectGroups mode inside groups
          | none => refuse mode node e.value

/-- Nodes look at the same entries one after the other. -/
def selectAll (mode : Mode) (label : Option String) (entries : List (Entry V)) : List Spec → Walker V Unit
  | [] => pure ()
  | s :: rest => do
    select mode label entries s
    selectAll mode label entries rest

/-- The members of groups look at the same entries, each under the label of its group. -/
def selectGroups (mode : Mode) (entries : List (Entry V)) : List (Group Spec) → Walker V Unit
  | [] => pure ()
  | ⟨label, members⟩ :: rest => do
    selectAll mode (some label) entries members
    selectGroups mode entries rest

end

/-- The tree matched against a value. The filter of an inner root decides which entries
    its children and groups see; its ordinals come before all else. -/
def walk (mode : Mode) (root : Spec) (v : V) : Walker V Unit := do
  unless root.isNil do
    match Nesting.entries v with
    | none => refuse mode root v
    | some entries =>
      if root.isLeaf then root.select mode none entries
      else do
        let seen ← root.choose entries
        seen.forM root.putOrdinal
        selectAll mode root.label seen root.children
        selectGroups mode seen root.groups

end Spec

end Harvest
