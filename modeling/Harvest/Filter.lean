/-
  Harvest.Filter — which elements of a container a node looks at.

  Elements are named by position or by name. Those included come first: with none the
  filter starts from every element. Those excluded are then taken away, so an element
  both included and excluded is not accepted.
-/

import Harvest.SortedSet

namespace Harvest

/-- Elements given by their positions and names. -/
structure Keys where
  positions : SortedSet UInt64 := .empty
  names : SortedSet String := .empty
  deriving DecidableEq, Inhabited

def Keys.isEmpty (k : Keys) : Bool := k.positions.isEmpty && k.names.isEmpty

/-- Whether the element at `position`, with or without a name, is among the keys. -/
def Keys.covers (k : Keys) (position : Nat) (name : Option String) : Bool :=
  k.positions.toList.any (·.toNat == position) || name.any k.names.toList.contains

structure Filter where
  included : Keys := {}
  excluded : Keys := {}
  deriving DecidableEq, Inhabited

def Filter.isEmpty (f : Filter) : Bool := f.included.isEmpty && f.excluded.isEmpty

def Filter.accepts (f : Filter) (position : Nat) (name : Option String) : Bool :=
  (f.included.isEmpty || f.included.covers position name) && !f.excluded.covers position name

/-- One way to name an element. -/
inductive Key where
  | position (p : UInt64)
  | name (s : String)
  deriving DecidableEq, Repr

def Keys.insert (k : Keys) : Key → Keys
  | .position p => { k with positions := k.positions.insert p }
  | .name s => { k with names := k.names.insert s }

def Filter.includeKey (f : Filter) (key : Key) : Filter := { f with included := f.included.insert key }

def Filter.excludeKey (f : Filter) (key : Key) : Filter := { f with excluded := f.excluded.insert key }

/-- The filter with no keys accepts every element. -/
theorem Filter.accepts_of_isEmpty {f : Filter} (h : f.isEmpty) (position : Nat) (name : Option String) :
    f.accepts position name := by
  simp only [Filter.isEmpty, Keys.isEmpty, SortedSet.isEmpty, Bool.and_eq_true, List.isEmpty_iff] at h
  obtain ⟨⟨hp, hn⟩, ⟨hp', hn'⟩⟩ := h
  cases name <;> simp [Filter.accepts, Keys.isEmpty, SortedSet.isEmpty, Keys.covers, hp, hn, hp', hn']

end Harvest
