/-
  Harvest.Spec.Basic — spec trees.

  A node has a rule, child nodes, and groups of further nodes under a common label. A
  node with neither is a leaf. `refresh` sets the terminal mark of every node: a node is
  terminal when it has no filter and its children are terminal; groups do not count.
-/

import Harvest.Spec.Rule

namespace Harvest

/-- Nodes under a common label. -/
structure Group (α : Type) where
  label : String
  members : List α
  deriving DecidableEq, Inhabited

structure Spec extends Rule where
  children : List Spec := []
  groups : List (Group Spec) := []

namespace Spec

instance : Inhabited Spec := ⟨{}⟩

def isLeaf (s : Spec) : Bool := s.children.isEmpty && s.groups.isEmpty

/-- A node without content of the type that `type` names. -/
def ofType (type : String) : Spec := { type := .ofText type }

/-- The absent node, which looks at nothing. -/
def nil : Spec := { type := .nil }

/-! ## The terminal mark -/

/-- The mark of this node set from its filter and its children's marks. -/
def refreshRoot (s : Spec) : Spec := { s with terminal := s.filter.isEmpty && s.children.all (·.terminal) }

mutual

/-- All marks set, from the leaves up. -/
def refresh : Spec → Spec
  | ⟨rule, children, groups⟩ => refreshRoot ⟨rule, refreshAll children, refreshGroups groups⟩

def refreshAll : List Spec → List Spec
  | [] => []
  | s :: rest => refresh s :: refreshAll rest

def refreshGroups : List (Group Spec) → List (Group Spec)
  | [] => []
  | ⟨label, members⟩ :: rest => ⟨label, refreshAll members⟩ :: refreshGroups rest

end

theorem refreshAll_eq_map (l : List Spec) : refreshAll l = l.map refresh := by
  induction l with
  | nil => rfl
  | cons s l ih => rw [refreshAll, ih, List.map_cons]

theorem refreshGroups_eq_map (l : List (Group Spec)) :
    refreshGroups l = l.map fun g => ⟨g.label, g.members.map refresh⟩ := by
  induction l with
  | nil => rfl
  | cons g l ih => rw [refreshGroups, ih, List.map_cons, refreshAll_eq_map]

/-! ## Building -/

def labelled (s : Spec) (label : String) : Spec := { s with label := some label }

def withStack (s : Spec) (mode : Stack) : Spec := { s with stack := mode }

def withTreatment (s : Spec) (mode : Treatment) : Spec := { s with process := mode }

def withOrdinal (s : Spec) (name : String) : Spec := { s with ordinal := some name }

def including (s : Spec) (key : Key) : Spec := { s with filter := s.filter.includeKey key }

def excluding (s : Spec) (key : Key) : Spec := { s with filter := s.filter.excludeKey key }

/-- The node with one more child, the last. -/
def addChild (s child : Spec) : Spec := { s with children := s.children ++ [child] }

/-- The node with one more group, the last. -/
def addGroup (s : Spec) (label : String) (members : List Spec) : Spec :=
  { s with groups := s.groups ++ [⟨label, members⟩] }

/-! ## Equality -/

mutual

def beq : Spec → Spec → Bool
  | ⟨r, cs, gs⟩, ⟨r', cs', gs'⟩ => r == r' && beqAll cs cs' && beqGroups gs gs'

def beqAll : List Spec → List Spec → Bool
  | [], [] => true
  | s :: l, s' :: l' => beq s s' && beqAll l l'
  | _, _ => false

def beqGroups : List (Group Spec) → List (Group Spec) → Bool
  | [], [] => true
  | ⟨label, members⟩ :: l, ⟨label', members'⟩ :: l' =>
    label == label' && beqAll members members' && beqGroups l l'
  | _, _ => false

end

mutual

theorem eq_of_beq : (s t : Spec) → beq s t = true → s = t
  | ⟨r, cs, gs⟩, ⟨r', cs', gs'⟩, h => by
    simp only [beq, Bool.and_eq_true, beq_iff_eq] at h
    rw [h.1.1, eq_of_beqAll cs cs' h.1.2, eq_of_beqGroups gs gs' h.2]

theorem eq_of_beqAll : (l m : List Spec) → beqAll l m = true → l = m
  | [], [], _ => rfl
  | [], _ :: _, h => by simp [beqAll] at h
  | _ :: _, [], h => by simp [beqAll] at h
  | s :: l, t :: m, h => by
    simp only [beqAll, Bool.and_eq_true] at h
    rw [eq_of_beq s t h.1, eq_of_beqAll l m h.2]

theorem eq_of_beqGroups : (l m : List (Group Spec)) → beqGroups l m = true → l = m
  | [], [], _ => rfl
  | [], _ :: _, h => by simp [beqGroups] at h
  | _ :: _, [], h => by simp [beqGroups] at h
  | ⟨label, members⟩ :: l, ⟨label', members'⟩ :: m, h => by
    simp only [beqGroups, Bool.and_eq_true, beq_iff_eq] at h
    rw [h.1.1, eq_of_beqAll members members' h.1.2, eq_of_beqGroups l m h.2]

end

mutual

theorem beq_self : (s : Spec) → beq s s = true
  | ⟨r, cs, gs⟩ => by simp [beq, beqAll_self cs, beqGroups_self gs]

theorem beqAll_self : (l : List Spec) → beqAll l l = true
  | [] => rfl
  | s :: l => by simp [beqAll, beq_self s, beqAll_self l]

theorem beqGroups_self : (l : List (Group Spec)) → beqGroups l l = true
  | [] => rfl
  | ⟨_, members⟩ :: l => by simp [beqGroups, beqAll_self members, beqGroups_self l]

end

instance : DecidableEq Spec := fun s t =>
  decidable_of_iff (beq s t = true) ⟨eq_of_beq s t, fun h => h ▸ beq_self s⟩

end Spec

end Harvest
