/-
  Harvest.Description.Tree — the spec tree that a description stands for.

  A node is judged in this order: its shape, content that an absent node may not have,
  its stack and process words, its filter keys, then its children one by one with all
  below them, then its groups in the same way. The first problem is the rejection.

  The way to a rejection is told either on the way back, as the steps from the root
  (`Spec.build`), or on the way down, as the path so far (`Spec.buildFrom`). What they
  tell is the same.
-/

import Harvest.Description.Rejection
import Harvest.Spec.Basic

namespace Harvest

/-- Whether a document looks like a description: an object of known fields only. -/
def Json.looksLikeSpec : Json → Bool
  | .object members => members.all fun (name, _) => Field.names.contains name
  | _ => false

/-! ## Words and keys -/

/-- What a keyword stands for, by the table of words. Its case and the blanks around it do not count. -/
def readKeyword {α : Type} (words : List (String × α)) (unknown : String → Problem) (s : String) : Except Problem α :=
  match words.lookup (Text.word s) with
  | some a => .ok a
  | none => .error (unknown s)

def Stack.ofKeyword : String → Except Problem Stack := readKeyword Stack.words .unknownStack

def Treatment.ofKeyword : String → Except Problem Treatment := readKeyword Treatment.words .unknownProcess

/-- A string is a name, a whole number of at most 64 bits a position. -/
def Key.ofJson (axis : Axis) : Json → Except Problem Key
  | .string s => .ok (.name s)
  | .int n => if 0 ≤ n ∧ n.toNat < UInt64.size then .ok (.position n.toNat.toUInt64) else .error (.badKey axis (.int n))
  | v => .error (.badKey axis v)

def Keys.ofJson (axis : Axis) (entries : List Json) : Except Problem Keys := do
  let keys ← entries.mapM (Key.ofJson axis)
  return keys.foldl Keys.insert {}

/-! ## Rules -/

/-- The content of an absent node that it may not have, if there is any. -/
def Declaration.nilContent? (d : Declaration) : Option Content :=
  if !d.children.isEmpty then some .children
  else if !d.groups.isEmpty then some .groups
  else if !d.included.isEmpty || !d.excluded.isEmpty then some .filters
  else none

/-- The rule of the node, whose mark is not yet set. -/
def Declaration.rule (d : Declaration) : Except Problem Rule := do
  let type := TypeTag.ofText (Text.trim (d.type.getD ""))
  if type = .nil then
    if let some content := d.nilContent? then throw (.nilContent content)
  let layout ← d.stack.elim (.ok .auto) Stack.ofKeyword
  let process ← d.process.elim (.ok .none) Treatment.ofKeyword
  let included ← Keys.ofJson .included d.included
  let excluded ← Keys.ofJson .excluded d.excluded
  return { type, label := d.label, stack := layout, process, filter := ⟨included, excluded⟩, ordinal := d.ordinal }

/-! ## Trees -/

mutual

/-- The tree of a node, with no mark set. -/
def Spec.build (v : Json) : Except Rejection Spec :=
  match _hd : Declaration.ofJson v with
  | .error e => .error (.here (.malformed e))
  | .ok d => d.build
termination_by 4 * v.size
decreasing_by have := Declaration.weight_ofJson _hd; omega

def Declaration.build (d : Declaration) : Except Rejection Spec := do
  let rule ← d.rule.mapError Rejection.here
  let children ← Spec.buildAll .child 0 d.children
  let groups ← Spec.buildGroups 0 d.groups
  return ⟨rule, children, groups⟩
termination_by 4 * d.weight + 3
decreasing_by all_goals simp only [Declaration.weight]; omega

def Spec.buildAll (step : Nat → Step) (i : Nat) : List Json → Except Rejection (List Spec)
  | [] => .ok []
  | v :: rest => do
    let s ← (Spec.build v).mapError (.under (step i))
    let specs ← Spec.buildAll step (i + 1) rest
    return s :: specs
termination_by l => 4 * Json.sizeAll l + 2
decreasing_by all_goals have := v.size_pos; simp only [Json.sizeAll]; omega

def Spec.buildGroups (i : Nat) : List Json → Except Rejection (List (Group Spec))
  | [] => .ok []
  | v :: rest => do
    let g ← (Group.build v).mapError (.under (.group i))
    let groups ← Spec.buildGroups (i + 1) rest
    return g :: groups
termination_by l => 4 * Json.sizeAll l + 2
decreasing_by all_goals have := v.size_pos; simp only [Json.sizeAll]; omega

/-- The group that a pair of a label and a list of nodes declares. -/
def Group.build : Json → Except Rejection (Group Spec)
  | .array [.string label, members] => Group.ofMembers label members
  | .array [v, _] => .error (.here (.groupLabel v))
  | .array items => .error (.here (.groupArity items.length))
  | v => .error (.here (.groupShape v))
termination_by v => 4 * v.size + 1
decreasing_by simp only [Json.size, Json.sizeAll]; omega

def Group.ofMembers (label : String) : Json → Except Rejection (Group Spec)
  | .array items => do
    let members ← Spec.buildAll (.member label) 0 items
    return ⟨label, members⟩
  | _ => .error (.here (.groupMembers label))
termination_by v => 4 * v.size + 1
decreasing_by simp only [Json.size]; omega

end

/-! ## Trees, with the path carried down -/

mutual

def Spec.buildFrom (path : String) (v : Json) : Except Located Spec :=
  match _hd : Declaration.ofJson v with
  | .error e => .error ((Problem.malformed e).locatedAt path)
  | .ok d => d.buildFrom path
termination_by 4 * v.size
decreasing_by have := Declaration.weight_ofJson _hd; omega

def Declaration.buildFrom (path : String) (d : Declaration) : Except Located Spec := do
  let rule ← d.rule.mapError (Problem.locatedAt path)
  let children ← Spec.buildAllFrom path .child 0 d.children
  let groups ← Spec.buildGroupsFrom path 0 d.groups
  return ⟨rule, children, groups⟩
termination_by 4 * d.weight + 3
decreasing_by all_goals simp only [Declaration.weight]; omega

def Spec.buildAllFrom (path : String) (step : Nat → Step) (i : Nat) : List Json → Except Located (List Spec)
  | [] => .ok []
  | v :: rest => do
    let s ← Spec.buildFrom (joinPath path (step i).text) v
    let specs ← Spec.buildAllFrom path step (i + 1) rest
    return s :: specs
termination_by l => 4 * Json.sizeAll l + 2
decreasing_by all_goals have := v.size_pos; simp only [Json.sizeAll]; omega

def Spec.buildGroupsFrom (path : String) (i : Nat) : List Json → Except Located (List (Group Spec))
  | [] => .ok []
  | v :: rest => do
    let g ← Group.buildFrom (joinPath path (Step.group i).text) v
    let groups ← Spec.buildGroupsFrom path (i + 1) rest
    return g :: groups
termination_by l => 4 * Json.sizeAll l + 2
decreasing_by all_goals have := v.size_pos; simp only [Json.sizeAll]; omega

def Group.buildFrom (path : String) : Json → Except Located (Group Spec)
  | .array [.string label, members] => Group.ofMembersFrom path label members
  | .array [v, _] => .error ((Problem.groupLabel v).locatedAt path)
  | .array items => .error ((Problem.groupArity items.length).locatedAt path)
  | v => .error ((Problem.groupShape v).locatedAt path)
termination_by v => 4 * v.size + 1
decreasing_by simp only [Json.size, Json.sizeAll]; omega

def Group.ofMembersFrom (path label : String) : Json → Except Located (Group Spec)
  | .array items => do
    let members ← Spec.buildAllFrom path (.member label) 0 items
    return ⟨label, members⟩
  | _ => .error ((Problem.groupMembers label).locatedAt path)
termination_by v => 4 * v.size + 1
decreasing_by simp only [Json.size]; omega

end

/-! ## Descriptions -/

/-- The tree that a description stands for, with its marks set. -/
def Spec.ofJson (v : Json) : Except Rejection Spec := (Spec.build v).map Spec.refresh

/-- A group of the described members, with their marks set. -/
def Group.ofJson (label : String) (members : Json) : Except Rejection (Group Spec) :=
  (Group.ofMembers label members).map fun g => { g with members := g.members.map Spec.refresh }

/-- The tree that a description stands for, with the path carried down. -/
def Spec.ofJsonLocated (v : Json) : Except Located Spec := (Spec.buildFrom "" v).map Spec.refresh

/-- A group described by itself, with the path carried down. -/
def Group.ofJsonLocated (label : String) (members : Json) : Except Located (Group Spec) :=
  (Group.ofMembersFrom "" label members).map fun g => { g with members := g.members.map Spec.refresh }

end Harvest
