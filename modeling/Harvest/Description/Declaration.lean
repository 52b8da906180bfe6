/-
  Harvest.Description.Declaration — one node as a description writes it.

  A node is an object whose member names are all field names, or an array of the fields
  in their order. The label has two names, of which a node may use one. A field that is
  a word may be null, one that is a list may not. Fields are looked at in the order in
  which they are written and the first one amiss is reported; an array that is too long
  is reported after its fields.
-/

import Harvest.Json.Printer

namespace Harvest

/-! ## Fields -/

inductive Field where
  | type
  | label
  | stack
  | process
  | included
  | excluded
  | ordinal
  | children
  | groups
  deriving DecidableEq, Repr

namespace Field

/-- The fields in the order in which an array lists them. -/
def all : List Field := [type, label, stack, process, included, excluded, ordinal, children, groups]

def name : Field → String
  | type => "type"
  | label => "as"
  | stack => "stack"
  | process => "process"
  | included => "include"
  | excluded => "exclude"
  | ordinal => "ix_name"
  | children => "children"
  | groups => "groups"

/-- The names that members may have. -/
def names : List String :=
  ["type", "as", "name", "stack", "process", "include", "exclude", "ix_name", "children", "groups"]

def ofName? (s : String) : Option Field := if s = "name" then some label else all.find? (·.name == s)

end Field

/-! ## What may be wrong with a node -/

inductive Expected where
  | node
  | word
  | list
  deriving DecidableEq, Repr

def Expected.text : Expected → String
  | .node => "struct RawSpec"
  | .word => "a string"
  | .list => "a sequence"

inductive ShapeError where
  | unknownField (name : String)
  | repeatedField (field : Field)
  | wrongType (found : Json) (expected : Expected)
  | tooManyFields (count : Nat)

/-- A value as a message names it. -/
def Json.found : Json → String
  | .null => "null"
  | .bool b => "boolean `" ++ toString b ++ "`"
  | .int n => "integer `" ++ toString n ++ "`"
  | .float x => "floating point `" ++ numberLayout.text x ++ "`"
  | .string s => "string " ++ Text.quoted s
  | .array _ => "sequence"
  | .object _ => "map"

def ShapeError.message : ShapeError → String
  | .unknownField name =>
    "unknown field `" ++ name ++ "`, expected one of " ++
      String.intercalate ", " (Field.names.map fun n => "`" ++ n ++ "`")
  | .repeatedField field => "duplicate field `" ++ field.name ++ "`"
  | .wrongType found expected => "invalid type: " ++ found.found ++ ", expected " ++ expected.text
  | .tooManyFields count => "invalid length " ++ toString count ++ ", expected fewer elements in array"

/-! ## Declarations -/

/-- The fields of a node: words as they are written, and the parts of lists still unread. -/
structure Declaration where
  type : Option String := none
  label : Option String := none
  stack : Option String := none
  process : Option String := none
  included : List Json := []
  excluded : List Json := []
  ordinal : Option String := none
  children : List Json := []
  groups : List Json := []

namespace Declaration

def wordOf : Json → Except ShapeError (Option String)
  | .null => .ok none
  | .string s => .ok (some s)
  | v => .error (.wrongType v .word)

def listOf : Json → Except ShapeError (List Json)
  | .array items => .ok items
  | v => .error (.wrongType v .list)

def set (d : Declaration) (v : Json) : Field → Except ShapeError Declaration
  | .type => (wordOf v).map fun s => { d with type := s }
  | .label => (wordOf v).map fun s => { d with label := s }
  | .stack => (wordOf v).map fun s => { d with stack := s }
  | .process => (wordOf v).map fun s => { d with process := s }
  | .included => (listOf v).map fun l => { d with included := l }
  | .excluded => (listOf v).map fun l => { d with excluded := l }
  | .ordinal => (wordOf v).map fun s => { d with ordinal := s }
  | .children => (listOf v).map fun l => { d with children := l }
  | .groups => (listOf v).map fun l => { d with groups := l }

/-- The declaration with the fields of an object's members, none of them among `seen`. -/
def addMembers (d : Declaration) (seen : List Field) : List (String × Json) → Except ShapeError Declaration
  | [] => .ok d
  | (name, v) :: rest =>
    match Field.ofName? name with
    | none => .error (.unknownField name)
    | some field =>
      if field ∈ seen then .error (.repeatedField field)
      else match d.set v field with
        | .error e => .error e
        | .ok d => d.addMembers (field :: seen) rest

/-- The declaration with the given fields from an array's items. -/
def addItems (d : Declaration) : List Field → List Json → Except ShapeError Declaration
  | field :: fields, v :: rest =>
    match d.set v field with
    | .error e => .error e
    | .ok d => d.addItems fields rest
  | _, _ => .ok d

def ofJson : Json → Except ShapeError Declaration
  | .object members => addMembers {} [] members
  | .array items =>
    match addItems {} Field.all items with
    | .error e => .error e
    | .ok d => if Field.all.length < items.length then .error (.tooManyFields items.length) else .ok d
  | v => .error (.wrongType v .node)

/-! ## A declaration is smaller than what it is read from -/

/-- How many values a declaration leaves unread below the node. -/
def weight (d : Declaration) : Nat := Json.sizeAll d.children + Json.sizeAll d.groups

theorem weight_of_word {d d' : Declaration} {v : Json} {f : Option String → Declaration}
    (h : (wordOf v).map f = .ok d') (hf : ∀ s, (f s).weight = d.weight) : d'.weight ≤ d.weight + v.size := by
  cases hw : wordOf v with
  | error e => rw [hw] at h; cases h
  | ok s => rw [hw] at h; cases h; rw [hf]; omega

theorem weight_of_list {d d' : Declaration} {v : Json} {f : List Json → Declaration}
    (h : (listOf v).map f = .ok d') (hf : ∀ l, (f l).weight ≤ d.weight + Json.sizeAll l) :
    d'.weight ≤ d.weight + v.size := by
  cases v with
  | array items =>
    cases h
    have := hf items
    simp only [Json.size]; omega
  | _ => cases h

theorem weight_set {d d' : Declaration} {v : Json} {field : Field} (h : d.set v field = .ok d') :
    d'.weight ≤ d.weight + v.size := by
  cases field <;> unfold set at h
  case type | label | stack | process | ordinal => exact weight_of_word h fun _ => rfl
  case included | excluded => exact weight_of_list h fun _ => Nat.le_add_right ..
  case children | groups => exact weight_of_list h fun _ => by simp only [weight]; omega

theorem weight_addMembers {d d' : Declaration} {seen : List Field} {members : List (String × Json)}
    (h : d.addMembers seen members = .ok d') : d'.weight ≤ d.weight + Json.sizeMembers members := by
  fun_induction addMembers d seen members with
  | case1 => cases h; exact Nat.le_refl _
  | case2 => cases h
  | case3 => cases h
  | case4 => cases h
  | case5 d seen name v rest field hf hs d₁ hset ih =>
    have := weight_set hset
    have := ih h
    simp only [Json.sizeMembers]
    omega

theorem weight_addItems {d d' : Declaration} {fields : List Field} {items : List Json}
    (h : d.addItems fields items = .ok d') : d'.weight ≤ d.weight + Json.sizeAll items := by
  fun_induction addItems d fields items with
  | case1 => cases h
  | case2 d field fields v rest d₁ hset ih =>
    have := weight_set hset
    have := ih h
    simp only [Json.sizeAll]
    omega
  | case3 => cases h; exact Nat.le_add_right ..

theorem weight_ofJson {v : Json} {d : Declaration} (h : ofJson v = .ok d) : d.weight < v.size := by
  have empty : ({} : Declaration).weight = 0 := rfl
  unfold ofJson at h
  split at h
  · have := weight_addMembers h
    simp only [Json.size]; omega
  · split at h
    · cases h
    · rename_i hi
      split at h
      · cases h
      · cases h
        have := weight_addItems hi
        simp only [Json.size]; omega
  · cases h

end Declaration

end Harvest
