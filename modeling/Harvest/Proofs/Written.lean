/-
  Harvest.Proofs.Written — trees written out as descriptions.

  Every tree has a description that gives all fields of every node, each in its place
  (`Spec.describe`). Its rules are read back as they were written, keys included, if the
  types have names that a description can give (`TypeTag.Plain`) and no absent node has
  content; marks are not written. So the tree is built from its description, marks aside
  (`Spec.build_describe`). The description is a document as a reader gives it: it repeats no
  name and has no number out of range (`Spec.isDocument_describe`).
-/

import Harvest.Nesting
import Harvest.Proofs.Acceptance
import Harvest.Proofs.Keys
import Harvest.Proofs.Translation

namespace Harvest

/-! ## Declarations -/

/-- The node with these fields, all of them given. -/
def Declaration.toJson (d : Declaration) : Json := .object (Field.all.map fun f => (f.name, d.value f))

namespace Declaration

theorem given_toJson (d : Declaration) : d.toJson.given = Field.all.map fun f => (f, d.value f) := by
  simp [toJson, Json.given, List.filterMap_map, Field.ofName?_name]

theorem shaped_toJson (d : Declaration) : d.toJson.Shaped where
  known := by
    have hn : (Field.all.map fun f => (f.name, d.value f)).map (·.1) = Field.all.map Field.name := by
      rw [List.map_map]
      rfl
    refine ⟨Json.looksLikeSpec_iff.mpr ?_, ?_, ?_⟩
    · intro m hm
      obtain ⟨f, -, rfl⟩ := List.mem_map.mp hm
      exact Option.isSome_iff_exists.mpr ⟨f, Field.ofName?_name f⟩
    · rw [hn]
      decide
    · rw [hn]
      decide
  typed := by
    intro f x hx
    rw [given_toJson] at hx
    obtain ⟨g, -, hg⟩ := List.mem_map.mp hx
    obtain ⟨rfl, rfl⟩ := Prod.mk.inj hg
    have hword : ∀ o : Option String, Json.text? o = .null ∨ ∃ s, Json.text? o = .string s := by
      rintro (_ | s)
      · exact Or.inl rfl
      · exact Or.inr ⟨s, rfl⟩
    cases g with
    | included | excluded | children | groups => exact ⟨_, rfl⟩
    | type | label | stack | process | ordinal => exact hword _

/-- A declaration is read back from the node that gives its fields. -/
theorem ofJson_toJson (d : Declaration) : ofJson d.toJson = .ok d := by
  refine ofJson_eq_ok_iff.mpr ⟨d.shaped_toJson, eq_of_value fun g => ?_⟩
  have hf : d.toJson.field? g = some (d.value g) := by
    rw [Json.field?, given_toJson]
    cases g <;> rfl
  rw [declared_value d.shaped_toJson, hf]
  rfl

end Declaration

/-! ## Keys -/

def Key.toJson : Key → Json
  | .position p => .nat p.toNat
  | .name s => .string s

theorem Key.ofJson_toJson (axis : Axis) (key : Key) : ofJson axis key.toJson = .ok key := by
  cases key with
  | position p =>
    have hp : 0 ≤ (p.toNat : Int) ∧ (p.toNat : Int).toNat < UInt64.size := ⟨Int.natCast_nonneg _, p.toNat_lt⟩
    show (if 0 ≤ (p.toNat : Int) ∧ (p.toNat : Int).toNat < UInt64.size then _ else _) = _
    rw [if_pos hp]
    simp
  | name s => rfl

namespace Keys

def toList (k : Keys) : List Key := k.positions.toList.map .position ++ k.names.toList.map .name

theorem mem_toList {k : Keys} {key : Key} : key ∈ k.toList ↔ key ∈ k := by
  cases key <;> simp [toList, position_mem_iff, name_mem_iff]

theorem ofJson_toList (axis : Axis) (k : Keys) : ofJson axis (k.toList.map Key.toJson) = .ok k := by
  have hm : (k.toList.map Key.toJson).mapM (Key.ofJson axis) = .ok k.toList := by
    rw [mapM_eq_ok_iff, List.forall₂_map_left_iff, List.forall₂_same]
    exact fun key _ => Key.ofJson_toJson axis key
  have hk : k.toList.foldl insert {} = k := by
    apply ext
    intro key
    rw [mem_foldl_insert, mem_toList]
    exact or_iff_left (isEmpty_iff.mp rfl key)
  rw [ofJson, hm]
  exact congrArg Except.ok hk

end Keys

/-! ## Rules -/

/-- A name that a description can give to a type: it has no blanks around it and names
    neither no type nor the absent node. -/
def TypeTag.Plain (t : TypeTag) : Prop :=
  ∀ name, t = .named name → name ≠ "" ∧ Text.trim name = name ∧ Text.lower name ≠ "nil"

theorem TypeTag.plain_ofText {s : String} (h : Text.trim s = s) : (ofText s).Plain := by
  intro name hn
  unfold ofText at hn
  rw [Text.word, h] at hn
  split at hn
  · cases hn
  · split at hn
    · cases hn
    · rename_i hne hnil
      cases hn
      exact ⟨hne, h, hnil⟩

theorem TypeTag.ofText_text {t : TypeTag} (h : t.Plain) : ofText (Text.trim t.text) = t := by
  cases t with
  | nil => decide +kernel
  | untyped => decide +kernel
  | named name =>
    obtain ⟨hne, htrim, hnil⟩ := h name rfl
    have hword : Text.word name ≠ "nil" := by
      rw [Text.word, htrim]
      exact hnil
    show ofText (Text.trim name) = .named name
    rw [htrim, ofText, htrim, if_neg hne, if_neg hword]

namespace Rule

/-- What declares the rule, over the given children and groups. -/
def declaration (r : Rule) (children groups : List Json) : Declaration where
  type := some r.type.text
  label := r.label
  stack := some r.stack.text
  process := some r.process.text
  included := r.filter.included.toList.map Key.toJson
  excluded := r.filter.excluded.toList.map Key.toJson
  ordinal := r.ordinal
  children := children
  groups := groups

theorem declares_declaration {r : Rule} {children groups : List Json} (ht : r.type.Plain)
    (hn : r.type = .nil → (r.declaration children groups).nilContent? = none) :
    (r.declaration children groups).Declares { r with terminal := true } := by
  have hstack : Stack.words.lookup (Text.word r.stack.text) = some r.stack := by cases r.stack <;> decide +kernel
  have hprocess : Treatment.words.lookup (Text.word r.process.text) = some r.process := by
    cases r.process <;> decide +kernel
  exact {
    type := (TypeTag.ofText_text ht).symm
    absent := hn
    label := rfl
    stack := readKeyword_eq_ok_iff.mpr hstack
    process := readKeyword_eq_ok_iff.mpr hprocess
    included := Keys.ofJson_toList .included r.filter.included
    excluded := Keys.ofJson_toList .excluded r.filter.excluded
    ordinal := rfl
    terminal := rfl }

end Rule

/-! ## Trees -/

namespace Spec

mutual

/-- The description that gives all fields of every node. -/
def describe : Spec → Json
  | ⟨rule, children, groups⟩ => (rule.declaration (describeAll children) (describeGroups groups)).toJson

def describeAll : List Spec → List Json
  | [] => []
  | s :: rest => describe s :: describeAll rest

def describeGroups : List (Group Spec) → List Json
  | [] => []
  | ⟨label, members⟩ :: rest => .array [.string label, .array (describeAll members)] :: describeGroups rest

end

theorem describeAll_eq_map (l : List Spec) : describeAll l = l.map describe := by
  induction l with
  | nil => rfl
  | cons s l ih => rw [describeAll, ih, List.map_cons]

theorem describeGroups_eq_map (l : List (Group Spec)) :
    describeGroups l = l.map fun g => .array [.string g.label, .array (g.members.map describe)] := by
  induction l with
  | nil => rfl
  | cons g l ih => rw [describeGroups, ih, List.map_cons, describeAll_eq_map]

theorem describe_eq (s : Spec) :
    s.describe = (s.toRule.declaration (s.children.map describe)
      (s.groups.map fun g => .array [.string g.label, .array (g.members.map describe)])).toJson := by
  obtain ⟨rule, children, groups⟩ := s
  rw [describe, describeAll_eq_map, describeGroups_eq_map]

/-- An absent node has nothing below it and looks for nothing. -/
def AbsentBare (s : Spec) : Prop := s.isNil → s.children = [] ∧ s.groups = [] ∧ s.filter.isEmpty

theorem AbsentBare.nilContent?_eq_none {s : Spec} (h : s.AbsentBare) (hn : s.type = .nil) (f : Spec → Json)
    (g : Group Spec → Json) : (s.toRule.declaration (s.children.map f) (s.groups.map g)).nilContent? = none := by
  obtain ⟨hc, hg, hf⟩ := h (beq_iff_eq.mpr hn)
  obtain ⟨hin, hex⟩ := Bool.and_eq_true_iff.mp hf
  have hkeys : ∀ k : Keys, k.isEmpty → k.toList.map Key.toJson = [] := by
    intro k hk
    rw [List.map_eq_nil_iff, List.eq_nil_iff_forall_not_mem]
    exact fun key hm => Keys.isEmpty_iff.mp hk key (Keys.mem_toList.mp hm)
  exact Declaration.nilContent?_eq_none_iff.mpr
    ⟨List.map_eq_nil_iff.mpr hc, List.map_eq_nil_iff.mpr hg, hkeys _ hin, hkeys _ hex⟩

/-- A tree is built from its description, with no mark set. -/
theorem build_describe {s : Spec} (h : ∀ t, s.Holds t → t.type.Plain ∧ t.AbsentBare) :
    build s.describe = .ok s.unmarked := by
  induction s using induction_branches with
  | step s ih =>
    obtain ⟨⟨ht, hb⟩, hbelow⟩ := forall_holds_iff.mp h
    have hbranch : ∀ edge c, (edge, c) ∈ s.branches → build c.describe = .ok c.unmarked := by
      intro edge c hc
      exact ih edge c hc (hbelow edge c hc)
    rw [describe_eq, unmarked_eq, build_eq_ok_iff]
    refine ⟨_, Declaration.ofJson_toJson _, Rule.declares_declaration ht fun hn => hb.nilContent?_eq_none hn _ _, ?_, ?_⟩
    · show List.Forall₂ _ (s.children.map describe) (s.children.map unmarked)
      rw [List.forall₂_map_left_iff, List.forall₂_map_right_iff, List.forall₂_same]
      intro c hc
      exact hbranch none c (mem_branches.mpr (Or.inl ⟨rfl, hc⟩))
    · show List.Forall₂ _ (s.groups.map _) (s.groups.map _)
      rw [List.forall₂_map_left_iff, List.forall₂_map_right_iff, List.forall₂_same]
      intro g hg
      refine Group.build_eq_ok_iff.mpr ⟨_, rfl, ?_⟩
      rw [List.forall₂_map_left_iff, List.forall₂_map_right_iff, List.forall₂_same]
      intro c hc
      exact hbranch (some g.label) c (mem_branches.mpr (Or.inr ⟨g, hg, rfl, hc⟩))

end Spec

/-! ## Documents -/

/-- A document as a reader gives it: no name stands twice in an object, and whole numbers
    lie in their range. -/
inductive Json.IsDocument : Json → Prop
  | null : null.IsDocument
  | bool (b : Bool) : (bool b).IsDocument
  | int {n : Int} : -2 ^ 63 ≤ n → n < 2 ^ 64 → (int n).IsDocument
  | float (x : Float) : (float x).IsDocument
  | string (s : String) : (string s).IsDocument
  | array {items : List Json} : (∀ v ∈ items, v.IsDocument) → (array items).IsDocument
  | object {members : List (String × Json)} :
      (members.map (·.1)).Nodup → (∀ m ∈ members, m.2.IsDocument) → (object members).IsDocument

theorem Json.IsDocument.of_entry {v : Json} (hv : v.IsDocument) {entries : List (Entry Json)}
    (hentries : Nesting.entries v = some entries) {e : Entry Json} (he : e ∈ entries) : e.value.IsDocument := by
  cases hv with
  | array hitems =>
    cases hentries
    obtain ⟨i, hi, rfl⟩ := List.mem_mapIdx.mp he
    exact hitems _ (List.getElem_mem hi)
  | object _ hmembers =>
    cases hentries
    obtain ⟨i, hi, rfl⟩ := List.mem_mapIdx.mp he
    exact hmembers _ (List.getElem_mem hi)
  | _ => cases hentries

theorem Declaration.isDocument_toJson {d : Declaration} (h : ∀ f, (d.value f).IsDocument) : d.toJson.IsDocument := by
  refine .object d.shaped_toJson.known.2.1 ?_
  intro m hm
  obtain ⟨f, -, rfl⟩ := List.mem_map.mp hm
  exact h f

theorem Key.isDocument_toJson (key : Key) : key.toJson.IsDocument := by
  cases key with
  | position p =>
    have hp : p.toNat < 2 ^ 64 := p.toNat_lt
    exact .int (by omega) (by omega)
  | name s => exact .string s

theorem Spec.isDocument_describe (s : Spec) : s.describe.IsDocument := by
  induction s using induction_branches with
  | step s ih =>
    have hword : ∀ o : Option String, (Json.text? o).IsDocument := by
      rintro (_ | s)
      · exact .null
      · exact .string s
    have hkeys : ∀ k : Keys, (Json.array (k.toList.map Key.toJson)).IsDocument := by
      intro k
      exact .array (List.forall_mem_map.mpr fun key _ => key.isDocument_toJson)
    have hmembers : ∀ g ∈ s.groups, (Json.array [.string g.label, .array (g.members.map describe)]).IsDocument := by
      intro g hg
      have hlist : (Json.array (g.members.map describe)).IsDocument := .array <| List.forall_mem_map.mpr fun c hc =>
        ih (some g.label) c (mem_branches.mpr (Or.inr ⟨g, hg, rfl, hc⟩))
      exact .array (List.forall_mem_cons.mpr ⟨.string _, List.forall_mem_singleton.mpr hlist⟩)
    rw [describe_eq]
    apply Declaration.isDocument_toJson
    intro f
    cases f with
    | type | stack | process => exact .string _
    | label | ordinal => exact hword _
    | included | excluded => exact hkeys _
    | children =>
      exact .array (List.forall_mem_map.mpr fun c hc => ih none c (mem_branches.mpr (Or.inl ⟨rfl, hc⟩)))
    | groups => exact .array (List.forall_mem_map.mpr hmembers)

end Harvest
