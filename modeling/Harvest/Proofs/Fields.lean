/-
  Harvest.Proofs.Fields — what a document gives for the fields of a node.

  An object gives a field for each of its members, an array one for each of its items in
  the order of the fields (`Json.given`). Two lists of names stand side by side, the names
  that members may have and those the fields are found by; they name the same
  (`Field.mem_names_iff`).

  A declaration can be read from a document if and only if every field given is known, none
  is given twice and each has a value of its kind (`Json.Shaped`). It then holds what is
  given, and for a field that is not given null or an empty list
  (`Declaration.ofJson_eq_ok_iff`).
-/

import Harvest.Description.Tree
import Mathlib.Data.List.Nodup
import Mathlib.Data.List.Pairwise

namespace Harvest

/-! ## Names of fields -/

namespace Field

/-- Whether the value of the field is a list; that of any other is a word or null. -/
def isList : Field → Bool
  | included | excluded | children | groups => true
  | type | label | stack | process | ordinal => false

/-- Whether a document can be the value of the field. -/
def Admits (f : Field) (x : Json) : Prop :=
  if f.isList then ∃ items, x = .array items else x = .null ∨ ∃ s, x = .string s

theorem ofName?_name (f : Field) : ofName? f.name = some f := by cases f <;> rfl

theorem ofName?_eq_some_iff {s : String} {f : Field} : ofName? s = some f ↔ s = f.name ∨ s = "name" ∧ f = label := by
  constructor
  · intro h
    unfold ofName? at h
    by_cases hs : s = "name"
    · rw [if_pos hs] at h
      exact Or.inr ⟨hs, (Option.some.inj h).symm⟩
    · rw [if_neg hs] at h
      have hn := List.find?_some h
      exact Or.inl (beq_iff_eq.mp hn).symm
  · rintro (rfl | ⟨rfl, rfl⟩)
    · exact ofName?_name f
    · rfl

/-- The names that members may have are the names of fields. -/
theorem mem_names_iff {s : String} : s ∈ names ↔ (ofName? s).isSome := by
  constructor
  · revert s
    decide
  · intro h
    obtain ⟨f, hf⟩ := Option.isSome_iff_exists.mp h
    rcases ofName?_eq_some_iff.mp hf with rfl | ⟨rfl, -⟩
    · cases f <;> decide
    · decide

/-- Only the label has two names. -/
theorem eq_of_ofName? {s t : String} {f : Field} (hs : ofName? s = some f) (ht : ofName? t = some f) :
    s = t ∨ s = "as" ∧ t = "name" ∨ s = "name" ∧ t = "as" := by
  rcases ofName?_eq_some_iff.mp hs with rfl | ⟨rfl, rfl⟩
  · rcases ofName?_eq_some_iff.mp ht with rfl | ⟨rfl, rfl⟩
    · exact Or.inl rfl
    · exact Or.inr (Or.inl ⟨rfl, rfl⟩)
  · rcases ofName?_eq_some_iff.mp ht with rfl | ⟨rfl, -⟩
    · exact Or.inr (Or.inr ⟨rfl, rfl⟩)
    · exact Or.inl rfl

end Field

/-! ## Fields given -/

namespace Json

/-- The fields that a document gives to a node, in the order in which it gives them. -/
def given : Json → List (Field × Json)
  | .object members => members.filterMap fun m => (Field.ofName? m.1).map (·, m.2)
  | .array items => Field.all.zip items
  | _ => []

/-- The value given for a field, if there is one. -/
def field? (v : Json) (f : Field) : Option Json := v.given.lookup f

/-- The word given for a field; nothing for null. -/
def wordAt? (v : Json) (f : Field) : Option String :=
  match v.field? f with
  | some (.string s) => some s
  | _ => none

/-- The list given for a field, empty if there is none. -/
def listAt (v : Json) (f : Field) : List Json :=
  match v.field? f with
  | some (.array items) => items
  | _ => []

/-- What the document gives to a node, read field by field. -/
def declared (v : Json) : Declaration where
  type := v.wordAt? .type
  label := v.wordAt? .label
  stack := v.wordAt? .stack
  process := v.wordAt? .process
  included := v.listAt .included
  excluded := v.listAt .excluded
  ordinal := v.wordAt? .ordinal
  children := v.listAt .children
  groups := v.listAt .groups

/-- An object whose names are all those of fields, not both names of the label among them,
    or an array of no more items than there are fields. No name stands twice in an object
    that is built by `ofMembers`; in any other it may not. -/
def FieldsKnown : Json → Prop
  | .object members =>
    (Json.object members).looksLikeSpec ∧ (members.map (·.1)).Nodup ∧
      ¬ ("as" ∈ members.map (·.1) ∧ "name" ∈ members.map (·.1))
  | .array items => items.length ≤ 9
  | _ => False

/-- The document has the shape of a node: its fields are known and of their kinds. -/
structure Shaped (v : Json) : Prop where
  known : v.FieldsKnown
  typed : ∀ f x, (f, x) ∈ v.given → f.Admits x

theorem looksLikeSpec_iff {members : List (String × Json)} :
    (Json.object members).looksLikeSpec ↔ ∀ m ∈ members, (Field.ofName? m.1).isSome := by
  show (members.all fun m => Field.names.contains m.1) = true ↔ _
  simp only [List.all_eq_true, List.contains_iff_mem, Field.mem_names_iff]

/-- Known fields are all different if and only if the names are, but for the two names of
    the label. -/
theorem nodup_given_iff {members : List (String × Json)} (hk : ∀ m ∈ members, (Field.ofName? m.1).isSome) :
    ((Json.object members).given.map (·.1)).Nodup ↔
      (members.map (·.1)).Nodup ∧ ¬ ("as" ∈ members.map (·.1) ∧ "name" ∈ members.map (·.1)) := by
  have hg : (Json.object members).given.map (·.1) = (members.map (·.1)).filterMap Field.ofName? := by
    simp [given, List.map_filterMap, List.filterMap_map, Function.comp_def]
  rw [hg, List.Nodup, List.pairwise_filterMap]
  constructor
  · intro h
    have hn : (members.map (·.1)).Nodup := by
      refine h.imp_of_mem ?_
      rintro s t hs ht hst rfl
      obtain ⟨m, hm, rfl⟩ := List.mem_map.mp hs
      obtain ⟨f, hf⟩ := Option.isSome_iff_exists.mp (hk m hm)
      exact hst f hf f hf rfl
    refine ⟨hn, ?_⟩
    rintro ⟨ha, hb⟩
    have hsymm : Std.Symm fun s t => ∀ f, Field.ofName? s = some f → ∀ g, Field.ofName? t = some g → f ≠ g :=
      ⟨fun s t hst f hf g hg hfg => hst g hg f hf hfg.symm⟩
    exact h.forall ha hb (by decide) .label rfl .label rfl rfl
  · rintro ⟨hn, hb⟩
    refine hn.imp_of_mem ?_
    rintro s t hs ht hst f hf g hg rfl
    rcases Field.eq_of_ofName? hf hg with rfl | ⟨rfl, rfl⟩ | ⟨rfl, rfl⟩
    · exact hst rfl
    · exact hb ⟨hs, ht⟩
    · exact hb ⟨ht, hs⟩

theorem nodup_map_fst_zip {α β : Type} {l : List α} (h : l.Nodup) (m : List β) : ((l.zip m).map (·.1)).Nodup := by
  induction l generalizing m with
  | nil => exact .nil
  | cons a l ih =>
    cases m with
    | nil => exact .nil
    | cons b m =>
      obtain ⟨ha, hl⟩ := List.nodup_cons.mp h
      refine List.nodup_cons.mpr ⟨?_, ih hl m⟩
      intro hm
      obtain ⟨p, hp, rfl⟩ := List.mem_map.mp hm
      exact ha (List.of_mem_zip hp).1

theorem FieldsKnown.nodup_given {v : Json} (h : v.FieldsKnown) : (v.given.map (·.1)).Nodup := by
  cases v with
  | object members =>
    obtain ⟨hk, hn⟩ := h
    exact (nodup_given_iff (looksLikeSpec_iff.mp hk)).mpr hn
  | array items => exact nodup_map_fst_zip (by decide) items
  | _ => exact .nil

end Json

section

variable {κ β : Type} [BEq κ] [LawfulBEq κ] {l : List (κ × β)} {k : κ}

theorem mem_of_lookup_eq_some {b : β} (h : l.lookup k = some b) : (k, b) ∈ l := by
  obtain ⟨before, after, rfl, -⟩ := List.lookup_eq_some_iff.mp h
  simp

theorem lookup_eq_none_iff_notMem : l.lookup k = none ↔ k ∉ l.map (·.1) := by
  rw [List.lookup_eq_none_iff, List.mem_map]
  constructor
  · rintro h ⟨p, hp, rfl⟩
    simpa using h p hp
  · intro h p hp
    have hne : k ≠ p.1 := fun he => h ⟨p, hp, he.symm⟩
    simpa using hne

end

namespace Json

theorem size_le_sizeAll {x : Json} {l : List Json} (h : x ∈ l) : x.size ≤ sizeAll l := by
  induction l with
  | nil => cases h
  | cons y l ih =>
    rw [sizeAll]
    rcases List.mem_cons.mp h with rfl | h
    · omega
    · have := ih h
      omega

theorem size_le_sizeMembers {m : String × Json} {l : List (String × Json)} (h : m ∈ l) : m.2.size ≤ sizeMembers l := by
  induction l with
  | nil => cases h
  | cons n l ih =>
    rw [sizeMembers]
    rcases List.mem_cons.mp h with rfl | h
    · omega
    · have := ih h
      omega

theorem size_lt_of_mem_given {v x : Json} {f : Field} (h : (f, x) ∈ v.given) : x.size < v.size := by
  cases v with
  | object members =>
    obtain ⟨m, hm, hf⟩ := List.mem_filterMap.mp h
    obtain ⟨g, -, hg⟩ := Option.map_eq_some_iff.mp hf
    cases hg
    exact Nat.lt_succ_of_le (size_le_sizeMembers hm)
  | array items => exact Nat.lt_succ_of_le (size_le_sizeAll (List.of_mem_zip h).2)
  | _ => cases h

theorem size_lt_of_mem_listAt {v x : Json} {f : Field} (h : x ∈ v.listAt f) : x.size < v.size := by
  unfold listAt at h
  split at h
  · rename_i items hf
    have hlist : (Json.array items).size < v.size := size_lt_of_mem_given (mem_of_lookup_eq_some hf)
    have hitem := size_le_sizeAll h
    rw [size] at hlist
    omega
  · cases h

end Json

/-! ## Declarations field by field -/

namespace Declaration

/-- What stands for a field: null where there is no word. -/
def value (d : Declaration) : Field → Json
  | .type => .text? d.type
  | .label => .text? d.label
  | .stack => .text? d.stack
  | .process => .text? d.process
  | .included => .array d.included
  | .excluded => .array d.excluded
  | .ordinal => .text? d.ordinal
  | .children => .array d.children
  | .groups => .array d.groups

theorem text?_inj {a b : Option String} (h : Json.text? a = Json.text? b) : a = b := by
  cases a <;> cases b <;> cases h <;> rfl

/-- A declaration is what stands for its fields. -/
theorem eq_of_value {d d' : Declaration} (h : ∀ f, d.value f = d'.value f) : d = d' := by
  cases d
  cases d'
  congr
  · exact text?_inj (h .type)
  · exact text?_inj (h .label)
  · exact text?_inj (h .stack)
  · exact text?_inj (h .process)
  · exact Json.array.inj (h .included)
  · exact Json.array.inj (h .excluded)
  · exact text?_inj (h .ordinal)
  · exact Json.array.inj (h .children)
  · exact Json.array.inj (h .groups)

/-- A field takes a value of its kind, and nothing else changes. -/
theorem set_of_admits (d : Declaration) {f : Field} {x : Json} (h : f.Admits x) :
    ∃ d', d.set x f = .ok d' ∧ ∀ g, d'.value g = if g = f then x else d.value g := by
  cases f with
  | included | excluded | children | groups =>
    obtain ⟨items, rfl⟩ := h
    exact ⟨_, rfl, fun g => by cases g <;> rfl⟩
  | type | label | stack | process | ordinal =>
    rcases h with rfl | ⟨s, rfl⟩
    · exact ⟨_, rfl, fun g => by cases g <;> rfl⟩
    · exact ⟨_, rfl, fun g => by cases g <;> rfl⟩

theorem admits_of_set {d d' : Declaration} {f : Field} {x : Json} (h : d.set x f = .ok d') : f.Admits x := by
  cases f with
  | included | excluded | children | groups =>
    cases x with
    | array items => exact ⟨items, rfl⟩
    | _ => cases h
  | type | label | stack | process | ordinal =>
    cases x with
    | null => exact Or.inl rfl
    | string s => exact Or.inr ⟨s, rfl⟩
    | _ => cases h

/-- The declaration with fields set one after the other. -/
def setAll (d : Declaration) : List (Field × Json) → Except ShapeError Declaration
  | [] => .ok d
  | (f, x) :: rest =>
    match d.set x f with
    | .error e => .error e
    | .ok d => d.setAll rest

theorem setAll_eq_ok_iff {d d' : Declaration} {l : List (Field × Json)} (hl : (l.map (·.1)).Nodup) :
    d.setAll l = .ok d' ↔ (∀ f x, (f, x) ∈ l → f.Admits x) ∧ ∀ g, d'.value g = (l.lookup g).getD (d.value g) := by
  induction l generalizing d with
  | nil =>
    constructor
    · rintro ⟨⟩
      exact ⟨fun f x hm => absurd hm List.not_mem_nil, fun g => rfl⟩
    · rintro ⟨-, hv⟩
      exact congrArg Except.ok (eq_of_value fun g => (hv g).symm)
  | cons p l ih =>
    obtain ⟨f, x⟩ := p
    obtain ⟨hf, hl⟩ := List.nodup_cons.mp hl
    rw [setAll]
    by_cases ha : f.Admits x
    · obtain ⟨d₁, hset, hv₁⟩ := d.set_of_admits ha
      have hlookup : ∀ g, (l.lookup g).getD (d₁.value g) = (List.lookup g ((f, x) :: l)).getD (d.value g) := by
        intro g
        rw [List.lookup_cons, hv₁ g]
        by_cases hg : g = f
        · -- the field is not set again
          subst hg
          simp [lookup_eq_none_iff_notMem.mpr hf]
        · rw [beq_false_of_ne hg, if_neg hg]
      simp only [hset]
      rw [ih hl]
      simp only [hlookup]
      refine and_congr_left fun _ => ⟨?_, fun h g y hm => h g y (List.mem_cons_of_mem _ hm)⟩
      intro h g y hm
      rcases List.mem_cons.mp hm with hm | hm
      · cases hm
        exact ha
      · exact h g y hm
    · constructor
      · intro h
        cases hset : d.set x f with
        | error e => rw [hset] at h; cases h
        | ok d₁ => exact absurd (admits_of_set hset) ha
      · rintro ⟨h, -⟩
        exact absurd (h f x (List.mem_cons_self ..)) ha

/-! ## Reading a declaration -/

theorem addItems_eq_setAll (d : Declaration) (fields : List Field) (items : List Json) :
    d.addItems fields items = d.setAll (fields.zip items) := by
  induction fields generalizing d items with
  | nil => cases items <;> rfl
  | cons f fields ih =>
    cases items with
    | nil => rfl
    | cons x rest =>
      rw [addItems, List.zip_cons_cons, setAll]
      cases d.set x f with
      | error e => rfl
      | ok d₁ => exact ih d₁ rest

/-- Members are set one after the other if they name known fields, none of them twice and
    none of those seen before. -/
theorem addMembers_eq_ok_iff {d d' : Declaration} {seen : List Field} {members : List (String × Json)} :
    d.addMembers seen members = .ok d' ↔
      (∀ m ∈ members, (Field.ofName? m.1).isSome) ∧ ((Json.object members).given.map (·.1)).Nodup ∧
        (∀ f ∈ (Json.object members).given.map (·.1), f ∉ seen) ∧ d.setAll (Json.object members).given = .ok d' := by
  induction members generalizing d seen with
  | nil => simp [addMembers, Json.given, setAll]
  | cons m members ih =>
    obtain ⟨name, x⟩ := m
    rw [addMembers]
    cases hf : Field.ofName? name with
    | none => simp [hf]
    | some f =>
      have hg : (Json.object ((name, x) :: members)).given = (f, x) :: (Json.object members).given := by
        simp [Json.given, hf]
      rw [hg, setAll]
      by_cases hs : f ∈ seen
      · simp [hs]
      · cases hset : d.set x f with
        | error e => simp [hs, hset]
        | ok d₁ =>
          simp only [hs, if_false, hset, ih]
          constructor
          · rintro ⟨hk, hn, hseen, hd⟩
            refine ⟨List.forall_mem_cons.mpr ⟨by simp [hf], hk⟩, List.nodup_cons.mpr ⟨?_, hn⟩,
              List.forall_mem_cons.mpr ⟨hs, ?_⟩, hd⟩
            · intro hm
              exact hseen f hm (List.mem_cons_self ..)
            · intro g hg hgs
              exact hseen g hg (List.mem_cons_of_mem _ hgs)
          · rintro ⟨hk, hn, hseen, hd⟩
            obtain ⟨hm, hn⟩ := List.nodup_cons.mp hn
            refine ⟨(List.forall_mem_cons.mp hk).2, hn, ?_, hd⟩
            intro g hmem hgs
            rcases List.mem_cons.mp hgs with rfl | hgs
            · exact hm hmem
            · exact hseen g (List.mem_cons_of_mem _ hmem) hgs

theorem declared_value {v : Json} (h : v.Shaped) (g : Field) :
    v.declared.value g = (v.field? g).getD (({} : Declaration).value g) := by
  have hadmits : ∀ x, v.field? g = some x → g.Admits x := by
    intro x hx
    exact h.typed g x (mem_of_lookup_eq_some hx)
  have hword : g.isList = false → Json.text? (v.wordAt? g) = (v.field? g).getD .null := by
    intro hg
    unfold Json.wordAt?
    cases hx : v.field? g with
    | none => rfl
    | some x =>
      have ha := hadmits x hx
      rw [Field.Admits, hg] at ha
      rcases ha with rfl | ⟨s, rfl⟩ <;> rfl
  have hlist : g.isList = true → Json.array (v.listAt g) = (v.field? g).getD (.array []) := by
    intro hg
    unfold Json.listAt
    cases hx : v.field? g with
    | none => rfl
    | some x =>
      have ha := hadmits x hx
      rw [Field.Admits, hg] at ha
      obtain ⟨items, rfl⟩ := ha
      rfl
  cases g with
  | included | excluded | children | groups => exact hlist rfl
  | type | label | stack | process | ordinal => exact hword rfl

theorem setAll_given_iff {v : Json} {d : Declaration} (hk : v.FieldsKnown) :
    ({} : Declaration).setAll v.given = .ok d ↔ v.Shaped ∧ d = v.declared := by
  rw [setAll_eq_ok_iff hk.nodup_given]
  constructor
  · rintro ⟨ht, hv⟩
    have hs : v.Shaped := ⟨hk, ht⟩
    exact ⟨hs, eq_of_value fun g => (hv g).trans (declared_value hs g).symm⟩
  · rintro ⟨hs, rfl⟩
    exact ⟨hs.typed, declared_value hs⟩

/-- The documents that a declaration can be read from, and what it then is. -/
theorem ofJson_eq_ok_iff {v : Json} {d : Declaration} : ofJson v = .ok d ↔ v.Shaped ∧ d = v.declared := by
  cases v with
  | object members =>
    rw [ofJson, addMembers_eq_ok_iff]
    constructor
    · rintro ⟨hk, hn, -, hd⟩
      have hknown : (Json.object members).FieldsKnown :=
        ⟨Json.looksLikeSpec_iff.mpr hk, (Json.nodup_given_iff hk).mp hn⟩
      exact (setAll_given_iff hknown).mp hd
    · intro h
      exact ⟨Json.looksLikeSpec_iff.mp h.1.known.1, h.1.known.nodup_given, fun f _ => List.not_mem_nil,
        (setAll_given_iff h.1.known).mpr h⟩
  | array items =>
    have hset : addItems {} Field.all items = ({} : Declaration).setAll (Json.array items).given :=
      addItems_eq_setAll {} Field.all items
    rw [ofJson, hset]
    by_cases hlen : items.length ≤ 9
    · have hknown : (Json.array items).FieldsKnown := hlen
      rw [← setAll_given_iff hknown]
      cases ({} : Declaration).setAll (Json.array items).given with
      | error e => rfl
      | ok d₁ =>
        have hnot : ¬ Field.all.length < items.length := Nat.not_lt.mpr hlen
        simp only [hnot, if_false]
    · constructor
      · intro h
        have hlong : Field.all.length < items.length := Nat.not_le.mp hlen
        cases hd : ({} : Declaration).setAll (Json.array items).given with
        | error e => rw [hd] at h; cases h
        | ok d₁ => rw [hd] at h; simp [hlong] at h
      · rintro ⟨hs, -⟩
        exact absurd hs.known hlen
  | null | bool | int | float | string =>
    constructor
    · intro h
      cases h
    · rintro ⟨hs, -⟩
      exact hs.known.elim

end Declaration

end Harvest
