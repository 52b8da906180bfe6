/-
  Harvest.Proofs.Absent — absent nodes.

  An absent node looks at no entry, whatever it carries: neither its filter nor its names
  nor the nodes below it have any part in a match. So it can be reduced to its type, or left
  out (`Spec.Omission`), in any number of places (`Spec.Omitted`).

  A child can be left out only where another child or a group stays, for a node with
  neither is a leaf and would put out what it chooses. A member can always be left out, since
  its group stays even when nothing is in it. Marks may change with the filters that go, and
  a node then takes in bulk what it looked at before one by one, which comes to the same
  (`absent_nodes_are_inert`).
-/

import Harvest.NamedList
import Harvest.Proofs.Marks
import Harvest.Proofs.Shapes
import Mathlib.Logic.Relation

namespace Harvest.Spec

open Event

/-! ## Absent nodes left out -/

inductive Omission : Spec → Spec → Prop
  /-- All that the node carries but its type. -/
  | bare {s : Spec} : s.isNil → Omission s nil
  | child {s c : Spec} {before after : List Spec} :
      s.children = before ++ c :: after → c.isNil → before ++ after ≠ [] ∨ s.groups ≠ [] →
        Omission s { s with children := before ++ after }
  | member {s c : Spec} {label : String} {before after : List Spec} {first last : List (Group Spec)} :
      s.groups = first ++ ⟨label, before ++ c :: after⟩ :: last → c.isNil →
        Omission s { s with groups := first ++ ⟨label, before ++ after⟩ :: last }

def OmittedOnce : Spec → Spec → Prop := Somewhere Omission

/-- The tree after any number of omissions in any places. -/
def Omitted : Spec → Spec → Prop := Relation.ReflTransGen OmittedOnce

/-- Where no node is made bare, one branch is gone and the node is no leaf for it. -/
theorem Omission.branches {s t : Spec} (h : Omission s t) :
    (s.isNil ∧ t.isNil) ∨ t.toRule = s.toRule ∧ t.isLeaf = s.isLeaf ∧
      ∃ before edge c after, c.isNil ∧ s.branches = before ++ (edge, c) :: after ∧
        t.branches = before ++ after := by
  cases h with
  | bare h => exact Or.inl ⟨h, rfl⟩
  | @child c before after hs hc hstays =>
    refine Or.inr ⟨rfl, ?_, before.map (none, ·), none, c,
      Spec.branches { s with children := after }, hc, ?_, ?_⟩
    · have hleaf : s.isLeaf = false := by simp [isLeaf, hs]
      rw [hleaf]
      rcases hstays with hstays | hstays <;> simp [isLeaf, hstays]
    · have hb := branches_children_append s before (c :: after)
      rwa [← hs] at hb
    · exact branches_children_append s before after
  | @member c label before after first last hs hc =>
    refine Or.inr ⟨rfl, isLeaf_of_members hs _, Spec.branches { s with groups := first ++ [⟨label, before⟩] },
      some label, c, Spec.branches { groups := ⟨label, after⟩ :: last }, hc, ?_, ?_⟩
    · have hb := branches_members_append s label before (c :: after) first last
      rwa [← hs] at hb
    · exact branches_members_append s label before after first last

/-! ## The same is shown -/

variable {V : Type} [Nesting V] {s t : Spec}

/-- Both nodes are absent, or they choose the same and the nodes below them show the same. -/
def SameShown (V : Type) [Nesting V] (s t : Spec) : Prop :=
  (s.isNil ∧ t.isNil) ∨ t.toRule = s.toRule ∧ t.isLeaf = s.isLeaf ∧
    ∀ label path (entries : List (Entry V)),
      shownOf (descend label path entries s) = shownOf (descend label path entries t)

theorem SameShown.visit (h : SameShown V s t) (label : Option String) (path : List Hop) (entries : List (Entry V)) :
    shownOf (visit label path entries s) = shownOf (visit label path entries t) := by
  rcases h with ⟨hs, ht⟩ | ⟨hrule, hleaf, hbelow⟩
  · rw [visit_of_isNil hs, visit_of_isNil ht]
  · refine visit_shown (alike_of_rule hrule hleaf label) (fun path inside => ?_) path entries
    rw [hrule]
    exact hbelow _ path inside

theorem SameShown.trace (h : SameShown V s t) (v : V) : shownOf (s.trace v) = shownOf (t.trace v) := by
  rcases h with ⟨hs, ht⟩ | ⟨hrule, hleaf, hbelow⟩
  · rw [trace_of_isNil hs, trace_of_isNil ht]
  · refine trace_shown (alike_of_rule hrule hleaf none) (fun path inside => ?_) v
    rw [hrule]
    exact hbelow _ path inside

theorem OmittedOnce.sameShown (h : s.OmittedOnce t) : SameShown V s t := by
  induction h using Somewhere.induction_branches with
  | here h =>
    rcases h.branches with hnil | ⟨hrule, hleaf, before, edge, c, after, hc, hs, ht⟩
    · exact Or.inl hnil
    · -- the branch that is gone did nothing
      refine Or.inr ⟨hrule, hleaf, ?_⟩
      intro label path entries
      rw [descend, descend, hs, ht, List.flatMap_append, List.flatMap_append, List.flatMap_cons,
        visit_of_isNil hc, List.nil_append]
  | below _ _ hrule hs ht ih =>
    refine Or.inr ⟨hrule, isLeaf_eq_of_branches hs ht, ?_⟩
    intro label path entries
    simp only [descend, hs, ht, List.flatMap_append, List.flatMap_cons, shownOf_append, ih.visit]

theorem trace_omitted_shown (h : s.Omitted t) (v : V) : shownOf (s.trace v) = shownOf (t.trace v) := by
  induction h with
  | refl => rfl
  | tail _ h ih => exact ih.trans (h.sameShown.trace v)

/-- Absent nodes of a fresh tree can be reduced to their type, and left out where a child or a
    group stays beside them: once its marks are set, a match of the tree shows the same records
    and mismatches as before, and one that may not skip ends as it did. A tree whose root
    is absent gives nothing and misses nothing, of scalars no less than of containers. -/
theorem absent_nodes_are_inert (s : Spec) :
    (s.Fresh → ∀ t, s.Omitted t → ∀ v : V,
      (∃ y z, s.gatherLenient v = .ok y ∧ t.refresh.gatherLenient v = .ok z ∧ y.shown = z.shown) ∧
        shownStrict (s.gatherStrict v) = shownStrict (t.refresh.gatherStrict v)) ∧
      (s.isNil → ∀ v : V, s.gatherLenient v = .ok ⟨[], []⟩ ∧ s.gatherStrict v = .ok []) := by
  constructor
  · intro hs t h v
    have ht : t.refresh.Fresh := fresh_refresh t
    have htrace := (trace_omitted_shown h v).trans (trace_refresh_shown t v)
    exact ⟨gatherLenient_shown (hs.findSome?_stale? v) (ht.findSome?_stale? v) htrace,
      gatherStrict_shown (hs.gatherStrict_ne_stale v) (ht.gatherStrict_ne_stale v) htrace⟩
  · intro hs v
    rw [gatherLenient_eq, gatherStrict_eq, trace_of_isNil hs]
    exact ⟨rfl, rfl⟩

/-- An absent node with a filter, names and a child stands below a child, at the root and in a
    group. It is left out of the first and the last, and made bare at the root. Once it is
    gone the root has no filter below it, so its mark is another. -/
theorem absent_nodes_are_inert_in_three_places :
    let leaf : Spec := { label := some "x" }
    let hidden : Spec :=
      { type := .nil, label := some "n", ordinal := some "i", filter := ({} : Filter).excludeKey (.name "a"),
        children := [leaf] }
    let inner : Spec := { children := [hidden, leaf] }
    let spec : Spec := refresh { children := [inner, hidden], groups := [⟨"g", [hidden]⟩] }
    let cleared : Spec :=
      { spec with children := [{ spec.children[0] with children := [leaf] }, nil], groups := [⟨"g", []⟩] }
    let v : NamedList := .list [(some "a", .list [(none, .leaf .null)]), (none, .leaf .null)]
    spec.Fresh ∧ spec.Omitted cleared ∧ spec.terminal = false ∧ cleared.refresh.terminal = true ∧
      (∃ y z, spec.gatherLenient v = .ok y ∧ cleared.refresh.gatherLenient v = .ok z ∧ y.shown = z.shown ∧
        z.records.map (·.specName) = [some "x"] ∧ z.mismatches.map (·.path) = [[⟨1, none⟩]]) ∧
      shownStrict (spec.gatherStrict v) = shownStrict (cleared.refresh.gatherStrict v) ∧
      hidden.gatherStrict (.leaf .null : NamedList) = .ok [] := by
  intro leaf hidden inner spec cleared v
  have hs : spec.Fresh := fresh_refresh _
  have hinner : spec.OmittedOnce
      { spec with children := [{ spec.children[0] with children := [leaf] }, spec.children[1]] } :=
    @Somewhere.child _ _ _ _ [] _ rfl (.here (@Omission.child _ _ [] _ rfl rfl (Or.inl (by simp))))
  have hbare : OmittedOnce
      { spec with children := [{ spec.children[0] with children := [leaf] }, spec.children[1]] }
      { spec with children := [{ spec.children[0] with children := [leaf] }, nil] } :=
    @Somewhere.child _ _ _ _ [_] _ rfl (.here (.bare rfl))
  have hmember : OmittedOnce { spec with children := [{ spec.children[0] with children := [leaf] }, nil] } cleared :=
    .here (@Omission.member _ _ _ [] _ [] _ rfl rfl)
  have h : spec.Omitted cleared := ((Relation.ReflTransGen.single hinner).tail hbare).tail hmember
  obtain ⟨⟨y, z, hy, hz, hshown⟩, hstrict⟩ := (absent_nodes_are_inert spec (V := NamedList)).1 hs cleared h v
  have hlz : (cleared.refresh.gatherLenient v).toOption.map
      (fun z => (z.records.map (·.specName), z.mismatches.map (·.path))) = some (_, _) := rfl
  rw [hz] at hlz
  obtain ⟨hrecords, hmismatches⟩ := Prod.mk.inj (Option.some.inj hlz)
  exact ⟨hs, h, by decide +kernel, by decide +kernel, ⟨y, z, hy, hz, hshown, hrecords, hmismatches⟩, hstrict,
    ((absent_nodes_are_inert hidden (V := NamedList)).2 rfl (.leaf .null)).2⟩

end Harvest.Spec
