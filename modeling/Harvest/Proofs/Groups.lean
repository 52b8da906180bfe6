/-
  Harvest.Proofs.Groups — groups as labelled children.

  A group does no more than give its members a label to fall back on: its members could
  as well stand among the children, each under its own label or else that of the group
  (`dissolve`). The label comes down to a member either way, once from the edge and once
  from the member itself. The marks do differ, since groups do not count for the mark
  above them and children do, but marks have no part in what a fresh tree gives.

  A node whose groups are all empty would become a leaf by this, so there must be none
  (`GroupsFilled`). All other trees give the same with their groups dissolved
  (`groups_are_labelled_children`).
-/

import Harvest.Proofs.Marks

namespace Harvest.Spec

open Event

/-! ## Groups dissolved -/

/-- The node with a label to fall back on. -/
def orLabel (s : Spec) (label : Option String) : Spec := { s with label := s.label.or label }

mutual

/-- The tree without groups: the members come after the children, group by group. -/
def dissolve : Spec → Spec
  | ⟨rule, children, groups⟩ => ⟨rule, dissolveAll children ++ dissolveGroups groups, []⟩

def dissolveAll : List Spec → List Spec
  | [] => []
  | s :: rest => dissolve s :: dissolveAll rest

def dissolveGroups : List (Group Spec) → List Spec
  | [] => []
  | ⟨label, members⟩ :: rest => (dissolveAll members).map (orLabel · (some label)) ++ dissolveGroups rest

end

/-- The tree without groups and with its marks set. -/
def ungrouped (s : Spec) : Spec := s.dissolve.refresh

theorem orLabel_none (s : Spec) : s.orLabel none = s := by
  obtain ⟨⟨_, label, _, _, _, _, _⟩, _, _⟩ := s
  simp [orLabel]

theorem dissolveAll_eq_map (l : List Spec) : dissolveAll l = l.map dissolve := by
  induction l with
  | nil => rfl
  | cons s l ih => rw [dissolveAll, ih, List.map_cons]

theorem dissolveGroups_eq_flatMap (l : List (Group Spec)) :
    dissolveGroups l = l.flatMap fun g => g.members.map fun c => c.dissolve.orLabel (some g.label) := by
  induction l with
  | nil => rfl
  | cons g l ih => rw [dissolveGroups, ih, List.flatMap_cons, dissolveAll_eq_map, List.map_map]; rfl

theorem dissolve_eq (s : Spec) :
    s.dissolve = { s with children := s.branches.map fun b => b.2.dissolve.orLabel b.1, groups := [] } := by
  obtain ⟨rule, children, groups⟩ := s
  rw [dissolve, dissolveAll_eq_map, dissolveGroups_eq_flatMap]
  simp [branches, List.map_flatMap, Function.comp_def, orLabel_none]

theorem branches_dissolve (s : Spec) :
    s.dissolve.branches = s.branches.map fun b => (none, b.2.dissolve.orLabel b.1) := by
  rw [dissolve_eq]
  show (s.branches.map fun b => b.2.dissolve.orLabel b.1).map (none, ·) ++ [] = _
  rw [List.append_nil, List.map_map]
  rfl

/-! ## Groups with something in them -/

/-- Every node of the tree that has groups has a child or a member of a group. -/
def GroupsFilled (s : Spec) : Prop :=
  ∀ t, s.Holds t → t.groups ≠ [] → t.children ≠ [] ∨ ∃ g ∈ t.groups, g.members ≠ []

theorem GroupsFilled.of_branch {s c : Spec} {edge : Option String} (h : s.GroupsFilled) (hc : (edge, c) ∈ s.branches) :
    c.GroupsFilled := by
  intro t ht
  exact h t (.branch hc ht)

theorem groupsFilled_of_branches {s : Spec} (hs : s.groups ≠ [] → s.children ≠ [] ∨ ∃ g ∈ s.groups, g.members ≠ [])
    (h : ∀ b ∈ s.branches, b.2.GroupsFilled) : s.GroupsFilled := by
  intro t ht
  cases ht with
  | root => exact hs
  | branch hc ht => exact h _ hc t ht

theorem groupsFilled_of_isLeaf {s : Spec} (h : s.isLeaf) : s.GroupsFilled := by
  apply groupsFilled_of_branches
  · intro hg
    simp only [isLeaf, Bool.and_eq_true, List.isEmpty_iff] at h
    exact absurd h.2 hg
  · intro b hb
    rw [branches_eq_nil_of_isLeaf h] at hb
    cases hb

/-- With something in the groups the node is not made a leaf. -/
theorem GroupsFilled.isLeaf_dissolve {s : Spec} (h : s.GroupsFilled) : s.dissolve.isLeaf = s.isLeaf := by
  have hb : s.branches.isEmpty = s.isLeaf := by
    cases hl : s.isLeaf with
    | true => rw [branches_eq_nil_of_isLeaf hl]; rfl
    | false =>
      rw [List.isEmpty_eq_false_iff]
      intro hn
      simp only [branches, List.append_eq_nil_iff, List.map_eq_nil_iff, List.flatMap_eq_nil_iff] at hn
      obtain ⟨hc, hm⟩ := hn
      have hg : s.groups ≠ [] := by
        intro hg
        simp [isLeaf, hc, hg] at hl
      rcases h s (.root s) hg with hc' | ⟨g, hgm, hne⟩
      · exact hc' hc
      · exact hne (hm g hgm)
  rw [← hb, dissolve_eq]
  simp [isLeaf]

/-! ## The same is shown -/

theorem alike_dissolve {s : Spec} (h : s.GroupsFilled) (edge label : Option String) :
    Alike s (edge.or label) (s.dissolve.orLabel edge) (none.or label) where
  isNil := by rw [dissolve_eq]; rfl
  isLeaf := h.isLeaf_dissolve.symm
  filter := by rw [dissolve_eq]; rfl
  ordinal := by rw [dissolve_eq]; rfl
  stack := by rw [dissolve_eq]; rfl
  process := by rw [dissolve_eq]; rfl
  label := by rw [dissolve_eq]; exact (Option.or_assoc ..).symm

variable {V : Type} [Nesting V]

theorem descend_dissolve_shown {s : Spec} (h : s.GroupsFilled) (label : Option String) (path : List Hop)
    (entries : List (Entry V)) :
    shownOf (descend label path entries s) = shownOf (descend label path entries s.dissolve) := by
  induction s using induction_branches generalizing label path entries with
  | step s ih =>
    rw [descend, descend, branches_dissolve, List.flatMap_map, shownOf_flatMap, shownOf_flatMap]
    apply List.flatMap_congr
    intro b hb
    have ha := alike_dissolve (h.of_branch hb) b.1 label
    refine visit_shown ha ?_ path entries
    intro path inside
    rw [← ha.label]
    exact ih b.1 b.2 hb (h.of_branch hb) _ path inside

theorem trace_dissolve_shown {s : Spec} (h : s.GroupsFilled) (v : V) :
    shownOf (s.trace v) = shownOf (s.dissolve.trace v) := by
  have ha : Alike s none s.dissolve none := orLabel_none s.dissolve ▸ alike_dissolve h none none
  refine trace_shown ha ?_ v
  intro path inside
  have hl : s.dissolve.label = s.label := by rw [dissolve_eq]
  rw [hl]
  exact descend_dissolve_shown h s.label path inside

/-- A fresh tree without a node whose groups are all empty gives with its groups dissolved
    what it gives with them, in either mode: the same records and the same mismatches, as
    far as these show. -/
theorem groups_are_labelled_children {s : Spec} (hs : s.Fresh) (hg : s.GroupsFilled) (v : V) :
    (∃ y z, s.gatherLenient v = .ok y ∧ s.ungrouped.gatherLenient v = .ok z ∧ y.shown = z.shown) ∧
      shownStrict (s.gatherStrict v) = shownStrict (s.ungrouped.gatherStrict v) := by
  have hu : s.ungrouped.Fresh := fresh_refresh _
  have ht : shownOf (s.trace v) = shownOf (s.ungrouped.trace v) :=
    (trace_dissolve_shown hg v).trans (trace_refresh_shown s.dissolve v)
  exact ⟨gatherLenient_shown (hs.findSome?_stale? v) (hu.findSome?_stale? v) ht,
    gatherStrict_shown (hs.gatherStrict_ne_stale v) (hu.gatherStrict_ne_stale v) ht⟩

/-- One member falls back on the label of its group, the other has its own, and the scalar
    in the second entry is no container for the inner child. -/
theorem groups_are_labelled_children_under_two_labels :
    let leaf : Spec := {}
    let own : Spec := { label := some "x" }
    let spec : Spec := refresh { children := [{ groups := [⟨"h", [leaf]⟩] }], groups := [⟨"g", [leaf, own]⟩] }
    let v : NamedList := .list [(none, .list [(none, .leaf .null)]), (some "a", .leaf .null)]
    spec.Fresh ∧ spec.GroupsFilled ∧
      (∃ y z, spec.gatherLenient v = .ok y ∧ spec.ungrouped.gatherLenient v = .ok z ∧ y.shown = z.shown ∧
        z.records.map (·.specName) = [some "h", some "g", some "g", some "x", some "x"] ∧
        z.mismatches.map (·.path) = [[⟨1, some "a"⟩]]) ∧
      shownStrict (spec.gatherStrict v) = shownStrict (spec.ungrouped.gatherStrict v) := by
  intro leaf own spec v
  have hs : spec.Fresh := fresh_refresh _
  have hin : GroupsFilled (refresh { groups := [⟨"h", [leaf]⟩] }) :=
    groupsFilled_of_branches (fun _ => Or.inr ⟨_, List.mem_singleton_self _, by decide⟩) <|
      List.forall_mem_singleton.mpr (groupsFilled_of_isLeaf rfl)
  have hg : spec.GroupsFilled :=
    groupsFilled_of_branches (fun _ => Or.inl (by decide)) <|
      List.forall_mem_cons.mpr ⟨hin, List.forall_mem_cons.mpr ⟨groupsFilled_of_isLeaf rfl,
        List.forall_mem_singleton.mpr (groupsFilled_of_isLeaf rfl)⟩⟩
  obtain ⟨⟨y, z, hy, hz, hyz⟩, hst⟩ := groups_are_labelled_children hs hg v
  have hl : (spec.ungrouped.gatherLenient v).toOption.map
      (fun z => (z.records.map (·.specName), z.mismatches.map (·.path))) = some (_, _) := rfl
  rw [hz] at hl
  obtain ⟨hr, hm⟩ := Prod.mk.inj (Option.some.inj hl)
  exact ⟨hs, hg, ⟨y, z, hy, hz, hyz, hr, hm⟩, hst⟩

end Harvest.Spec
