/-
  Harvest.Proofs.Branches — the nodes directly below a node, and fresh trees.

  Below a node stand its children and then the members of its groups, each member with
  the label of its group. What passes from the nodes below to the node holds of every
  tree (`induction_branches`). The nodes of a tree are its root and those below it
  (`Holds`); a change of the nodes directly below a node is `mapBelow`.

  A tree is fresh when its marks are those that `refresh` sets, node by node (`fresh_iff`).
  A mark that denies a filter is then nowhere in it (`Fresh.isStale_eq_false`,
  `Fresh.of_branch`).
-/

import Harvest.Spec.Basic

namespace Harvest.Spec

def branches (s : Spec) : List (Option String × Spec) :=
  s.children.map (none, ·) ++ s.groups.flatMap fun g => g.members.map (some g.label, ·)

theorem mem_branches {s c : Spec} {edge : Option String} :
    (edge, c) ∈ s.branches ↔ (edge = none ∧ c ∈ s.children) ∨ ∃ g ∈ s.groups, edge = some g.label ∧ c ∈ g.members := by
  simp only [branches, List.mem_append, List.mem_map, List.mem_flatMap, Prod.mk.injEq]
  constructor
  · rintro (⟨d, hd, rfl, rfl⟩ | ⟨g, hg, d, hd, rfl, rfl⟩)
    · exact Or.inl ⟨rfl, hd⟩
    · exact Or.inr ⟨g, hg, rfl, hd⟩
  · rintro (⟨rfl, hc⟩ | ⟨g, hg, rfl, hc⟩)
    · exact Or.inl ⟨c, hc, rfl, rfl⟩
    · exact Or.inr ⟨g, hg, c, hc, rfl, rfl⟩

theorem branches_eq_nil_of_isLeaf {s : Spec} (h : s.isLeaf) : s.branches = [] := by
  simp only [isLeaf, Bool.and_eq_true, List.isEmpty_iff] at h
  simp [branches, h.1, h.2]

theorem isLeaf_eq_false_of_mem_branches {s c : Spec} {edge : Option String} (h : (edge, c) ∈ s.branches) :
    s.isLeaf = false := by
  cases hl : s.isLeaf with
  | true =>
    rw [branches_eq_nil_of_isLeaf hl] at h
    cases h
  | false => rfl

/-- Neither of two nodes that have a branch is a leaf. -/
theorem isLeaf_eq_of_branches {s t c d : Spec} {edge edge' : Option String}
    {before after before' after' : List (Option String × Spec)} (hs : s.branches = before ++ (edge, c) :: after)
    (ht : t.branches = before' ++ (edge', d) :: after') : t.isLeaf = s.isLeaf := by
  have hsleaf : s.isLeaf = false := isLeaf_eq_false_of_mem_branches (hs ▸ List.mem_append_cons_self)
  have htleaf : t.isLeaf = false := isLeaf_eq_false_of_mem_branches (ht ▸ List.mem_append_cons_self)
  rw [hsleaf, htleaf]

theorem sizeOf_lt_of_mem_branches {s c : Spec} {edge : Option String} (h : (edge, c) ∈ s.branches) :
    sizeOf c < sizeOf s := by
  obtain ⟨rule, children, groups⟩ := s
  rcases mem_branches.mp h with ⟨-, hc⟩ | ⟨g, hg, -, hc⟩
  · have : sizeOf c < sizeOf children := List.sizeOf_lt_of_mem hc
    simp only [Spec.mk.sizeOf_spec]; omega
  · have hg : sizeOf g < sizeOf groups := List.sizeOf_lt_of_mem hg
    have hc := List.sizeOf_lt_of_mem hc
    obtain ⟨label, members⟩ := g
    simp only [Group.mk.sizeOf_spec] at hg hc
    simp only [Spec.mk.sizeOf_spec]; omega

@[elab_as_elim]
theorem induction_branches {motive : Spec → Prop}
    (step : ∀ s, (∀ edge c, (edge, c) ∈ s.branches → motive c) → motive s) (s : Spec) : motive s :=
  step s fun _ c h =>
    have := sizeOf_lt_of_mem_branches h
    induction_branches step c
termination_by sizeOf s

/-! ## The nodes of a tree -/

/-- The nodes of a tree. -/
inductive Holds : Spec → Spec → Prop
  | root (s : Spec) : Holds s s
  | branch {s c t : Spec} {edge : Option String} : (edge, c) ∈ s.branches → Holds c t → Holds s t

/-- What holds of every node of a tree holds of the node at its root and of those below. -/
theorem forall_holds_iff {P : Spec → Prop} {s : Spec} :
    (∀ t, s.Holds t → P t) ↔ P s ∧ ∀ edge c, (edge, c) ∈ s.branches → ∀ t, c.Holds t → P t := by
  constructor
  · intro h
    exact ⟨h s (.root s), fun edge c hc t ht => h t (.branch hc ht)⟩
  · rintro ⟨hs, h⟩ t ht
    cases ht with
    | root => exact hs
    | branch hc ht => exact h _ _ hc t ht

/-! ## What is below changed -/

/-- The node with each node directly below it changed. -/
def mapBelow (f : Spec → Spec) (s : Spec) : Spec :=
  { s with children := s.children.map f, groups := s.groups.map fun g => ⟨g.label, g.members.map f⟩ }

theorem branches_mapBelow (f : Spec → Spec) (s : Spec) :
    (s.mapBelow f).branches = s.branches.map fun (edge, c) => (edge, f c) := by
  simp [branches, mapBelow, List.map_flatMap, List.flatMap_map, Function.comp_def]

theorem mapBelow_mapBelow (f g : Spec → Spec) (s : Spec) : (s.mapBelow f).mapBelow g = s.mapBelow fun c => g (f c) := by
  simp [mapBelow, Function.comp_def]

theorem mapBelow_id (s : Spec) : s.mapBelow id = s := by
  obtain ⟨rule, children, groups⟩ := s
  simp [mapBelow]

theorem mapBelow_congr {f g : Spec → Spec} {s : Spec} (h : ∀ edge c, (edge, c) ∈ s.branches → f c = g c) :
    s.mapBelow f = s.mapBelow g := by
  have hc : s.children.map f = s.children.map g := by
    apply List.map_congr_left
    intro c hc
    exact h none c (mem_branches.mpr (Or.inl ⟨rfl, hc⟩))
  have hg : (s.groups.map fun g => (⟨g.label, g.members.map f⟩ : Group Spec)) =
      s.groups.map fun g' => ⟨g'.label, g'.members.map g⟩ := by
    apply List.map_congr_left
    intro g' hg
    refine congrArg (Group.mk g'.label) (List.map_congr_left ?_)
    intro c hc
    exact h (some g'.label) c (mem_branches.mpr (Or.inr ⟨g', hg, rfl, hc⟩))
  rw [mapBelow, mapBelow, hc, hg]

/-! ## Refreshing -/

theorem refresh_eq (s : Spec) : s.refresh = (s.mapBelow refresh).refreshRoot := by
  obtain ⟨rule, children, groups⟩ := s
  rw [refresh, refreshAll_eq_map, refreshGroups_eq_map]
  rfl

@[simp] theorem refresh_type (s : Spec) : s.refresh.type = s.type := by rw [refresh_eq]; rfl
@[simp] theorem refresh_label (s : Spec) : s.refresh.label = s.label := by rw [refresh_eq]; rfl
@[simp] theorem refresh_stack (s : Spec) : s.refresh.stack = s.stack := by rw [refresh_eq]; rfl
@[simp] theorem refresh_process (s : Spec) : s.refresh.process = s.process := by rw [refresh_eq]; rfl
@[simp] theorem refresh_filter (s : Spec) : s.refresh.filter = s.filter := by rw [refresh_eq]; rfl
@[simp] theorem refresh_ordinal (s : Spec) : s.refresh.ordinal = s.ordinal := by rw [refresh_eq]; rfl
@[simp] theorem refresh_isNil (s : Spec) : s.refresh.isNil = s.isNil := by simp [Rule.isNil]

@[simp] theorem refresh_children (s : Spec) : s.refresh.children = s.children.map refresh := by rw [refresh_eq]; rfl

@[simp] theorem refresh_groups (s : Spec) :
    s.refresh.groups = s.groups.map fun g => ⟨g.label, g.members.map refresh⟩ := by rw [refresh_eq]; rfl

theorem refresh_terminal (s : Spec) :
    s.refresh.terminal = (s.filter.isEmpty && s.children.all (·.refresh.terminal)) := by
  rw [refresh_eq]; simp [refreshRoot, mapBelow, List.all_map, Function.comp_def]

@[simp] theorem refresh_isLeaf (s : Spec) : s.refresh.isLeaf = s.isLeaf := by simp [isLeaf]

theorem branches_refresh (s : Spec) : s.refresh.branches = s.branches.map fun (edge, c) => (edge, c.refresh) := by
  rw [refresh_eq]
  exact branches_mapBelow refresh s

theorem isStale_refresh (s : Spec) : s.refresh.isStale = false := by
  rw [Rule.isStale, refresh_terminal, refresh_filter]
  cases s.filter.isEmpty <;> simp

/-- The nodes of a refreshed tree are those of the tree, refreshed. -/
theorem holds_refresh_iff {s t : Spec} : s.refresh.Holds t ↔ ∃ u, s.Holds u ∧ u.refresh = t := by
  constructor
  · intro h
    generalize hr : s.refresh = r at h
    induction h generalizing s with
    | root => exact ⟨s, .root s, hr⟩
    | branch hc _ ih =>
      subst hr
      rw [branches_refresh] at hc
      obtain ⟨b, hb, hbc⟩ := List.mem_map.mp hc
      obtain ⟨-, rfl⟩ := Prod.mk.inj hbc
      obtain ⟨u, hu, hut⟩ := ih rfl
      exact ⟨u, .branch hb hu, hut⟩
  · rintro ⟨u, hu, rfl⟩
    induction hu with
    | root => exact .root _
    | @branch s c _ edge hc _ ih =>
      have hr : (edge, c.refresh) ∈ s.refresh.branches := by
        rw [branches_refresh]
        exact List.mem_map.mpr ⟨_, hc, rfl⟩
      exact .branch hr ih

theorem refresh_refresh (s : Spec) : s.refresh.refresh = s.refresh := by
  induction s using induction_branches with
  | step s ih =>
    rw [refresh_eq s.refresh, refresh_eq s]
    show ((s.mapBelow refresh).mapBelow refresh).refreshRoot = (s.mapBelow refresh).refreshRoot
    rw [mapBelow_mapBelow, mapBelow_congr ih]

/-! ## Marks forgotten -/

mutual

/-- The tree as it is built: with every mark as a node without content has it. -/
def unmarked : Spec → Spec
  | ⟨rule, children, groups⟩ => ⟨{ rule with terminal := true }, unmarkedAll children, unmarkedGroups groups⟩

def unmarkedAll : List Spec → List Spec
  | [] => []
  | s :: rest => unmarked s :: unmarkedAll rest

def unmarkedGroups : List (Group Spec) → List (Group Spec)
  | [] => []
  | ⟨label, members⟩ :: rest => ⟨label, unmarkedAll members⟩ :: unmarkedGroups rest

end

theorem unmarkedAll_eq_map (l : List Spec) : unmarkedAll l = l.map unmarked := by
  induction l with
  | nil => rfl
  | cons s l ih => rw [unmarkedAll, ih, List.map_cons]

theorem unmarkedGroups_eq_map (l : List (Group Spec)) :
    unmarkedGroups l = l.map fun g => ⟨g.label, g.members.map unmarked⟩ := by
  induction l with
  | nil => rfl
  | cons g l ih => rw [unmarkedGroups, ih, List.map_cons, unmarkedAll_eq_map]

theorem unmarked_eq (s : Spec) : s.unmarked = { s.mapBelow unmarked with terminal := true } := by
  obtain ⟨rule, children, groups⟩ := s
  rw [unmarked, unmarkedAll_eq_map, unmarkedGroups_eq_map]
  rfl

/-- Marks have no part in what refreshing gives. -/
theorem refresh_unmarked (s : Spec) : s.unmarked.refresh = s.refresh := by
  induction s using induction_branches with
  | step s ih =>
    rw [refresh_eq s.unmarked, refresh_eq s, unmarked_eq]
    show ((s.mapBelow unmarked).mapBelow refresh).refreshRoot = (s.mapBelow refresh).refreshRoot
    rw [mapBelow_mapBelow, mapBelow_congr ih]

/-! ## Fresh trees -/

def Fresh (s : Spec) : Prop := s.refresh = s

instance (s : Spec) : Decidable s.Fresh := inferInstanceAs (Decidable (s.refresh = s))

theorem fresh_refresh (s : Spec) : s.refresh.Fresh := refresh_refresh s

theorem Fresh.isStale_eq_false {s : Spec} (h : s.Fresh) : s.isStale = false := h ▸ isStale_refresh s

theorem Fresh.of_branch {s : Spec} (h : s.Fresh) {edge : Option String} {c : Spec} (hc : (edge, c) ∈ s.branches) :
    c.Fresh := by
  have hs : s.branches = s.branches.map fun (edge, c) => (edge, c.refresh) := by rw [← branches_refresh, h]
  rw [hs] at hc
  obtain ⟨⟨_, d⟩, -, hd⟩ := List.mem_map.mp hc
  obtain ⟨-, rfl⟩ := Prod.mk.inj hd
  exact fresh_refresh d

theorem Fresh.of_holds {s t : Spec} (h : s.Fresh) (ht : s.Holds t) : t.Fresh := by
  induction ht with
  | root => exact h
  | branch hc _ ih => exact ih (h.of_branch hc)

theorem refreshRoot_eq_self {s : Spec} (h : s.terminal = s.refreshRoot.terminal) : s.refreshRoot = s := by
  obtain ⟨rule, children, groups⟩ := s
  exact congrArg (fun mark => Spec.mk { rule with terminal := mark } children groups) h.symm

/-- A tree is fresh if refreshing leaves the mark of each of its nodes. -/
theorem fresh_iff {s : Spec} : s.Fresh ↔ ∀ t, s.Holds t → t.terminal = t.refresh.terminal := by
  constructor
  · intro h t ht
    rw [h.of_holds ht]
  · intro h
    induction s using induction_branches with
    | step s ih =>
      obtain ⟨hs, hbelow⟩ := forall_holds_iff.mp h
      have hm : s.mapBelow refresh = s := by
        rw [mapBelow_congr (g := id) fun edge c hc => ih edge c hc (hbelow edge c hc), mapBelow_id]
      rw [refresh_eq, hm] at hs
      rw [Fresh, refresh_eq, hm]
      exact refreshRoot_eq_self hs

end Harvest.Spec
