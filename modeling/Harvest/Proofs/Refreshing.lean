/-
  Harvest.Proofs.Refreshing — what refreshing sets, and how little of it an edit needs.

  A node counts for the marks of its parent, of the parent's parent and so on, as long as
  the way up leads from child to parent; a group ends it. So after refreshing a node is
  marked terminal if and only if no filter with a key stands at the node or below it along
  children alone (`Fresh.terminal_iff`). Nothing but the marks is changed, and the marks
  that were there have no part in the outcome (`refreshing_sets_the_marks`).

  A node in a tree is found by its place, the steps that lead down to it. When the node in
  a place of a fresh tree is replaced, only the marks on the way up from it can be wrong:
  setting these again, one after the other from the place to the root, refreshes the whole
  tree (`refreshing_upwards_is_enough`). On the way up nothing changes any more above a
  step into a group (`refresh_terminal_modifyAt`).
-/

import Harvest.Proofs.Keys
import Harvest.Proofs.Shapes
import Mathlib.Data.List.Infix

namespace Harvest

theorem Filter.isEmpty_iff {f : Filter} : f.isEmpty ↔ ∀ key, key ∉ f.included ∧ key ∉ f.excluded := by
  rw [isEmpty, Bool.and_eq_true, Keys.isEmpty_iff, Keys.isEmpty_iff, forall_and]

/-- The rules differ at most in their marks. -/
def Rule.SameButMark (r r' : Rule) : Prop := r' = { r with terminal := r'.terminal }

theorem Rule.SameButMark.refl (r : Rule) : r.SameButMark r := rfl

namespace Spec

/-! ## The marks of a fresh tree -/

/-- Nodes that are reached from a node through children alone. -/
inductive Descends : Spec → Spec → Prop
  | here (s : Spec) : Descends s s
  | child {s c t : Spec} : c ∈ s.children → Descends c t → Descends s t

/-- Below fresh nodes only the mark of the node itself is to be set. -/
theorem refresh_eq_refreshRoot {s : Spec} (h : ∀ edge c, (edge, c) ∈ s.branches → c.Fresh) :
    s.refresh = s.refreshRoot := by
  rw [refresh_eq, mapBelow_congr (g := id) h, mapBelow_id]

theorem Fresh.terminal_eq {s : Spec} (h : s.Fresh) :
    s.terminal = (s.filter.isEmpty && s.children.all (·.terminal)) := by
  have hroot : s.refreshRoot = s := by
    rw [← refresh_eq_refreshRoot fun _ _ => h.of_branch]
    exact h
  exact (congrArg (·.terminal) hroot).symm

/-- A node is fresh if those directly below it are and its own mark is right. -/
theorem fresh_iff_branches {s : Spec} :
    s.Fresh ↔ (s.terminal = (s.filter.isEmpty && s.branches.all fun b => b.1.isSome || b.2.terminal)) ∧
      ∀ edge c, (edge, c) ∈ s.branches → c.Fresh := by
  have hall : (s.branches.all fun b => b.1.isSome || b.2.terminal) = s.children.all (·.terminal) := by
    simp [branches, Function.comp_def]
  rw [hall]
  constructor
  · intro h
    exact ⟨h.terminal_eq, fun _ _ => h.of_branch⟩
  · rintro ⟨hmark, hbelow⟩
    rw [Fresh, refresh_eq_refreshRoot hbelow]
    exact refreshRoot_eq_self hmark

theorem Fresh.terminal_iff {s : Spec} (h : s.Fresh) : s.terminal ↔ ∀ t, s.Descends t → t.filter.isEmpty := by
  induction s using induction_branches with
  | step s ih =>
    have hchild : ∀ c ∈ s.children, (c.terminal ↔ ∀ t, c.Descends t → t.filter.isEmpty) := by
      intro c hc
      have hb : (none, c) ∈ s.branches := mem_branches.mpr (Or.inl ⟨rfl, hc⟩)
      exact ih none c hb (h.of_branch hb)
    rw [h.terminal_eq, Bool.and_eq_true, List.all_eq_true]
    constructor
    · intro ⟨hs, hc⟩ t ht
      cases ht with
      | here => exact hs
      | child hm ht => exact (hchild _ hm).mp (hc _ hm) t ht
    · intro hall
      refine ⟨hall s (.here s), ?_⟩
      intro c hc
      exact (hchild c hc).mpr fun t ht => hall t (.child hc ht)

theorem nodeByNode_refresh (s : Spec) : NodeByNode Rule.SameButMark s s.refresh := by
  refine NodeByNode.refresh ?_ (NodeByNode.refl Rule.SameButMark.refl s)
  intro a b mark (hab : b = _)
  show { b with terminal := mark } = { a with terminal := mark }
  rw [hab]

/-- Trees that differ in their marks alone are refreshed to one tree. -/
theorem refresh_eq_of_nodeByNode {s t : Spec} (h : NodeByNode Rule.SameButMark s t) : s.refresh = t.refresh := by
  have hmap : ∀ {l m : List Spec}, List.Forall₂ (fun a b => a.refresh = b.refresh) l m →
      l.map refresh = m.map refresh := by
    intro l m hlm
    rw [← List.forall₂_eq_eq_eq, List.forall₂_map_left_iff, List.forall₂_map_right_iff]
    exact hlm
  induction s using induction_branches generalizing t with
  | step s ih =>
    obtain ⟨hr, hc, hg⟩ := nodeByNode_iff.mp h
    have hchildren : s.children.map refresh = t.children.map refresh :=
      hmap (forall₂_of_mem hc fun a ha b hab => ih none a (mem_branches.mpr (Or.inl ⟨rfl, ha⟩)) hab)
    have hgroups : (s.groups.map fun g => (⟨g.label, g.members.map refresh⟩ : Group Spec)) =
        t.groups.map fun g => ⟨g.label, g.members.map refresh⟩ := by
      rw [← List.forall₂_eq_eq_eq, List.forall₂_map_left_iff, List.forall₂_map_right_iff]
      refine forall₂_of_mem hg fun g hgs g' hgg => ?_
      rw [hgg.1, hmap (forall₂_of_mem hgg.2 fun a ha b hab =>
        ih (some g.label) a (mem_branches.mpr (Or.inr ⟨g, hgs, rfl, ha⟩)) hab)]
    obtain ⟨rule, children, groups⟩ := s
    obtain ⟨rule', children', groups'⟩ := t
    have hrule : rule' = { rule with terminal := rule'.terminal } := hr
    rw [refresh_eq, refresh_eq]
    simp only [mapBelow, refreshRoot] at hchildren hgroups ⊢
    rw [hchildren, hgroups, hrule]

/-- Refreshed, a node anywhere in the tree is marked terminal if and only if no key stands in
    its filter or in that of a node reached from it through children alone. All else in the
    tree stays as it is, marks set before do not count, and refreshing again changes nothing. -/
theorem refreshing_sets_the_marks (s : Spec) :
    (∀ t, s.refresh.Holds t → (t.terminal ↔
      ∀ u, t.Descends u → ∀ key, key ∉ u.filter.included ∧ key ∉ u.filter.excluded)) ∧
    NodeByNode Rule.SameButMark s s.refresh ∧
    (∀ t, NodeByNode Rule.SameButMark s t → s.refresh = t.refresh) ∧
    s.refresh.refresh = s.refresh := by
  refine ⟨?_, nodeByNode_refresh s, fun t => refresh_eq_of_nodeByNode, refresh_refresh s⟩
  intro t ht
  simp only [((fresh_refresh s).of_holds ht).terminal_iff, Filter.isEmpty_iff]

/-- The filter stands below a child of the root, but in a group there; the mark of the member
    of the root's own group is taken away, since the filter is below it along children. -/
theorem refreshing_sets_the_marks_around_two_groups :
    let filtered : Spec := { filter := ({} : Filter).includeKey (.name "x") }
    let inner : Spec := { groups := [⟨"g", [filtered]⟩], terminal := false }
    let member : Spec := { children := [filtered] }
    let spec : Spec := { children := [inner], groups := [⟨"h", [member]⟩], terminal := false }
    (spec.refresh.terminal ∧ ∀ u, spec.refresh.Descends u → ∀ key, key ∉ u.filter.included ∧ key ∉ u.filter.excluded) ∧
      spec.refresh.Holds member.refresh ∧ member.refresh.terminal = false ∧ member.terminal ∧
      spec.refresh.refresh = spec.refresh := by
  intro filtered inner member spec
  obtain ⟨hmarks, -, -, hagain⟩ := refreshing_sets_the_marks spec
  have hb : (some "h", member) ∈ spec.branches :=
    mem_branches.mpr (Or.inr ⟨_, List.mem_singleton_self _, rfl, List.mem_singleton_self _⟩)
  have hmember : spec.refresh.Holds member.refresh := holds_refresh_iff.mpr ⟨member, .branch hb (.root _), rfl⟩
  exact ⟨⟨rfl, (hmarks _ (.root _)).mp rfl⟩, hmember, rfl, rfl, hagain⟩

/-! ## Places in a tree -/

/-- The turn taken at a node on the way down a tree, to a child or to a member of a group. -/
inductive Turn where
  | child (index : Nat)
  | member (group index : Nat)
  deriving DecidableEq, Repr

def below? (s : Spec) : Turn → Option Spec
  | .child i => s.children[i]?
  | .member g i => s.groups[g]?.bind (·.members[i]?)

/-- The node in a place, if the tree has it. -/
def nodeAt? (s : Spec) : List Turn → Option Spec
  | [] => some s
  | turn :: place => (s.below? turn).bind (nodeAt? · place)

/-- The node with the one that a turn leads to changed. -/
def modifyBelow (s : Spec) (f : Spec → Spec) : Turn → Spec
  | .child i => { s with children := s.children.modify i f }
  | .member g i =>
    { s with groups := s.groups.modify g fun group => { group with members := group.members.modify i f } }

/-- The tree with the node in a place changed. -/
def modifyAt (s : Spec) (place : List Turn) (f : Spec → Spec) : Spec :=
  match place with
  | [] => f s
  | turn :: place => s.modifyBelow (modifyAt · place f) turn

def replaceAt (s : Spec) (place : List Turn) (t : Spec) : Spec := s.modifyAt place fun _ => t

/-- The mark of the node in the place set, and then that of each node above it up to the root. -/
def refreshUp (s : Spec) (place : List Turn) : Spec :=
  place.inits.reverse.foldl (fun t above => t.modifyAt above refreshRoot) s

theorem mem_branches_of_below? {s c : Spec} {turn : Turn} (h : s.below? turn = some c) :
    ∃ edge, (edge, c) ∈ s.branches := by
  cases turn with
  | child i => exact ⟨none, mem_branches.mpr (Or.inl ⟨rfl, List.mem_of_getElem? h⟩)⟩
  | member g i =>
    obtain ⟨group, hg, hc⟩ := Option.bind_eq_some_iff.mp h
    exact ⟨some group.label,
      mem_branches.mpr (Or.inr ⟨group, List.mem_of_getElem? hg, rfl, List.mem_of_getElem? hc⟩)⟩

theorem nodeAt?_append (s : Spec) (place rest : List Turn) :
    s.nodeAt? (place ++ rest) = (s.nodeAt? place).bind (·.nodeAt? rest) := by
  induction place generalizing s with
  | nil => rfl
  | cons turn place ih =>
    rw [List.cons_append, nodeAt?, nodeAt?, Option.bind_assoc]
    exact Option.bind_congr fun c _ => ih c

theorem Fresh.of_nodeAt? {s t : Spec} {place : List Turn} (h : s.Fresh) (ht : s.nodeAt? place = some t) : t.Fresh := by
  induction place generalizing s with
  | nil =>
    cases ht
    exact h
  | cons turn place ih =>
    obtain ⟨c, hc, ht⟩ := Option.bind_eq_some_iff.mp ht
    obtain ⟨edge, hb⟩ := mem_branches_of_below? hc
    exact ih (h.of_branch hb) ht

/-! ## One node changed -/

section

variable {α β : Type}

theorem modify_congr {l : List α} {i : Nat} {f g : α → α} (h : ∀ a, l[i]? = some a → f a = g a) :
    l.modify i f = l.modify i g := by
  apply List.ext_getElem?
  intro j
  rw [List.getElem?_modify, List.getElem?_modify]
  by_cases hj : i = j
  · subst hj
    cases hi : l[i]? with
    | none => rfl
    | some a => simp [h a hi]
  · simp [hj]

/-- A map that leaves the items of a list changes only the one that was modified. -/
theorem map_modify_of_fixed {l : List α} {f : α → α} (hf : ∀ a ∈ l, f a = a) (i : Nat) (h : α → α) :
    (l.modify i h).map f = l.modify i fun a => f (h a) := by
  apply List.ext_getElem?
  intro j
  rw [List.getElem?_map, List.getElem?_modify, List.getElem?_modify]
  cases hj : l[j]? with
  | none => rfl
  | some a =>
    have ha := hf a (List.mem_of_getElem? hj)
    by_cases hij : i = j <;> simp [hij, ha]

theorem map_modify_of_eq {l : List α} {f : α → β} {h : α → α} (hf : ∀ a ∈ l, f (h a) = f a) (i : Nat) :
    (l.modify i h).map f = l.map f := by
  apply List.ext_getElem?
  intro j
  rw [List.getElem?_map, List.getElem?_modify, List.getElem?_map]
  cases hj : l[j]? with
  | none => rfl
  | some a =>
    have ha := hf a (List.mem_of_getElem? hj)
    by_cases hij : i = j <;> simp [hij, ha]

end

variable {s : Spec} {turn : Turn} {f g : Spec → Spec}

theorem modifyBelow_modifyBelow (s : Spec) (turn : Turn) (f g : Spec → Spec) :
    (s.modifyBelow f turn).modifyBelow g turn = s.modifyBelow (fun c => g (f c)) turn := by
  cases turn with
  | child i => simp [modifyBelow, List.modify_modify_eq, Function.comp_def]
  | member g i => simp [modifyBelow, List.modify_modify_eq, Function.comp_def]

theorem modifyBelow_id (s : Spec) (turn : Turn) : s.modifyBelow id turn = s := by
  obtain ⟨rule, children, groups⟩ := s
  cases turn with
  | child i => simp [modifyBelow, List.modify_id]
  | member g i =>
    simp only [modifyBelow, List.modify_id]
    exact congrArg (Spec.mk rule children) (List.modify_id g groups)

theorem modifyBelow_congr (h : ∀ c, s.below? turn = some c → f c = g c) :
    s.modifyBelow f turn = s.modifyBelow g turn := by
  cases turn with
  | child i => rw [modifyBelow, modifyBelow, modify_congr h]
  | member n i =>
    rw [modifyBelow, modifyBelow, modify_congr]
    intro group hg
    rw [modify_congr]
    intro c hc
    exact h c (Option.bind_eq_some_iff.mpr ⟨group, hg, hc⟩)

/-- A change of all nodes below that leaves those which are there changes only the one
    that was modified. -/
theorem mapBelow_modifyBelow (hg : ∀ edge c, (edge, c) ∈ s.branches → g c = c) :
    (s.modifyBelow f turn).mapBelow g = s.modifyBelow (fun c => g (f c)) turn := by
  have hchildren : ∀ c ∈ s.children, g c = c := fun c hc => hg none c (mem_branches.mpr (Or.inl ⟨rfl, hc⟩))
  have hmembers : ∀ group ∈ s.groups, ∀ c ∈ group.members, g c = c :=
    fun group h c hc => hg (some group.label) c (mem_branches.mpr (Or.inr ⟨group, h, rfl, hc⟩))
  have hgroups : ∀ group ∈ s.groups, (⟨group.label, group.members.map g⟩ : Group Spec) = group := by
    intro group h
    rw [List.map_congr_left (hmembers group h), List.map_id']
  cases turn with
  | child i =>
    simp only [mapBelow, modifyBelow, map_modify_of_fixed hchildren]
    rw [List.map_congr_left hgroups, List.map_id']
  | member n i =>
    simp only [mapBelow, modifyBelow, map_modify_of_fixed hgroups]
    rw [List.map_congr_left hchildren, List.map_id', modify_congr]
    intro group h
    rw [map_modify_of_fixed (hmembers group (List.mem_of_getElem? h))]

/-! ## Marks set on the way up -/

theorem foldl_modifyAt_cons (s : Spec) (turn : Turn) (f : Spec → Spec) (l : List (List Turn)) :
    (l.map (turn :: ·)).foldl (fun t place => t.modifyAt place f) s =
      s.modifyBelow (fun c => l.foldl (fun t place => t.modifyAt place f) c) turn := by
  induction l generalizing s with
  | nil => exact (modifyBelow_id s turn).symm
  | cons place l ih =>
    rw [List.map_cons, List.foldl_cons, ih, modifyAt, modifyBelow_modifyBelow]
    rfl

theorem refreshUp_cons (s : Spec) (turn : Turn) (place : List Turn) :
    s.refreshUp (turn :: place) = (s.modifyBelow (·.refreshUp place) turn).refreshRoot := by
  rw [refreshUp, List.inits_cons, List.reverse_cons, ← List.map_reverse, List.foldl_append, foldl_modifyAt_cons]
  rfl

/-- With fresh nodes directly below a replaced one, the way up from it refreshes the tree. -/
theorem Fresh.refreshUp_replaceAt {s t : Spec} (hs : s.Fresh) (ht : ∀ edge c, (edge, c) ∈ t.branches → c.Fresh)
    (place : List Turn) : (s.replaceAt place t).refreshUp place = (s.replaceAt place t).refresh := by
  -- by induction down the place: off the way the nodes were fresh before and are not touched
  induction place generalizing s with
  | nil => exact (refresh_eq_refreshRoot ht).symm
  | cons turn place ih =>
    have hbelow : ∀ c, s.below? turn = some c →
        (c.replaceAt place t).refreshUp place = (c.replaceAt place t).refresh := by
      intro c hc
      obtain ⟨edge, hb⟩ := mem_branches_of_below? hc
      exact ih (hs.of_branch hb)
    calc (s.replaceAt (turn :: place) t).refreshUp (turn :: place)
        = (s.modifyBelow (fun c => (c.replaceAt place t).refreshUp place) turn).refreshRoot := by
          rw [refreshUp_cons, replaceAt, modifyAt, modifyBelow_modifyBelow]
          rfl
      _ = (s.modifyBelow (fun c => (c.replaceAt place t).refresh) turn).refreshRoot := by rw [modifyBelow_congr hbelow]
      _ = (s.replaceAt (turn :: place) t).refresh := by
          rw [refresh_eq, replaceAt, modifyAt, mapBelow_modifyBelow fun _ _ => hs.of_branch]
          rfl

/-! ## Where the way up changes nothing -/

theorem below?_modifyBelow (s : Spec) (turn : Turn) (f : Spec → Spec) :
    (s.modifyBelow f turn).below? turn = (s.below? turn).map f := by
  cases turn with
  | child i => simp [below?, modifyBelow]
  | member g i =>
    simp only [below?, modifyBelow, List.getElem?_modify_eq]
    cases s.groups[g]? <;> simp

theorem nodeAt?_modifyAt_append (s : Spec) (place rest : List Turn) (f : Spec → Spec) :
    (s.modifyAt (place ++ rest) f).nodeAt? place = (s.nodeAt? place).map (·.modifyAt rest f) := by
  induction place generalizing s with
  | nil => rfl
  | cons turn place ih =>
    rw [List.cons_append, modifyAt, nodeAt?, nodeAt?, below?_modifyBelow]
    cases s.below? turn with
    | none => rfl
    | some c => exact ih c

theorem nodeAt?_refresh (s : Spec) (place : List Turn) : s.refresh.nodeAt? place = (s.nodeAt? place).map refresh := by
  induction place generalizing s with
  | nil => rfl
  | cons turn place ih =>
    have hb : s.refresh.below? turn = (s.below? turn).map refresh := by
      cases turn with
      | child i => simp [below?]
      | member g i =>
        simp only [below?, refresh_groups, List.getElem?_map]
        cases s.groups[g]? <;> simp
    rw [nodeAt?, nodeAt?, hb]
    cases s.below? turn with
    | none => rfl
    | some c => exact ih c

/-- A change past a turn into a group does not reach the mark of a node above it. -/
theorem refresh_terminal_modifyAt (s : Spec) (above : List Turn) (group index : Nat) (below : List Turn)
    (f : Spec → Spec) :
    (s.modifyAt (above ++ .member group index :: below) f).refresh.terminal = s.refresh.terminal := by
  have hall : ∀ l : List Spec, (l.all fun c => c.refresh.terminal) = (l.map (·.refresh.terminal)).all id := by
    intro l
    rw [List.all_map]
    rfl
  induction above generalizing s with
  | nil =>
    rw [refresh_terminal, refresh_terminal]
    rfl
  | cons turn above ih =>
    rw [List.cons_append, modifyAt, refresh_terminal, refresh_terminal]
    cases turn with
    | member g i => rfl
    | child i =>
      have hmarks : (s.children.modify i (·.modifyAt (above ++ .member group index :: below) f)).map
          (·.refresh.terminal) = s.children.map (·.refresh.terminal) := map_modify_of_eq (fun c _ => ih c) i
      show (s.filter.isEmpty && (s.children.modify i _).all _) = _
      rw [hall, hall, hmarks]

/-- Replace the node in a place of a fresh tree by one with fresh nodes below it, or change
    its filter. Then setting the marks on the way up from the place refreshes the tree. If the
    way down to the place leads into a group, the marks of the node that has the group and of
    all nodes above that one are what they were. -/
theorem refreshing_upwards_is_enough {s t u : Spec} (hs : s.Fresh) {place : List Turn} (ht : s.nodeAt? place = some t)
    (hu : (∀ edge c, (edge, c) ∈ u.branches → c.Fresh) ∨ ∃ f, u = { t with filter := f }) :
    (s.replaceAt place u).refreshUp place = (s.replaceAt place u).refresh ∧
      ∀ above group index below, place = above ++ .member group index :: below → ∀ higher, higher <+: above →
        ∃ owner owner', s.nodeAt? higher = some owner ∧
          ((s.replaceAt place u).refreshUp place).nodeAt? higher = some owner' ∧ owner'.terminal = owner.terminal := by
  have hfresh : ∀ edge c, (edge, c) ∈ u.branches → c.Fresh := by
    rcases hu with hu | ⟨f, rfl⟩
    · exact hu
    · intro edge c hc
      exact (hs.of_nodeAt? ht).of_branch hc
  have hup := hs.refreshUp_replaceAt hfresh place
  refine ⟨hup, ?_⟩
  intro above group index below hplace higher hhigher
  obtain ⟨between, rfl⟩ := hhigher
  rw [List.append_assoc] at hplace
  rw [hplace, nodeAt?_append] at ht
  obtain ⟨owner, howner, -⟩ := Option.bind_eq_some_iff.mp ht
  refine ⟨owner, (owner.modifyAt (between ++ .member group index :: below) fun _ => u).refresh, howner, ?_, ?_⟩
  · rw [hup, nodeAt?_refresh, replaceAt, hplace, nodeAt?_modifyAt_append, howner]
    rfl
  · rw [refresh_terminal_modifyAt, hs.of_nodeAt? howner]

/-- The leaf below a member of a group comes to have a filter: the mark of the member is
    taken away and that of the root is not. Below a child both are. -/
theorem refreshing_upwards_is_enough_below_a_member :
    let leaf : Spec := {}
    let inner : Spec := { children := [leaf] }
    let spec : Spec := refresh { children := [inner], groups := [⟨"g", [inner]⟩] }
    let filtered : Spec := { leaf with filter := ({} : Filter).includeKey (.name "x") }
    let place : List Turn := [.member 0 0, .child 0]
    let edited : Spec := (spec.replaceAt place filtered).refreshUp place
    let other : Spec := (spec.replaceAt [.child 0, .child 0] filtered).refreshUp [.child 0, .child 0]
    spec.Fresh ∧ spec.nodeAt? place = some leaf ∧ edited = (spec.replaceAt place filtered).refresh ∧
      (edited.nodeAt? [.member 0 0]).map (·.terminal) = some false ∧ edited.terminal = spec.terminal ∧
      (other.nodeAt? [.child 0]).map (·.terminal) = some false ∧ other.terminal = false := by
  intro leaf inner spec filtered place edited other
  have hs : spec.Fresh := fresh_refresh _
  have hleaf : spec.nodeAt? place = some leaf := rfl
  obtain ⟨hup, hmarks⟩ := refreshing_upwards_is_enough hs hleaf (Or.inr ⟨filtered.filter, rfl⟩)
  obtain ⟨owner, owner', ho, ho', hmark⟩ := hmarks [] 0 0 [.child 0] rfl [] List.prefix_rfl
  cases ho
  cases ho'
  exact ⟨hs, rfl, hup, rfl, hmark, rfl, rfl⟩

end Spec

end Harvest
