/-
  Harvest.Proofs.Siblings — the order of siblings does not count.

  The children of a node, its groups and the members of a group look at the same entries one
  after the other. None of them leaves anything behind that the next would find: what has
  been put out and what was skipped is only added to, and the path is what it was. So in
  another order, in any number of places of the tree (`Spec.Shuffled`), they do the same in
  another order (`trace_shuffled`).

  A mark takes all children together and groups not at all, so the marks of a fresh tree are
  right in every order (`Shuffled.fresh`). Hence the records and the reports of the
  mismatches, which show the marks, are the same up to order, and a strict match fails in
  every order or in none (`sibling_order_is_immaterial`).
-/

import Harvest.NamedList
import Harvest.Proofs.Refreshing
import Harvest.Proofs.Shown
import Harvest.Proofs.Skips
import Mathlib.Data.List.Perm.Basic
import Mathlib.Logic.Relation

namespace Harvest

open scoped List

namespace Spec

/-! ## Siblings in another order -/

/-- One of the lists directly below the node in another order. -/
inductive Shuffle : Spec → Spec → Prop
  | children {s : Spec} {children : List Spec} : s.children ~ children → Shuffle s { s with children }
  | groups {s : Spec} {groups : List (Group Spec)} : s.groups ~ groups → Shuffle s { s with groups }
  | members {s : Spec} {label : String} {members members' : List Spec} {first last : List (Group Spec)} :
      s.groups = first ++ ⟨label, members⟩ :: last → members ~ members' →
        Shuffle s { s with groups := first ++ ⟨label, members'⟩ :: last }

/-- The tree with one list in another order. -/
def ShuffledOnce : Spec → Spec → Prop := Somewhere Shuffle

/-- The tree with any number of lists in another order. -/
def Shuffled : Spec → Spec → Prop := Relation.ReflTransGen ShuffledOnce

theorem Shuffle.rule {s t : Spec} (h : Shuffle s t) : t.toRule = s.toRule := by cases h <;> rfl

theorem Shuffle.branches {s t : Spec} (h : Shuffle s t) : s.branches ~ t.branches := by
  cases h with
  | children h => exact (h.map _).append_right _
  | groups h => exact (h.flatMap_right _).append_left _
  | members hs h =>
    refine List.Perm.append_left _ ?_
    rw [hs, List.flatMap_append, List.flatMap_append, List.flatMap_cons, List.flatMap_cons]
    exact ((h.map _).append_right _).append_left _

theorem Shuffle.isLeaf {s t : Spec} (h : Shuffle s t) : t.isLeaf = s.isLeaf := by
  cases h with
  | children h => rw [Spec.isLeaf, Spec.isLeaf, h.isEmpty_eq]
  | groups h => rw [Spec.isLeaf, Spec.isLeaf, h.isEmpty_eq]
  | members hs _ => exact isLeaf_of_members hs _

theorem ShuffledOnce.rule {s t : Spec} (h : s.ShuffledOnce t) : t.toRule = s.toRule := by
  induction h using Somewhere.induction_branches with
  | here h => exact h.rule
  | below _ _ hrule => exact hrule

/-- Marks are right in every order. -/
theorem ShuffledOnce.fresh {s t : Spec} (h : s.ShuffledOnce t) (hs : s.Fresh) : t.Fresh := by
  induction h using Somewhere.induction_branches with
  | here h =>
    obtain ⟨hmark, hbelow⟩ := fresh_iff_branches.mp hs
    refine fresh_iff_branches.mpr ⟨?_, fun edge c hc => hbelow edge c (h.branches.mem_iff.mpr hc)⟩
    rw [h.rule, ← h.branches.all_eq]
    exact hmark
  | @below s t c d edge before after _ hcd hrule hbranches hbranches' ih =>
    obtain ⟨hmark, hbelow⟩ := fresh_iff_branches.mp hs
    rw [hbranches] at hmark hbelow
    refine fresh_iff_branches.mpr ⟨?_, ?_⟩
    · have hd : d.terminal = c.terminal := congrArg Rule.terminal (ShuffledOnce.rule hcd)
      rw [hrule, hmark, hbranches']
      simp only [List.all_append, List.all_cons, hd]
    · intro edge' b hb
      rw [hbranches'] at hb
      rcases List.mem_append.mp hb with hb | hb
      · exact hbelow edge' b (List.mem_append_left _ hb)
      · rcases List.mem_cons.mp hb with hb | hb
        · cases hb
          exact ih (hbelow edge c (by simp))
        · exact hbelow edge' b (by simp [hb])

end Spec

/-! ## What is done, apart from what is below the nodes -/

variable {V : Type}

/-- The node without those below it. -/
def Spec.alone (s : Spec) : Spec := { toRule := s.toRule }

def Record.alone (r : Record V) : Record V := { r with node := r.node.alone }

def Mismatch.alone (m : Mismatch V) : Mismatch V := { m with node := m.node.alone }

namespace Event

/-- The event at a node without those below it. -/
def alone : Event V → Event V
  | .check node => .check node.alone
  | .chose node chosen available => .chose node.alone chosen available
  | .record r => .record r.alone
  | .mismatch m => .mismatch m.alone

theorem yieldOf_alone (l : List (Event V)) :
    (yieldOf l).records.map Record.alone = (yieldOf (l.map alone)).records ∧
      (yieldOf l).mismatches.map Mismatch.alone = (yieldOf (l.map alone)).mismatches := by
  simp only [yieldOf, List.map_filterMap, List.filterMap_map]
  constructor <;> refine List.filterMap_congr fun e _ => ?_ <;> cases e <;> rfl

end Event

namespace Spec

/-- The nodes have one rule, and the nodes below them do the same in some order. -/
structure Interchangeable (V : Type) [Nesting V] (s t : Spec) : Prop where
  rule : t.toRule = s.toRule
  isLeaf : t.isLeaf = s.isLeaf
  below : ∀ label path (entries : List (Entry V)),
    (descend label path entries s).map Event.alone ~ (descend label path entries t).map Event.alone

variable [Nesting V] {s t : Spec}

theorem Interchangeable.alone (h : Interchangeable V s t) : t.alone = s.alone := by rw [Spec.alone, Spec.alone, h.rule]

theorem Interchangeable.ordinals (h : Interchangeable V s t) (e : Entry V) :
    ((s.ordinals e).map Event.record).map Event.alone = ((t.ordinals e).map Event.record).map Event.alone := by
  unfold Spec.ordinals
  rw [h.rule]
  cases s.ordinal with
  | none => rfl
  | some name => simp [Event.alone, Record.alone, h.alone]

theorem Interchangeable.pick (h : Interchangeable V s t) (label : Option String) (path : List Hop) (e : Entry V) :
    (pick label path s e).map Event.alone ~ (pick label path t e).map Event.alone := by
  unfold Spec.pick
  rw [h.isLeaf]
  cases s.isLeaf with
  | true =>
    simp only [if_true, List.map_append, h.ordinals]
    simp [Event.alone, Record.alone, h.alone, h.rule]
  | false =>
    cases Nesting.entries e.value with
    | none => simp [Event.alone, Mismatch.alone, h.alone]
    | some inside =>
      simp only [Bool.false_eq_true, if_false, List.map_append, h.ordinals, h.rule]
      exact (h.below _ _ inside).append_left _

theorem Interchangeable.visit (h : Interchangeable V s t) (label : Option String) (path : List Hop)
    (entries : List (Entry V)) :
    (visit label path entries s).map Event.alone ~ (visit label path entries t).map Event.alone := by
  have hnil : t.isNil = s.isNil := congrArg Rule.isNil h.rule
  cases hn : s.isNil with
  | true => rw [visit_of_isNil hn, visit_of_isNil (hnil.trans hn)]
  | false =>
    rw [visit_of_not_isNil hn, visit_of_not_isNil (hnil.trans hn), h.rule]
    simp only [List.map_cons, List.map_flatMap, Event.alone, h.alone]
    exact ((List.Perm.flatMap_left _ fun e _ => h.pick label path e).cons _).cons _

theorem Interchangeable.trace (h : Interchangeable V s t) (v : V) :
    (s.trace v).map Event.alone ~ (t.trace v).map Event.alone := by
  have hnil : t.isNil = s.isNil := congrArg Rule.isNil h.rule
  unfold Spec.trace
  rw [hnil, h.isLeaf]
  cases s.isNil with
  | true => exact .refl _
  | false =>
    cases Nesting.entries v with
    | none => simp [Event.alone, Mismatch.alone, h.alone]
    | some entries =>
      cases s.isLeaf with
      | true => exact h.visit none [] entries
      | false =>
        simp only [Bool.false_eq_true, if_false, List.map_cons, List.map_append, List.map_flatMap, h.ordinals, h.rule,
          Event.alone, h.alone]
        exact ((h.below s.label [] (s.accepted entries)).append_left _).cons _

/-- Nodes below do the same in some order if one of them is exchanged, and all of them in
    another order do too. -/
theorem ShuffledOnce.interchangeable (h : s.ShuffledOnce t) : Interchangeable V s t := by
  induction h using Somewhere.induction_branches with
  | here h =>
    refine ⟨h.rule, h.isLeaf, ?_⟩
    intro label path entries
    exact (h.branches.flatMap_right _).map _
  | @below s t c d edge before after _ _ hrule hbranches hbranches' ih =>
    refine ⟨hrule, isLeaf_eq_of_branches hbranches hbranches', ?_⟩
    intro label path entries
    simp only [descend, hbranches, hbranches', List.flatMap_append, List.flatMap_cons, List.map_append]
    exact ((ih.visit _ path entries).append_right _).append_left _

theorem Shuffled.fresh (h : s.Shuffled t) (hs : s.Fresh) : t.Fresh := by
  induction h with
  | refl => exact hs
  | tail _ h ih => exact h.fresh ih

theorem trace_shuffled (h : s.Shuffled t) (v : V) : (s.trace v).map Event.alone ~ (t.trace v).map Event.alone := by
  induction h with
  | refl => exact .refl _
  | tail _ h ih => exact ih.trans (h.interchangeable.trace v)

/-! ## Matches -/

omit [Nesting V] in
/-- A record shows nothing of what is below its node. -/
theorem records_shown_of_alone {l m : List (Event V)} (h : l.map Event.alone ~ m.map Event.alone) :
    (Event.yieldOf l).records.map Record.shown ~ (Event.yieldOf m).records.map Record.shown := by
  have hshown : ∀ l : List (Record V), (l.map Record.alone).map Record.shown = l.map Record.shown :=
    fun _ => List.map_map
  rw [← hshown (Event.yieldOf l).records, ← hshown (Event.yieldOf m).records, (Event.yieldOf_alone l).1,
    (Event.yieldOf_alone m).1]
  exact (h.filterMap _).map _

/-- Neither does the report of a mismatch. -/
theorem reports_of_alone {l m : List (Event V)} (h : l.map Event.alone ~ m.map Event.alone) :
    (Event.yieldOf l).mismatches.map Mismatch.report ~ (Event.yieldOf m).mismatches.map Mismatch.report := by
  have hreport : ∀ l : List (Mismatch V), (l.map Mismatch.alone).map Mismatch.report = l.map Mismatch.report :=
    fun _ => List.map_map
  rw [← hreport (Event.yieldOf l).mismatches, ← hreport (Event.yieldOf m).mismatches, (Event.yieldOf_alone l).2,
    (Event.yieldOf_alone m).2]
  exact (h.filterMap _).map _

/-- A fresh tree stays fresh when its children, its groups and the members of its groups are
    put in another order, in any number of places. A match gives the same records and skips
    the same branches, with the same messages, in some order; and where nothing may be skipped
    it succeeds if it did before, and only then. -/
theorem sibling_order_is_immaterial (hs : s.Fresh) (h : s.Shuffled t) :
    t.Fresh ∧ ∀ v : V, ∃ y z, s.gatherLenient v = .ok y ∧ t.gatherLenient v = .ok z ∧
      y.records.map Record.shown ~ z.records.map Record.shown ∧
      y.mismatches.map Mismatch.report ~ z.mismatches.map Mismatch.report ∧
      ((∃ l, s.gatherStrict v = .ok l) ↔ ∃ l, t.gatherStrict v = .ok l) := by
  have ht := h.fresh hs
  refine ⟨ht, fun v => ?_⟩
  have htrace := trace_shuffled h v
  have hreports := reports_of_alone htrace
  refine ⟨_, _, hs.gatherLenient_eq v, ht.gatherLenient_eq v, records_shown_of_alone htrace, hreports, ?_⟩
  have hlength := hreports.length_eq
  rw [List.length_map, List.length_map] at hlength
  exact hs.gatherStrict_isOk_congr ht hlength

/-- The children of the root change places, its groups do, and so do the members of one of
    these. The scalar is skipped once by either node that needs a container, in the other
    order: the messages tell the nodes apart by their types. -/
theorem sibling_order_is_immaterial_in_three_places :
    let leaf : Spec := {}
    let inner : Spec := { type := .named "a", children := [leaf] }
    let other : Spec := { type := .named "b", children := [leaf] }
    let named : Spec := { label := some "x", filter := ({} : Filter).includeKey (.name "k") }
    let spec : Spec := refresh { children := [inner, other], groups := [⟨"g", [named, leaf]⟩, ⟨"h", [leaf]⟩] }
    let turned : Spec := refresh { children := [other, inner], groups := [⟨"h", [leaf]⟩, ⟨"g", [leaf, named]⟩] }
    let v : NamedList := .list [(some "k", .leaf .null)]
    spec.Fresh ∧ spec.Shuffled turned ∧ turned.Fresh ∧
      ∃ y z, spec.gatherLenient v = .ok y ∧ turned.gatherLenient v = .ok z ∧
        y.records.map (·.specName) = [some "x", some "g", some "h"] ∧
        z.records.map (·.specName) = [some "h", some "g", some "x"] ∧
        y.records.map Record.shown ~ z.records.map Record.shown ∧
        y.mismatches.map (·.node.type.text) = ["a", "b"] ∧ z.mismatches.map (·.node.type.text) = ["b", "a"] ∧
        y.mismatches.map Mismatch.report ~ z.mismatches.map Mismatch.report := by
  intro leaf inner other named spec turned v
  have hs : spec.Fresh := fresh_refresh _
  have hchildren : spec.ShuffledOnce { spec with children := turned.children } :=
    .here (.children (List.Perm.swap _ _ _))
  have hgroups : ShuffledOnce { spec with children := turned.children }
      { spec with children := turned.children, groups := [spec.groups[1], spec.groups[0]] } :=
    .here (.groups (List.Perm.swap _ _ _))
  have hmembers : ShuffledOnce
      { spec with children := turned.children, groups := [spec.groups[1], spec.groups[0]] } turned :=
    .here (@Shuffle.members _ "g" _ turned.groups[1].members [spec.groups[1]] [] rfl (List.Perm.swap _ _ _))
  have h : spec.Shuffled turned := ((Relation.ReflTransGen.single hchildren).tail hgroups).tail hmembers
  obtain ⟨ht, hmatch⟩ := sibling_order_is_immaterial hs h (V := NamedList)
  obtain ⟨y, z, hy, hz, hrecords, hreports, -⟩ := hmatch v
  have hly : (spec.gatherLenient v).toOption.map
      (fun y => (y.records.map (·.specName), y.mismatches.map (·.node.type.text))) = some (_, _) := rfl
  have hlz : (turned.gatherLenient v).toOption.map
      (fun z => (z.records.map (·.specName), z.mismatches.map (·.node.type.text))) = some (_, _) := rfl
  rw [hy] at hly
  rw [hz] at hlz
  obtain ⟨hyr, hym⟩ := Prod.mk.inj (Option.some.inj hly)
  obtain ⟨hzr, hzm⟩ := Prod.mk.inj (Option.some.inj hlz)
  exact ⟨hs, h, ht, y, z, hy, hz, hyr, hzr, hrecords, hym, hzm, hreports⟩

end Spec

end Harvest
