/-
  Harvest.Proofs.Naming — under which name a record is put out.

  What may name a value stands along the chain of nodes that leads to it: the label of the
  node itself, then that of the edge above it (a group's label for a member, none for a
  child), then the label of the node above, and so on up to the root's (`Route.names`).
  The walk carries one label down this chain and writes it over on the way; what comes out
  at the end is the first label that there is, read from the end (`label_eq_first`). The
  empty text is a label like any other.

  A position goes under the ordinal name of its node, whatever the labels around it.
-/

import Harvest.Proofs.Modes
import Harvest.Proofs.Routes
import Mathlib.Data.List.Induction

namespace Harvest

variable {V : Type}

/-! ## Labels along a chain -/

/-- What may name a value at the end of the route, the innermost first. A root that is a
    leaf is a chain by itself. -/
def Route.names (root : Spec) (r : Route V) : List (Option String) :=
  if root.isLeaf then [root.label]
  else (r.reverse.flatMap fun leg => [leg.node.label, leg.edge]) ++ [root.label]

/-- The first label that there is. -/
def firstLabel (labels : List (Option String)) : Option String := labels.findSome? id

theorem firstLabel_cons (label : Option String) (rest : List (Option String)) :
    firstLabel (label :: rest) = label.or (firstLabel rest) := by
  cases label <;> rfl

theorem firstLabel_eq_none_iff {labels : List (Option String)} :
    firstLabel labels = none ↔ ∀ label ∈ labels, label = none :=
  List.findSome?_eq_none_iff

namespace Route

theorem label_concat (outer : Option String) (r : Route V) (leg : Leg V) :
    label outer (r ++ [leg]) = leg.node.label.or (leg.edge.or (label outer r)) := by
  simp [label, List.foldl_append]

/-- The label that comes down a route is the first on the way back up. -/
theorem label_eq_first (outer : Option String) (r : Route V) :
    label outer r = firstLabel ((r.reverse.flatMap fun leg => [leg.node.label, leg.edge]) ++ [outer]) := by
  induction r using List.reverseRecOn with
  | nil => cases outer <;> rfl
  | append_singleton r leg ih =>
    have hr : (r ++ [leg]).reverse = leg :: r.reverse := by simp
    rw [label_concat, ih, hr, List.flatMap_cons]
    show _ = firstLabel (leg.node.label :: leg.edge :: _)
    rw [firstLabel_cons, firstLabel_cons]
    rfl

end Route

variable [Nesting V]

theorem Spec.IsRoute.label_eq {root : Spec} {v : V} {r : Route V} (h : root.IsRoute v r) :
    r.label root.label = firstLabel (r.names root) := by
  unfold Route.names
  cases h with
  | leaf hn he hl hp ha =>
    rw [if_pos hl]
    show root.label.or (none.or root.label) = _
    cases root.label <;> rfl
  | inner hn he hl hent hf =>
    rw [if_neg (by simp [hl])]
    exact Route.label_eq_first root.label _

/-! ## The values among the records -/

omit [Nesting V] in
/-- The record is the value at the end of the route, under the first of the labels that
    may name it, or under none if there is none. -/
structure Record.IsValueOf (root : Spec) (r : Route V) (record : Record V) : Prop where
  ending : ∃ leg, r.getLast? = some leg ∧ record.entry = leg.entry ∧ record.node = leg.node
  name : record.specName = firstLabel (r.names root)
  unnamed : record.specName = none ↔ ∀ label ∈ r.names root, label = none

/-- Whether the last node of a route is a leaf. -/
def Route.endsInLeaf (r : Route V) : Bool := r.getLast?.any (·.node.isLeaf)

omit [Nesting V] in
theorem Route.endsInLeaf_iff {r : Route V} : r.endsInLeaf ↔ ∃ leg, r.getLast? = some leg ∧ leg.node.isLeaf := by
  unfold endsInLeaf
  cases r.getLast? <;> simp

/-- Lists that come from the same items, one entry for each item that counts. -/
theorem forall₂_filter_flatMap {α β : Type} {R : α → β → Prop} {p : α → Bool} {f : α → List β} {l : List α}
    (h : ∀ a ∈ l, if p a then ∃ b, f a = [b] ∧ R a b else f a = []) : List.Forall₂ R (l.filter p) (l.flatMap f) := by
  induction l with
  | nil => exact .nil
  | cons a l ih =>
    have ha := h a (List.mem_cons_self ..)
    have hl := ih fun b hb => h b (List.mem_cons_of_mem _ hb)
    rw [List.flatMap_cons]
    cases hp : p a with
    | true =>
      rw [hp] at ha
      obtain ⟨b, hb, hr⟩ := ha
      rw [List.filter_cons_of_pos hp, hb]
      exact .cons hr hl
    | false =>
      rw [hp] at ha
      have hf : f a = [] := ha
      rw [List.filter_cons_of_neg (by simp [hp]), hf]
      exact hl

namespace Spec

variable {root : Spec} {v : V}

omit [Nesting V] in
theorem kind_of_mem_ordinals {node : Spec} {e : Entry V} {record : Record V} (h : record ∈ node.ordinals e) :
    record.kind = .ordinal ∧ record.node.ordinal = record.specName ∧ record.specName.isSome := by
  unfold ordinals at h
  cases ho : node.ordinal with
  | none =>
    rw [ho] at h
    cases h
  | some name =>
    rw [ho] at h
    rw [List.mem_singleton.mp h]
    exact ⟨rfl, ho, rfl⟩

omit [Nesting V] in
theorem values_of_ordinals (node : Spec) (e : Entry V) : (node.ordinals e).filter (·.kind == .value) = [] := by
  apply List.filter_eq_nil_iff.mpr
  intro record hr
  rw [(kind_of_mem_ordinals hr).1]
  decide

theorem values_of_rootOrdinals (root : Spec) (v : V) : (root.rootOrdinals v).filter (·.kind == .value) = [] := by
  unfold rootOrdinals
  split
  · rfl
  · split
    · rfl
    · rw [List.filter_flatMap]
      exact List.flatMap_eq_nil_iff.mpr fun e _ => values_of_ordinals root e

/-- At the end of a route that ends in a leaf stands one value. -/
theorem IsRoute.values {r : Route V} (h : root.IsRoute v r) :
    if r.endsInLeaf then ∃ record, (r.records root).filter (·.kind == .value) = [record] ∧ record.IsValueOf root r
    else (r.records root).filter (·.kind == .value) = [] := by
  have hlabel := h.label_eq
  obtain ⟨entered, leg, hr, -⟩ := isRoute_iff.mp h
  have hlast : r.getLast? = some leg := by rw [hr]; exact List.getLast?_concat
  unfold Route.endsInLeaf Route.records
  rw [hlast]
  cases hl : leg.node.isLeaf with
  | true =>
    simp only [Option.any_some, hl, Bool.true_or, if_true, List.filter_append, values_of_ordinals, List.nil_append]
    refine ⟨⟨.value, r.label root.label, leg.entry, leg.node⟩, rfl, ⟨leg, hlast, rfl, rfl⟩, hlabel, ?_⟩
    show r.label root.label = none ↔ _
    rw [hlabel]
    exact firstLabel_eq_none_iff
  | false =>
    have ho : (leg.node.ordinals leg.entry).filter (·.kind == .value) = [] := values_of_ordinals leg.node leg.entry
    simp only [Option.any_some, hl, Bool.false_or, Bool.false_eq_true, if_false, List.append_nil]
    split
    · exact ho
    · rfl

/-- A position goes under the ordinal name of its node. -/
theorem name_of_ordinal {record : Record V} (h : record ∈ (Event.yieldOf (root.trace v)).records)
    (hk : record.kind = .ordinal) : ∃ name, record.node.ordinal = some name ∧ record.specName = some name := by
  have key : ∀ {node : Spec} {e : Entry V}, record ∈ node.ordinals e →
      ∃ name, record.node.ordinal = some name ∧ record.specName = some name := by
    intro node e hr
    obtain ⟨-, hn, hs⟩ := kind_of_mem_ordinals hr
    obtain ⟨name, hname⟩ := Option.isSome_iff_exists.mp hs
    exact ⟨name, hn.trans hname, hname⟩
  rw [records_trace] at h
  rcases List.mem_append.mp h with h | h
  · unfold rootOrdinals at h
    split at h
    · cases h
    · split at h
      · cases h
      · obtain ⟨e, -, hr⟩ := List.mem_flatMap.mp h
        exact key hr
  · obtain ⟨r, -, hr⟩ := List.mem_flatMap.mp h
    unfold Route.records at hr
    split at hr
    · cases hr
    · rcases List.mem_append.mp hr with hr | hr
      · split at hr
        · exact key hr
        · cases hr
      · split at hr
        · rw [List.mem_singleton.mp hr] at hk
          cases hk
        · cases hr

/-- The values among the records stand for the routes that end in a leaf, one for each in
    the order of their addresses, under the innermost label of the route; the positions go
    under the ordinal names of their nodes. -/
structure NamedInnermost (root : Spec) (v : V) (records : List (Record V)) : Prop where
  values : ∃ routes : List (Route V), routes.Pairwise (fun r r' => r.address < r'.address) ∧
    (∀ r, r ∈ routes ↔ root.IsRoute v r ∧ ∃ leg, r.getLast? = some leg ∧ leg.node.isLeaf) ∧
    List.Forall₂ (fun r record => record.IsValueOf root r) routes (records.filter (·.kind == .value))
  positions : ∀ record ∈ records, record.kind = .ordinal →
    ∃ name, record.node.ordinal = some name ∧ record.specName = some name

theorem namedInnermost_trace (root : Spec) (v : V) : root.NamedInnermost v (Event.yieldOf (root.trace v)).records where
  values := by
    refine ⟨(root.routes v).filter Route.endsInLeaf, (routes_ascending root v).filter _, ?_, ?_⟩
    · intro r
      rw [List.mem_filter, mem_routes, Route.endsInLeaf_iff]
    · rw [records_trace, List.filter_append, values_of_rootOrdinals, List.nil_append, List.filter_flatMap]
      apply forall₂_filter_flatMap
      intro r hr
      exact (mem_routes.mp hr).values
  positions := by
    intro record hr hk
    exact name_of_ordinal hr hk

/-- Every value that a match of a fresh tree puts out, in either mode, goes under the
    innermost label of the chain of nodes that leads to it, and under none only if there is
    no label in the chain. Every position goes under the ordinal name of its node. -/
theorem innermost_label_wins {s : Spec} (hs : s.Fresh) (v : V) :
    (∃ y, s.gatherLenient v = .ok y ∧ s.NamedInnermost v y.records) ∧
      ∀ records, s.gatherStrict v = .ok records → s.NamedInnermost v records := by
  have hy := hs.gatherLenient_eq v
  refine ⟨⟨_, hy, namedInnermost_trace s v⟩, ?_⟩
  intro records hr
  rw [gatherStrict_of_gatherLenient hy, Yield.toExcept] at hr
  cases hm : (Event.yieldOf (s.trace v)).mismatches with
  | cons m rest =>
    rw [hm] at hr
    cases hr
  | nil =>
    rw [hm] at hr
    cases hr
    exact namedInnermost_trace s v

/-- The label of an outer group is overruled by a member's own empty label, and that by the
    label of an inner group; where neither stands in between, the root's label is left. -/
theorem innermost_label_wins_between_two_groups :
    let leaf : Spec := {}
    let member : Spec := { label := some "", ordinal := some "i", children := [leaf], groups := [⟨"h", [leaf]⟩] }
    let spec : Spec := refresh { label := some "top", children := [{ children := [leaf] }], groups := [⟨"g", [member, leaf]⟩] }
    let v : NamedList := .list [(none, .list [(some "a", .leaf .null)])]
    spec.Fresh ∧ ∃ y, spec.gatherLenient v = .ok y ∧ spec.NamedInnermost v y.records ∧
      y.records.map (·.specName) = [some "top", some "i", some "", some "h", some "g"] := by
  intro leaf member spec v
  have hs : spec.Fresh := fresh_refresh _
  obtain ⟨⟨y, hy, hn⟩, -⟩ := innermost_label_wins hs v
  refine ⟨hs, y, hy, hn, ?_⟩
  have hl : (spec.gatherLenient v).toOption.map (fun y => y.records.map (·.specName)) = some _ := rfl
  rw [hy] at hl
  exact Option.some.inj hl

end Spec

end Harvest
