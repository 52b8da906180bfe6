/-
  Harvest.Proofs.Shown — what a match shows of itself.

  A record shows everything but the tree under its node: its kind, name and entry and the
  output modes of the node. A mismatch shows where it was and what was found. Two walks
  that show the same one after the other yield the same in both modes
  (`gatherLenient_shown`, `gatherStrict_shown`). Whether a node shows the same as another,
  or no more than it, is a matter of its rule and of what is below it (`visit_shown`,
  `trace_shown`, `visit_sublist`, `trace_sublist`).
-/

import Harvest.Proofs.Trace
import Mathlib.Data.List.Basic
import Mathlib.Data.List.Flatten

namespace Harvest

open scoped List

variable {V : Type}

/-! ## Views -/

abbrev Record.Shown (V : Type) := RecordKind × Option String × Entry V × Stack × Treatment

def Record.shown (r : Record V) : Record.Shown V := (r.kind, r.specName, r.entry, r.node.stack, r.node.process)

abbrev Mismatch.Shown (V : Type) := List Hop × V

def Mismatch.shown (m : Mismatch V) : Mismatch.Shown V := (m.path, m.found)

def Yield.shown (y : Yield V) : List (Record.Shown V) × List (Mismatch.Shown V) :=
  (y.records.map Record.shown, y.mismatches.map Mismatch.shown)

/-- What a halt shows; nothing for a stale mark. -/
def Halt.shown : Halt V → Option (Mismatch.Shown V)
  | .mismatch m => some m.shown
  | .stale _ => none

/-- What the result of a strict match shows. -/
def shownStrict (result : Except (Halt V) (List (Record V))) :
    Except (Option (Mismatch.Shown V)) (List (Record.Shown V)) :=
  (result.map (·.map Record.shown)).mapError Halt.shown

def Event.shown? : Event V → Option (Record.Shown V ⊕ Mismatch.Shown V)
  | .record r => some (.inl r.shown)
  | .mismatch m => some (.inr m.shown)
  | _ => none

open Event

/-- What the events of a walk show, in order. -/
def shownOf (events : List (Event V)) : List (Record.Shown V ⊕ Mismatch.Shown V) := events.filterMap shown?

theorem shownOf_append (l m : List (Event V)) : shownOf (l ++ m) = shownOf l ++ shownOf m := List.filterMap_append ..

theorem shownOf_flatMap {α : Type} (l : List α) (f : α → List (Event V)) :
    shownOf (l.flatMap f) = l.flatMap fun a => shownOf (f a) := by
  induction l with
  | nil => rfl
  | cons a l ih => rw [List.flatMap_cons, List.flatMap_cons, shownOf_append, ih]

theorem yieldOf_shown (l : List (Event V)) :
    (yieldOf l).shown = ((shownOf l).filterMap Sum.getLeft?, (shownOf l).filterMap Sum.getRight?) := by
  simp only [Yield.shown, yieldOf, shownOf, List.map_filterMap, List.filterMap_filterMap, Prod.mk.injEq]
  constructor <;> refine List.filterMap_congr fun e _ => ?_ <;> cases e <;> rfl

theorem toExcept_shown {y z : Yield V} (h : y.shown = z.shown) :
    shownStrict (y.toExcept.mapError .mismatch) = shownStrict (z.toExcept.mapError .mismatch) := by
  obtain ⟨hr, hm⟩ := Prod.mk.inj h
  have key : ∀ y : Yield V, shownStrict (y.toExcept.mapError .mismatch) =
      match y.mismatches.map Mismatch.shown with
      | [] => .ok (y.records.map Record.shown)
      | m :: _ => .error (some m) := by
    intro y
    unfold Yield.toExcept
    cases y.mismatches <;> rfl
  rw [key, key, hr, hm]

/-! ## Matches that show the same -/

namespace Spec

variable [Nesting V]

/-- A strict match that meets no stale mark is the lenient one made strict. -/
theorem gatherStrict_of_not_stale {s : Spec} {v : V} (h : ∀ node, s.gatherStrict v ≠ .error (.stale node)) :
    s.gatherStrict v = (yieldOf (s.trace v)).toExcept.mapError .mismatch := by
  rw [gatherStrict_eq] at h ⊢
  unfold Yield.toExcept
  cases hl : (s.trace v).findSome? (halt? .strict) with
  | none =>
    rw [(of_findSome?_halt?_strict_eq_none hl).2]
    rfl
  | some halt =>
    cases halt with
    | stale node => rw [hl] at h; exact absurd rfl (h node)
    | mismatch m =>
      obtain ⟨rest, hr⟩ := List.head?_eq_some_iff.mp (head?_mismatches hl)
      rw [hr]
      rfl

/-- Nodes that put out what they choose the same way, each under the label that comes down
    to it, and of which the second chooses nothing that the first does not. -/
structure Narrows (s : Spec) (label : Option String) (t : Spec) (label' : Option String) : Prop where
  isNil : s.isNil = t.isNil
  isLeaf : s.isLeaf = t.isLeaf
  accepts : ∀ position name, t.filter.accepts position name → s.filter.accepts position name
  ordinal : s.ordinal = t.ordinal
  stack : s.stack = t.stack
  process : s.process = t.process
  label : s.label.or label = t.label.or label'

variable {s t : Spec} {label label' : Option String}

omit [Nesting V] in
theorem Narrows.shownOf_ordinals (h : Narrows s label t label') (e : Entry V) :
    shownOf ((t.ordinals e).map .record) = shownOf ((s.ordinals e).map .record) := by
  unfold ordinals
  rw [h.ordinal]
  cases t.ordinal with
  | none => rfl
  | some name => simp [shownOf, shown?, Record.shown, h.stack, h.process]

omit [Nesting V] in
theorem Narrows.accepted (h : Narrows s label t label') {entries entries' : List (Entry V)} (he : entries' <+ entries) :
    t.accepted entries' <+ s.accepted entries :=
  (List.monotone_filter_right entries' fun _ ha => h.accepts _ _ ha).trans (he.filter _)

/-- Of fewer entries a narrower node shows no more, if the nodes below it show no more
    inside the same container. -/
theorem visit_sublist (h : Narrows s label t label')
    (hd : ∀ path (inside : List (Entry V)), shownOf (descend (t.label.or label') path inside t) <+
      shownOf (descend (s.label.or label) path inside s))
    (path : List Hop) {entries entries' : List (Entry V)} (he : entries' <+ entries) :
    shownOf (visit label' path entries' t) <+ shownOf (visit label path entries s) := by
  have hp : ∀ e : Entry V, shownOf (pick label' path t e) <+ shownOf (pick label path s e) := by
    intro e
    unfold pick
    rw [h.isLeaf]
    cases t.isLeaf with
    | true =>
      have hr : shownOf [.record ⟨.value, t.label.or label', e, t⟩] =
          shownOf [.record ⟨.value, s.label.or label, e, s⟩] := by
        simp [shownOf, shown?, Record.shown, h.stack, h.process, h.label]
      simp only [if_true, shownOf_append, h.shownOf_ordinals, hr, List.Sublist.refl]
    | false =>
      cases Nesting.entries e.value with
      | none => exact List.Sublist.refl _
      | some inside =>
        simp only [Bool.false_eq_true, if_false, shownOf_append, h.shownOf_ordinals]
        exact (List.Sublist.refl _).append (hd _ inside)
  cases hn : t.isNil with
  | true =>
    rw [visit_of_isNil hn]
    exact List.nil_sublist _
  | false =>
    rw [visit_of_not_isNil hn, visit_of_not_isNil (h.isNil.trans hn)]
    show shownOf ((t.accepted entries').flatMap _) <+ shownOf ((s.accepted entries).flatMap _)
    rw [shownOf_flatMap, shownOf_flatMap]
    exact (List.Sublist.flatMap_right _ fun e _ => hp e).trans ((h.accepted he).flatMap _)

/-- The same for a whole walk: at an inner root the nodes below see what the root accepts. -/
theorem trace_sublist (h : Narrows s none t none)
    (hd : ∀ entries : List (Entry V), shownOf (descend t.label [] (t.accepted entries) t) <+
      shownOf (descend s.label [] (s.accepted entries) s)) (v : V) :
    shownOf (t.trace v) <+ shownOf (s.trace v) := by
  unfold trace
  rw [h.isNil, h.isLeaf]
  cases t.isNil with
  | true => exact List.Sublist.refl _
  | false =>
    cases Nesting.entries v with
    | none => exact List.Sublist.refl _
    | some entries =>
      have he := List.Sublist.refl entries
      cases hl : t.isLeaf with
      | true =>
        refine visit_sublist h (fun path inside => ?_) [] he
        rw [descend_of_isLeaf hl]
        exact List.nil_sublist _
      | false =>
        show shownOf (_ ++ _) <+ shownOf (_ ++ _)
        rw [shownOf_append, shownOf_append]
        refine List.Sublist.append ?_ (hd entries)
        show shownOf (List.flatMap _ _) <+ shownOf (List.flatMap _ _)
        rw [shownOf_flatMap, shownOf_flatMap, List.flatMap_congr fun e _ => h.shownOf_ordinals e]
        exact (h.accepted he).flatMap _

/-- Nodes that choose the same entries and put them out the same way, each under the
    label that comes down to it. -/
structure Alike (s : Spec) (label : Option String) (t : Spec) (label' : Option String) : Prop where
  isNil : s.isNil = t.isNil
  isLeaf : s.isLeaf = t.isLeaf
  filter : s.filter = t.filter
  ordinal : s.ordinal = t.ordinal
  stack : s.stack = t.stack
  process : s.process = t.process
  label : s.label.or label = t.label.or label'

omit [Nesting V] in
theorem alike_of_rule (h : t.toRule = s.toRule) (hl : t.isLeaf = s.isLeaf) (label : Option String) :
    Alike s label t label where
  isNil := by rw [h]
  isLeaf := hl.symm
  filter := by rw [h]
  ordinal := by rw [h]
  stack := by rw [h]
  process := by rw [h]
  label := by rw [h]

omit [Nesting V] in
theorem Alike.symm (h : Alike s label t label') : Alike t label' s label :=
  ⟨h.isNil.symm, h.isLeaf.symm, h.filter.symm, h.ordinal.symm, h.stack.symm, h.process.symm, h.label.symm⟩

omit [Nesting V] in
theorem Alike.narrows (h : Alike s label t label') : Narrows s label t label' :=
  ⟨h.isNil, h.isLeaf, fun _ _ ha => h.filter ▸ ha, h.ordinal, h.stack, h.process, h.label⟩

theorem visit_shown (h : Alike s label t label')
    (hd : ∀ path (inside : List (Entry V)), shownOf (descend (s.label.or label) path inside s) =
      shownOf (descend (t.label.or label') path inside t)) (path : List Hop) (entries : List (Entry V)) :
    shownOf (visit label path entries s) = shownOf (visit label' path entries t) := by
  have he := List.Sublist.refl entries
  apply List.Sublist.antisymm
  · exact visit_sublist h.symm.narrows (fun path inside => by rw [hd]) path he
  · exact visit_sublist h.narrows (fun path inside => by rw [hd]) path he

theorem trace_shown (h : Alike s none t none)
    (hd : ∀ path (inside : List (Entry V)), shownOf (descend s.label path inside s) =
      shownOf (descend t.label path inside t)) (v : V) :
    shownOf (s.trace v) = shownOf (t.trace v) := by
  have ha : ∀ entries : List (Entry V), s.accepted entries = t.accepted entries := by
    intro entries
    rw [Rule.accepted, Rule.accepted, h.filter]
  apply List.Sublist.antisymm
  · exact trace_sublist h.symm.narrows (fun entries => by rw [ha, hd]) v
  · exact trace_sublist h.narrows (fun entries => by rw [ha, hd]) v

theorem gatherLenient_shown {v : V} (hs : (s.trace v).findSome? stale? = none)
    (ht : (t.trace v).findSome? stale? = none) (h : shownOf (s.trace v) = shownOf (t.trace v)) :
    ∃ y z, s.gatherLenient v = .ok y ∧ t.gatherLenient v = .ok z ∧ y.shown = z.shown := by
  refine ⟨_, _, gatherLenient_eq_ok_iff.mpr ⟨hs, rfl⟩, gatherLenient_eq_ok_iff.mpr ⟨ht, rfl⟩, ?_⟩
  rw [yieldOf_shown, yieldOf_shown, h]

theorem gatherStrict_shown {v : V} (hs : ∀ node, s.gatherStrict v ≠ .error (.stale node))
    (ht : ∀ node, t.gatherStrict v ≠ .error (.stale node)) (h : shownOf (s.trace v) = shownOf (t.trace v)) :
    shownStrict (s.gatherStrict v) = shownStrict (t.gatherStrict v) := by
  rw [gatherStrict_of_not_stale hs, gatherStrict_of_not_stale ht]
  exact toExcept_shown (by rw [yieldOf_shown, yieldOf_shown, h])

end Spec

end Harvest
