/-
  Harvest.Proofs.Wrapping — a tree under a plain root.

  A root has its own part of the walk: it describes the value itself, where every other
  node looks at the entries of a container. For an inner node without filter and ordinal
  name this makes no difference. With a plain node above it (`Spec.wrapped`) it meets a
  value that is the only entry of its container as it met that value as the root
  (`yieldOf_trace_wrapped`), down to the node in each record, and only the paths of the
  mismatches are longer, by the hop to the entry (`wrapping_adds_one_hop`).

  What is below a node does not depend on where it is but for the paths it reports, and
  these have the path of the node in front (`descend_path_cons`).
-/

import Harvest.Proofs.Reach

namespace Harvest

variable {V : Type}

/-! ## One hop further out -/

def Mismatch.under (hop : Hop) (m : Mismatch V) : Mismatch V := { m with path := hop :: m.path }

def Yield.under (hop : Hop) (y : Yield V) : Yield V := { y with mismatches := y.mismatches.map (.under hop) }

def Halt.under (hop : Hop) : Halt V → Halt V
  | .mismatch m => .mismatch (m.under hop)
  | .stale node => .stale node

def Event.under (hop : Hop) : Event V → Event V
  | .mismatch m => .mismatch (m.under hop)
  | e => e

theorem yieldOf_map_under (hop : Hop) (l : List (Event V)) :
    Event.yieldOf (l.map (Event.under hop)) = (Event.yieldOf l).under hop := by
  simp only [Event.yieldOf, Yield.under, List.filterMap_map, List.map_filterMap, Yield.mk.injEq]
  constructor <;> refine List.filterMap_congr fun e _ => ?_ <;> cases e <;> rfl

theorem Yield.toExcept_under (hop : Hop) (y : Yield V) :
    ((y.under hop).toExcept.mapError .mismatch : Except (Halt V) _) =
      (y.toExcept.mapError .mismatch).mapError (Halt.under hop) := by
  obtain ⟨records, mismatches⟩ := y
  cases mismatches <;> rfl

/-- The text of the hop stands right after the sign of the root. -/
theorem pathText_cons (hop : Hop) (path : List Hop) :
    ∃ rest, pathText path = "$" ++ rest ∧ pathText (hop :: path) = "$" ++ hop.text ++ rest :=
  ⟨String.join (path.map Hop.text), rfl, by rw [pathText, List.map_cons, String.join_cons, String.append_assoc]⟩

/-! ## Paths in front -/

variable [Nesting V]

theorem Stop.OccursIn.events_path_cons {stop : Stop V} {node : Spec} {entries : List (Entry V)}
    (h : stop.OccursIn node entries) (label : Option String) (hop : Hop) (path : List Hop) :
    stop.events label (hop :: path) = (stop.events label path).map (Event.under hop) := by
  have hrecords : ∀ l : List (Record V), (l.map Event.record).map (Event.under hop) = l.map Event.record := by
    intro l
    rw [List.map_map]
    rfl
  cases stop with
  | bar | start => exact h.elim
  | look => rfl
  | take entered leg =>
    simp only [Stop.events, Leg.events]
    cases leg.node.isLeaf with
    | true => simp only [if_true, List.map_append, hrecords]; rfl
    | false =>
      cases Nesting.entries leg.entry.value with
      | none => rfl
      | some inside => exact (hrecords _).symm

namespace Spec

theorem descend_path_cons (label : Option String) (hop : Hop) (path : List Hop) (entries : List (Entry V)) (s : Spec) :
    descend label (hop :: path) entries s = (descend label path entries s).map (Event.under hop) := by
  rw [descend_eq_stops, descend_eq_stops, List.map_flatMap]
  apply List.flatMap_congr
  intro stop h
  exact (mem_stopsBelow.mp h).events_path_cons label hop path

/-! ## The plain root -/

/-- The tree as the only child of a node without type, with the marks set. -/
def wrapped (s : Spec) : Spec := ((ofType "").addChild s).refresh

variable {s : Spec} {c v : V} {e : Entry V}

section

variable (hn : s.isNil = false) (hl : s.isLeaf = false) (hf : s.filter.isEmpty) (ho : s.ordinal = none)

include hn hl hf ho

/-- A root without filter and ordinal name has no part of its own but the check of its mark. -/
theorem trace_of_plain {inside : List (Entry V)} (hv : Nesting.entries v = some inside) :
    s.trace v = .check s :: descend s.label [] inside s := by
  have hordinals : (inside.flatMap fun e => (s.ordinals e).map Event.record) = [] := by
    refine List.flatMap_eq_nil_iff.mpr fun e _ => ?_
    rw [ordinals, ho]
    rfl
  rw [trace, hn, hv, hl]
  show .check s :: (((s.accepted inside).flatMap fun e => (s.ordinals e).map Event.record) ++
    descend s.label [] (s.accepted inside) s) = _
  rw [Rule.accepted_of_isEmpty hf, hordinals, List.nil_append]

/-- An inner node without filter and ordinal name at a lone entry, and as a root at its value. -/
theorem yieldOf_visit_lone (e : Entry V) :
    Event.yieldOf (visit none [] [e] s) = (Event.yieldOf (s.trace e.value)).under e.hop := by
  -- as a node it also says what it chose, which puts nothing out
  have hpick : Event.yieldOf (visit none [] [e] s) = Event.yieldOf (pick none [] s e) := by
    rw [visit_of_not_isNil hn, Rule.accepted_of_isEmpty hf, List.flatMap_singleton]
    rfl
  rw [hpick, pick, hl]
  cases hv : Nesting.entries e.value with
  | none =>
    rw [trace, hn, hv]
    rfl
  | some inside =>
    rw [trace_of_plain hn hl hf ho hv, ordinals, ho, Option.or_none]
    show Event.yieldOf (descend s.label [e.hop] inside s) = _
    rw [descend_path_cons, yieldOf_map_under]
    rfl

theorem yieldOf_trace_wrapped (hs : s.Fresh) (hc : Nesting.entries c = some [e]) :
    Event.yieldOf (s.wrapped.trace c) = (Event.yieldOf (s.trace e.value)).under e.hop := by
  have hplain : s.wrapped = { ({} : Spec) with terminal := s.terminal, children := [s] } := by
    rw [wrapped, ofType, show TypeTag.ofText "" = .untyped by decide +kernel, refresh_eq]
    show refreshRoot { ({} : Spec) with children := [s.refresh] } = _
    rw [hs, refreshRoot]
    exact congrArg (fun mark => ({ ({} : Spec) with terminal := mark, children := [s] } : Spec)) (Bool.and_true _)
  rw [hplain, trace_of_plain rfl rfl rfl rfl hc, descend]
  show Event.yieldOf (visit none [] [e] s ++ []) = _
  rw [List.append_nil, yieldOf_visit_lone hn hl hf ho]

end

/-- A fresh inner tree without filter and ordinal name at its root is made the only child of a
    plain root, and a value the only entry of a container. What the new tree finds in the
    container is what the old one finds in the value: the same records, and for each branch
    that is skipped the same node and scalar, one hop further down. A strict match ends the
    same way. In the text of a path the hop takes its place after the sign of the root. -/
theorem wrapping_adds_one_hop (hs : s.Fresh) (hn : s.isNil = false) (hl : s.isLeaf = false) (hf : s.filter.isEmpty)
    (ho : s.ordinal = none) {name : Option String} (hc : Nesting.entries c = some [⟨0, name, v⟩]) :
    (∃ y, s.gatherLenient v = .ok y ∧ s.wrapped.gatherLenient c = .ok (y.under ⟨0, name⟩)) ∧
      s.wrapped.gatherStrict c = (s.gatherStrict v).mapError (Halt.under ⟨0, name⟩) ∧
      ∀ m : Mismatch V, ∃ rest, pathText m.path = "$" ++ rest ∧
        pathText (m.under ⟨0, name⟩).path = name.elim "$[0]" ("$." ++ ·) ++ rest := by
  have hw : s.wrapped.Fresh := fresh_refresh _
  have hyield := yieldOf_trace_wrapped hn hl hf ho hs hc
  refine ⟨⟨_, hs.gatherLenient_eq v, ?_⟩, ?_, ?_⟩
  · rw [hw.gatherLenient_eq, hyield]
    rfl
  · rw [gatherStrict_of_no_stale (hw.findSome?_stale? c), gatherStrict_of_no_stale (hs.findSome?_stale? v), hyield]
    exact Yield.toExcept_under _ _
  · intro m
    obtain ⟨rest, hm, hunder⟩ := pathText_cons ⟨0, name⟩ m.path
    refine ⟨rest, hm, hunder.trans ?_⟩
    cases name with
    | none => rfl
    | some name =>
      show "$" ++ ("." ++ name) ++ rest = "$." ++ name ++ rest
      rw [← String.append_assoc]
      rfl

/-- The array is found under a name and a branch of it is skipped; the scalar, found under
    none, is skipped as a whole. -/
theorem wrapping_adds_one_hop_with_and_without_a_name :
    let leaf : Spec := {}
    let inner : Spec := { type := .named "a", label := some "x", children := [leaf] }
    let spec : Spec := refresh { label := some "top", children := [inner], groups := [⟨"g", [leaf]⟩] }
    let v : Json := .array [.null, .array [.null]]
    spec.Fresh ∧
      (∃ y, spec.gatherLenient v = .ok y ∧
        spec.wrapped.gatherLenient (.object [("k", v)] : Json) = .ok (y.under ⟨0, some "k"⟩) ∧
        y.records.map (·.specName) = [some "x", some "g", some "g"] ∧
        y.mismatches.map (fun m => pathText m.path) = ["$[0]"] ∧
        (y.under ⟨0, some "k"⟩).mismatches.map (fun m => pathText m.path) = ["$.k[0]"]) ∧
      spec.wrapped.gatherStrict (.array [.null] : Json) = .error (.mismatch ⟨spec, [⟨0, none⟩], .null⟩) := by
  intro leaf inner spec v
  have hs : spec.Fresh := fresh_refresh _
  obtain ⟨⟨y, hy, hw⟩, -, -⟩ :=
    wrapping_adds_one_hop (c := (.object [("k", v)] : Json)) (v := v) hs rfl rfl rfl rfl rfl
  obtain ⟨-, hscalar, -⟩ :=
    wrapping_adds_one_hop (c := (.array [.null] : Json)) (v := (.null : Json)) hs rfl rfl rfl rfl rfl
  have hly : (spec.gatherLenient v).toOption.map (fun y => (y.records.map (·.specName),
      y.mismatches.map (fun m => pathText m.path),
      (y.under ⟨0, some "k"⟩).mismatches.map (fun m => pathText m.path))) = some (_, _, _) := rfl
  rw [hy] at hly
  obtain ⟨hrecords, hpaths⟩ := Prod.mk.inj (Option.some.inj hly)
  obtain ⟨hpath, hunder⟩ := Prod.mk.inj hpaths
  refine ⟨hs, ⟨y, hy, hw, hrecords, ?_, ?_⟩, hscalar⟩
  · exact hpath.trans (by decide +kernel)
  · exact hunder.trans (by decide +kernel)

end Spec

end Harvest
