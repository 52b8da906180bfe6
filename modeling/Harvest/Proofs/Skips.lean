/-
  Harvest.Proofs.Skips — the branches that a lenient match skips.

  An inner node that takes a scalar cannot enter it: the route that leads there is skipped
  (`Spec.Skips`). A match reports each skipped route once, in the order of the walk, with
  the node, the hops from the input to the scalar and the kind of the scalar. The path is
  right at every depth because each hop is taken back where it was taken, also behind a
  skipped branch (`mismatches_trace` reads this off the stops of the walk).

  Nothing is put out at the end of a skipped route, not even a position, and all other
  routes put out what they do without it (`records_of_kept`). A root that needs a container
  and has none is reported at `$`, a leaf no less than an inner node.
-/

import Harvest.NamedList
import Harvest.Proofs.Naming

namespace Harvest

variable {V : Type} [Nesting V]

/-! ## Skipped routes -/

/-- What is reported of a mismatch: the node, the path and the kind of what was found. -/
def Mismatch.report (m : Mismatch V) : String × String × String := (m.node.text, pathText m.path, m.kind)

/-- The last node of the route is an inner one and its last entry a scalar. -/
def Spec.Skips (root : Spec) (v : V) (r : Route V) : Prop :=
  root.IsRoute v r ∧ ∃ leg, r.getLast? = some leg ∧ leg.node.isLeaf = false ∧ Nesting.entries leg.entry.value = none

/-- The mismatch tells of the end of the route: a segment for each entry on it, by its name
    or else by its position. -/
def Mismatch.TellsOf (r : Route V) (m : Mismatch V) : Prop :=
  ∃ leg, r.getLast? = some leg ∧ m.node = leg.node ∧ m.found = leg.entry.value ∧
    m.report = (leg.node.text,
      "$" ++ String.join (r.map fun leg => leg.entry.name.elim ("[" ++ toString leg.entry.position ++ "]") ("." ++ ·)),
      Nesting.kind leg.entry.value)

namespace Route

/-- The mismatch at the end of a route that cannot be followed. -/
def mismatch? (r : Route V) : Option (Mismatch V) :=
  match r.getLast? with
  | none => none
  | some leg =>
    if leg.node.isLeaf then none
    else match Nesting.entries leg.entry.value with
      | none => some ⟨leg.node, r.hops, leg.entry.value⟩
      | some _ => none

theorem mismatch?_isSome_iff {r : Route V} :
    r.mismatch?.isSome ↔
      ∃ leg, r.getLast? = some leg ∧ leg.node.isLeaf = false ∧ Nesting.entries leg.entry.value = none := by
  unfold mismatch?
  cases r.getLast? with
  | none => simp
  | some leg =>
    cases hl : leg.node.isLeaf with
    | true => simp [hl]
    | false => cases he : Nesting.entries leg.entry.value <;> simp [hl, he]

theorem tellsOf_of_mismatch? {r : Route V} {m : Mismatch V} (h : r.mismatch? = some m) : m.TellsOf r := by
  have hsegments : r.hops.map Hop.text =
      r.map fun leg => leg.entry.name.elim ("[" ++ toString leg.entry.position ++ "]") ("." ++ ·) := by
    unfold hops
    rw [List.map_map]
    apply List.map_congr_left
    intro leg _
    show Hop.text ⟨leg.entry.position, leg.entry.name⟩ = _
    cases leg.entry.name <;> rfl
  obtain ⟨leg, hlast, hl, he⟩ := mismatch?_isSome_iff.mp (Option.isSome_iff_exists.mpr ⟨m, h⟩)
  have hm : m = ⟨leg.node, r.hops, leg.entry.value⟩ := by simpa [mismatch?, hlast, hl, he] using h.symm
  subst hm
  refine ⟨leg, hlast, rfl, rfl, ?_⟩
  rw [← hsegments]
  rfl

/-- Where a branch is skipped nothing is put out. -/
theorem records_of_mismatch? {r : Route V} (root : Spec) (h : r.mismatch?.isSome) : r.records root = [] := by
  obtain ⟨leg, hlast, hl, he⟩ := mismatch?_isSome_iff.mp h
  simp [records, hlast, hl, he]

end Route

/-! ## The mismatches of a walk -/

omit [Nesting V] in
theorem filterMap_mismatch?_map (l : List (Record V)) : (l.map Event.record).filterMap Event.mismatch? = [] := by
  apply List.filterMap_eq_nil_iff.mpr
  intro e he
  obtain ⟨record, -, rfl⟩ := List.mem_map.mp he
  rfl

theorem Stop.mismatches_events (outer : Option String) (stop : Stop V) :
    (stop.events outer []).filterMap Event.mismatch? = stop.missed?.toList := by
  cases stop with
  | bar | look => rfl
  | start root entries =>
    have ho : ((root.accepted entries).flatMap fun e => (root.ordinals e).map Event.record).filterMap
        Event.mismatch? = [] := by
      rw [List.filterMap_flatMap]
      exact List.flatMap_eq_nil_iff.mpr fun e _ => filterMap_mismatch?_map _
    rw [events]
    cases root.isLeaf with
    | true => rfl
    | false => exact ho
  | take entered leg =>
    simp only [events, Leg.events, missed?]
    cases leg.node.isLeaf with
    | true =>
      simp only [if_true, List.filterMap_append, filterMap_mismatch?_map]
      rfl
    | false =>
      cases Nesting.entries leg.entry.value with
      | none => rfl
      | some inside => exact filterMap_mismatch?_map _

theorem Stop.missed?_eq_mismatch? {stop : Stop V} (h : ∀ root found, stop ≠ .bar root found) :
    stop.missed? = stop.route?.bind Route.mismatch? := by
  cases stop with
  | bar root found => exact absurd rfl (h root found)
  | start | look => rfl
  | take entered leg =>
    have hlast : (entered ++ [leg]).getLast? = some leg := List.getLast?_concat
    cases hl : leg.node.isLeaf with
    | true => simp [missed?, route?, Route.mismatch?, hlast, hl]
    | false => cases he : Nesting.entries leg.entry.value <;> simp [missed?, route?, Route.mismatch?, hlast, hl, he]

namespace Spec

variable {root : Spec} {v : V}

theorem mismatches_trace (root : Spec) (v : V) :
    (Event.yieldOf (root.trace v)).mismatches = (root.stops v).filterMap Stop.missed? := by
  show (root.trace v).filterMap Event.mismatch? = _
  rw [trace_eq_stops, List.filterMap_flatMap, List.filterMap_eq_flatMap_toList]
  exact List.flatMap_congr fun stop _ => Stop.mismatches_events root.label stop

/-- Unless the input itself is the scalar, the mismatches are those of the routes. -/
theorem mismatches_of_routes (h : root.isNil ∨ (Nesting.entries v).isSome) :
    (Event.yieldOf (root.trace v)).mismatches = (root.routes v).filterMap Route.mismatch? := by
  have hbar : ∀ stop ∈ root.stops v, ∀ node found, stop ≠ .bar node found := by
    rintro stop hs node found rfl
    cases mem_stops.mp hs with
    | bar hn he => simp [hn, he] at h
    | below hn he hl hs => exact hs.elim
  rw [mismatches_trace, routes, List.filterMap_filterMap]
  exact List.filterMap_congr fun stop hs => Stop.missed?_eq_mismatch? (hbar stop hs)

theorem skips_iff {r : Route V} : root.Skips v r ↔ root.IsRoute v r ∧ r.mismatch?.isSome := by
  rw [Skips, Route.mismatch?_isSome_iff]

theorem mem_skipped {r : Route V} : r ∈ (root.routes v).filter (·.mismatch?.isSome) ↔ root.Skips v r := by
  rw [List.mem_filter, mem_routes, skips_iff]

theorem mem_kept {r : Route V} :
    r ∈ (root.routes v).filter (!·.mismatch?.isSome) ↔ root.IsRoute v r ∧ ¬ root.Skips v r := by
  rw [List.mem_filter, mem_routes, skips_iff]
  cases r.mismatch?.isSome <;> simp

theorem mismatches_of_skipped (h : root.isNil ∨ (Nesting.entries v).isSome) :
    List.Forall₂ (fun r m => m.TellsOf r) ((root.routes v).filter (·.mismatch?.isSome))
      (Event.yieldOf (root.trace v)).mismatches := by
  rw [mismatches_of_routes h, List.filterMap_eq_flatMap_toList]
  apply forall₂_filter_flatMap
  intro r _
  cases hm : r.mismatch? with
  | none => simp
  | some m => simpa using Route.tellsOf_of_mismatch? hm

/-- The records are those of the routes that are not skipped. -/
theorem records_of_kept (root : Spec) (v : V) :
    (Event.yieldOf (root.trace v)).records =
      root.rootOrdinals v ++ ((root.routes v).filter (!·.mismatch?.isSome)).flatMap (Route.records root) := by
  have hr : ∀ l : List (Route V),
      l.flatMap (Route.records root) = (l.filter (!·.mismatch?.isSome)).flatMap (Route.records root) := by
    intro l
    induction l with
    | nil => rfl
    | cons r l ih =>
      by_cases h : r.mismatch?.isSome
      · rw [List.flatMap_cons, Route.records_of_mismatch? root h, List.nil_append, ih,
          List.filter_cons_of_neg (by simp [h])]
      · rw [List.flatMap_cons, ih, List.filter_cons_of_pos (by simp [h]), List.flatMap_cons]
  rw [records_trace, hr]

theorem trace_of_scalar (hn : root.isNil = false) (he : Nesting.entries v = none) :
    root.trace v = [.mismatch ⟨root, [], v⟩] := by
  simp [trace, hn, he]

/-- A lenient match of a fresh tree reports a scalar input at `$`, and else each skipped
    route once, in the order of their addresses. It puts out nothing for these, and for all
    other routes what it does without them. -/
theorem skipped_branches_leave_no_trace {s : Spec} (hs : s.Fresh) (v : V) :
    ∃ y, s.gatherLenient v = .ok y ∧
      (s.isNil = false → Nesting.entries v = none →
        y.mismatches.map Mismatch.report = [(s.text, "$", Nesting.kind v)] ∧ y.records = []) ∧
      (s.isNil ∨ (Nesting.entries v).isSome → ∃ skipped kept : List (Route V),
        (skipped.Pairwise (fun r r' => r.address < r'.address) ∧ (∀ r, r ∈ skipped ↔ s.Skips v r) ∧
          List.Forall₂ (fun r m => m.TellsOf r) skipped y.mismatches) ∧
        (kept.Pairwise (fun r r' => r.address < r'.address) ∧ (∀ r, r ∈ kept ↔ s.IsRoute v r ∧ ¬ s.Skips v r) ∧
          y.records = s.rootOrdinals v ++ kept.flatMap (Route.records s))) := by
  have ha := routes_ascending s v
  refine ⟨_, hs.gatherLenient_eq v, ?_, ?_⟩
  · intro hn he
    rw [trace_of_scalar hn he]
    exact ⟨rfl, rfl⟩
  · intro h
    exact ⟨_, _, ⟨ha.filter _, fun _ => mem_skipped, mismatches_of_skipped h⟩,
      ha.filter _, fun _ => mem_kept, records_of_kept s v⟩

/-- Two children cannot enter the scalar, and a node two hops in has none to enter. The
    first child names the position of the container, which it has entered, but not that of
    the scalar; the leaf takes both. -/
theorem skipped_branches_leave_no_trace_of_three :
    let leaf : Spec := {}
    let inner : Spec := { children := [leaf] }
    let spec : Spec := refresh { children := [{ ordinal := some "n", children := [inner] }, inner, leaf] }
    let v : NamedList := .list [(none, .leaf .null), (some "a", .list [(none, .leaf .null)])]
    spec.Fresh ∧ (Nesting.entries v).isSome ∧ ∃ y, ∃ skipped : List (Route NamedList), spec.gatherLenient v = .ok y ∧
      (∀ r, r ∈ skipped ↔ spec.Skips v r) ∧ List.Forall₂ (fun r m => m.TellsOf r) skipped y.mismatches ∧
      y.mismatches.map (·.report.2) = [("$[0]", "leaf"), ("$.a[0]", "leaf"), ("$[0]", "leaf")] ∧
      y.records.map (fun r => (r.specName, r.entry.hop)) =
        [(some "n", ⟨1, some "a"⟩), (none, ⟨0, none⟩), (none, ⟨0, none⟩), (none, ⟨1, some "a"⟩)] := by
  intro leaf inner spec v
  have hs : spec.Fresh := fresh_refresh _
  obtain ⟨y, hy, -, h⟩ := skipped_branches_leave_no_trace hs v
  obtain ⟨skipped, -, ⟨-, hm, ht⟩, -⟩ := h (Or.inr rfl)
  have hl : (spec.gatherLenient v).toOption.map
      (fun y => (y.mismatches.map (·.report.2), y.records.map fun r => (r.specName, r.entry.hop))) = some (_, _) := rfl
  rw [hy] at hl
  obtain ⟨hp, hr⟩ := Prod.mk.inj (Option.some.inj hl)
  exact ⟨hs, rfl, y, skipped, hy, hm, ht, hp, hr⟩

end Spec

end Harvest
