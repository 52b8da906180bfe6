/-
  Harvest.Proofs.Routes — the records of a match are its routes.

  A lenient match of a fresh tree puts out, for each route of the tree into the value, the
  position of the last entry if the last node names positions and is a leaf or has come
  into a container, and then the entry itself if the last node is a leaf. It puts out
  nothing else but the positions of the entries an inner root accepts, which come first.
  The routes come in the order of their addresses, each once (`records_are_the_routes`).

  The absent node is the exception among the roots: it is a leaf without a filter, and
  still it puts nothing out (`the_absent_root_puts_nothing_out`).
-/

import Harvest.NamedList
import Harvest.Proofs.Reach

namespace Harvest

variable {V : Type} [Nesting V]

/-- What is put out at the end of a route. -/
def Route.records (root : Spec) (r : Route V) : List (Record V) :=
  match r.getLast? with
  | none => []
  | some leg =>
    (if leg.node.isLeaf || (Nesting.entries leg.entry.value).isSome then leg.node.ordinals leg.entry else []) ++
      (if leg.node.isLeaf then [⟨.value, r.label root.label, leg.entry, leg.node⟩] else [])

/-- The route whose end the stop is. -/
def Stop.route? : Stop V → Option (Route V)
  | take entered leg => some (entered ++ [leg])
  | _ => none

namespace Spec

/-- The positions that an inner root puts out. -/
def rootOrdinals (root : Spec) (v : V) : List (Record V) :=
  if root.isNil || root.isLeaf then []
  else match Nesting.entries v with
    | none => []
    | some entries => (root.accepted entries).flatMap root.ordinals

def routes (root : Spec) (v : V) : List (Route V) := (root.stops v).filterMap Stop.route?

theorem mem_routes {root : Spec} {v : V} {r : Route V} : r ∈ root.routes v ↔ root.IsRoute v r := by
  rw [isRoute_iff, routes, List.mem_filterMap]
  constructor
  · rintro ⟨stop, hs, hr⟩
    cases stop with
    | take entered leg => exact ⟨entered, leg, (Option.some.inj hr).symm, hs⟩
    | _ => cases hr
  · rintro ⟨entered, leg, rfl, hs⟩
    exact ⟨_, hs, rfl⟩

theorem routes_ascending (root : Spec) (v : V) : (root.routes v).Pairwise fun r r' => r.address < r'.address := by
  refine List.pairwise_filterMap.mpr ((stops_ascending root v).imp ?_)
  intro a b hab r hr r' hr'
  cases a with
  | take entered leg =>
    cases b with
    | take entered' leg' =>
      rw [← Option.some.inj hr, ← Option.some.inj hr']
      exact hab
    | _ => cases hr'
  | _ => cases hr

omit [Nesting V] in
theorem filterMap_record?_map (l : List (Record V)) : (l.map Event.record).filterMap Event.record? = l := by
  rw [List.filterMap_map]
  exact List.filterMap_some

/-- What is put out at a stop after the start. -/
theorem records_events {stop : Stop V} (root : Spec) (h : [] < stop.address) :
    (stop.events root.label []).filterMap Event.record? = (stop.route?.map (Route.records root)).getD [] := by
  cases stop with
  | look => rfl
  | bar | start => exact absurd h (lt_irrefl _)
  | take entered leg =>
    have hl : (entered ++ [leg]).getLast? = some leg := List.getLast?_concat
    simp only [Stop.events, Stop.route?, Option.map_some, Option.getD_some, Route.records, hl, Leg.events]
    cases leg.node.isLeaf with
    | true => simp only [if_true, Bool.true_or, List.filterMap_append, filterMap_record?_map]; rfl
    | false =>
      cases Nesting.entries leg.entry.value with
      | none => rfl
      | some inside =>
        simp only [Bool.false_eq_true, if_false, Bool.false_or, Option.isSome_some, if_true, filterMap_record?_map,
          List.append_nil]

/-- What the stops after the start put out, their routes put out. -/
theorem records_of_stops {l : List (Stop V)} (root : Spec) (h : ∀ stop ∈ l, [] < stop.address) :
    (l.flatMap (Stop.events root.label [])).filterMap Event.record? =
      (l.filterMap Stop.route?).flatMap (Route.records root) := by
  induction l with
  | nil => rfl
  | cons stop l ih =>
    rw [List.flatMap_cons, List.filterMap_append, records_events root (h stop (List.mem_cons_self ..)),
      ih fun st hst => h st (List.mem_cons_of_mem _ hst), List.filterMap_cons]
    cases stop.route? <;> rfl

theorem records_start (root : Spec) (entries : List (Entry V)) :
    (Stop.events root.label [] (.start root entries)).filterMap Event.record? =
      if root.isLeaf then [] else (root.accepted entries).flatMap root.ordinals := by
  have ho : ((root.accepted entries).flatMap fun e => (root.ordinals e).map Event.record).filterMap Event.record? =
      (root.accepted entries).flatMap root.ordinals := by
    rw [List.filterMap_flatMap]
    exact List.flatMap_congr fun e _ => filterMap_record?_map _
  rw [Stop.events]
  cases root.isLeaf with
  | true => rfl
  | false => exact ho

theorem records_trace (root : Spec) (v : V) :
    (Event.yieldOf (root.trace v)).records = root.rootOrdinals v ++ (root.routes v).flatMap (Route.records root) := by
  show (root.trace v).filterMap Event.record? = _
  rw [trace_eq_stops, routes]
  unfold stops rootOrdinals
  cases root.isNil with
  | true => rfl
  | false =>
    cases Nesting.entries v with
    | none => cases root.isLeaf <;> rfl
    | some entries =>
      have hpos : ∀ stop ∈ root.stopsFrom entries, [] < stop.address := by
        intro stop hs
        exact address_pos_of_mem_stopsFrom hs
      simp only [Bool.false_eq_true, if_false, Bool.false_or, List.flatMap_cons, List.filterMap_append, records_start,
        records_of_stops root hpos]
      rfl

/-- A lenient match of a fresh tree puts out the positions that an inner root gives, and
    then what stands at the end of each route, in the order of the routes, each once. -/
theorem records_are_the_routes {s : Spec} (hs : s.Fresh) (v : V) :
    ∃ y, ∃ routes : List (Route V), s.gatherLenient v = .ok y ∧
      routes.Pairwise (fun r r' => r.address < r'.address) ∧
      (∀ r, r ∈ routes ↔ s.IsRoute v r) ∧
      y.records = s.rootOrdinals v ++ routes.flatMap (Route.records s) :=
  ⟨_, s.routes v, hs.gatherLenient_eq v, routes_ascending s v, fun _ => mem_routes, records_trace s v⟩

/-- The first child names what it takes of the two containers, the absent one takes
    nothing, and the member of the group enters the second. -/
theorem records_are_the_routes_of_three_branches :
    let entering : Spec := { ordinal := some "i", children := [{ label := some "x" }] }
    let spec : Spec := refresh { children := [{ ordinal := some "n" }, nil], groups := [⟨"g", [entering]⟩] }
    let v : NamedList := .list [(none, .leaf .null), (some "a", .list [(none, .leaf .null)])]
    spec.Fresh ∧ ∃ y, ∃ routes : List (Route NamedList), spec.gatherLenient v = .ok y ∧
      routes.Pairwise (fun r r' => r.address < r'.address) ∧
      (∀ r, r ∈ routes ↔ spec.IsRoute v r) ∧
      y.records = spec.rootOrdinals v ++ routes.flatMap (Route.records spec) ∧
      y.records.map (fun r => (r.specName, r.entry.hop)) =
        [(some "n", ⟨0, none⟩), (none, ⟨0, none⟩), (some "n", ⟨1, some "a"⟩), (none, ⟨1, some "a"⟩),
          (some "i", ⟨1, some "a"⟩), (some "x", ⟨0, none⟩)] := by
  intro entering spec v
  have hs : spec.Fresh := fresh_refresh _
  obtain ⟨y, routes, hy, ha, hr, hrec⟩ := records_are_the_routes hs v
  refine ⟨hs, y, routes, hy, ha, hr, hrec, ?_⟩
  have hl : (spec.gatherLenient v).toOption.map
      (fun y => y.records.map fun r => (r.specName, r.entry.hop)) = some _ := rfl
  rw [hy] at hl
  exact Option.some.inj hl

/-- The absent node is a leaf and has no filter to refuse an entry, but as a root it puts
    nothing out. -/
theorem the_absent_root_puts_nothing_out :
    let v : NamedList := .list [(none, .leaf .null)]
    let e : Entry NamedList := ⟨0, none, .leaf .null⟩
    nil.Fresh ∧ nil.isLeaf ∧ Nesting.entries v = some [e] ∧ nil.filter.accepts e.position e.name ∧
      ∃ y, nil.gatherLenient v = .ok y ∧ ¬ ∃ r ∈ y.records, r.kind = .value ∧ r.entry = e := by
  refine ⟨by decide, rfl, rfl, rfl, ⟨[], []⟩, rfl, ?_⟩
  rintro ⟨r, hr, -⟩
  cases hr

end Spec

end Harvest
