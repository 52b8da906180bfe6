/-
  Harvest.Proofs.Reach — how far a walk gets.

  A walk follows a route when each node on it is a child or a group member of the one
  before, accepts its entry, and has come into the entry before. It reaches the nodes that
  look at entries and misses where an inner node takes a scalar, each at an address of its
  own. All three are said of the tree and the value alone, without the walk; marks have no
  part in them. They are read off the stops of the walk (`isRoute_iff`, `reaches_iff`,
  `misses_iff`).

  In a fresh tree every node reached is fresh, so no match of it halts at a mark
  (`Fresh.findSome?_stale?`).
-/

import Harvest.Proofs.Stops

namespace Harvest

variable {V : Type} [Nesting V]

namespace Spec

/-- The last leg of a route is where it puts something out. A root that is a leaf takes
    the entries of the input itself; an inner one leads on from those it accepts. -/
inductive IsRoute (root : Spec) (v : V) : Route V → Prop
  | leaf {entries : List (Entry V)} {place : Nat} {e : Entry V} :
      root.isNil = false → Nesting.entries v = some entries → root.isLeaf → entries[place]? = some e →
        root.filter.accepts e.position e.name → IsRoute root v [⟨0, none, root, place, e⟩]
  | inner {entries inside : List (Entry V)} {entered : Route V} {last : Spec} {leg : Leg V} :
      root.isNil = false → Nesting.entries v = some entries → root.isLeaf = false →
        Enters root (root.accepted entries) entered last inside → leg.Fits last inside →
          IsRoute root v (entered ++ [leg])

/-- The walk reaches the node at the address: the node looks at entries there. -/
inductive Reaches (root : Spec) (v : V) : List Nat → Spec → Prop
  | root {entries : List (Entry V)} : root.isNil = false → Nesting.entries v = some entries → Reaches root v [] root
  | below {entries inside : List (Entry V)} {entered : Route V} {last node : Spec} {slot : Nat} {edge : Option String} :
      root.isNil = false → Nesting.entries v = some entries → root.isLeaf = false →
        Enters root (root.accepted entries) entered last inside → last.branches[slot]? = some (edge, node) →
          node.isNil = false → Reaches root v (entered.address ++ [slot]) node

/-- At the address an inner node takes a scalar. -/
inductive Misses (root : Spec) (v : V) : List Nat → Mismatch V → Prop
  | root : root.isNil = false → Nesting.entries v = none → Misses root v [] ⟨root, [], v⟩
  | below {entered : Route V} {leg : Leg V} :
      IsRoute root v (entered ++ [leg]) → leg.node.isLeaf = false → Nesting.entries leg.entry.value = none →
        Misses root v (Route.address (entered ++ [leg]))
          ⟨leg.node, Route.hops (entered ++ [leg]), leg.entry.value⟩

end Spec

/-! ## Read off the stops -/

namespace Stop

/-- The node whose mark is checked at the stop. -/
def checked? : Stop V → Option Spec
  | start root _ => some root
  | look _ _ _ node _ => some node
  | _ => none

def missed? : Stop V → Option (Mismatch V)
  | bar root found => some ⟨root, [], found⟩
  | take entered leg =>
    if leg.node.isLeaf then none
    else match Nesting.entries leg.entry.value with
      | none => some ⟨leg.node, Route.hops (entered ++ [leg]), leg.entry.value⟩
      | some _ => none
  | _ => none

end Stop

namespace Spec

variable {root : Spec} {v : V}

theorem isRoute_iff {r : Route V} :
    root.IsRoute v r ↔ ∃ entered leg, r = entered ++ [leg] ∧ Stop.take entered leg ∈ root.stops v := by
  simp only [mem_stops]
  constructor
  · intro h
    cases h with
    | leaf hn he hl hp ha => exact ⟨[], _, rfl, .leaf hn he hl hp ha⟩
    | inner hn he hl hent hf => exact ⟨_, _, rfl, .below hn he hl ⟨_, _, hent, hf⟩⟩
  · rintro ⟨entered, leg, rfl, h⟩
    cases h with
    | leaf hn he hl hp ha => exact .leaf hn he hl hp ha
    | below hn he hl hs =>
      obtain ⟨last, inside, hent, hf⟩ := hs
      exact .inner hn he hl hent hf

theorem reaches_iff {a : List Nat} {node : Spec} :
    root.Reaches v a node ↔ ∃ stop ∈ root.stops v, stop.address = a ∧ stop.checked? = some node := by
  simp only [mem_stops]
  constructor
  · intro h
    cases h with
    | root hn he => exact ⟨_, .start hn he, rfl, rfl⟩
    | below hn he hl hent hb hb' => exact ⟨.look _ _ _ _ _, .below hn he hl ⟨_, hent, hb, hb'⟩, rfl, rfl⟩
  · rintro ⟨stop, h, rfl, hc⟩
    cases h with
    | bar | leaf => cases hc
    | start hn he => cases hc; exact .root hn he
    | below hn he hl hs =>
      cases stop with
      | bar | start => exact hs.elim
      | take => cases hc
      | look entered slot edge below inside =>
        cases hc
        obtain ⟨last, hent, hb, hb'⟩ := hs
        exact .below hn he hl hent hb hb'

theorem misses_iff {a : List Nat} {m : Mismatch V} :
    root.Misses v a m ↔ ∃ stop ∈ root.stops v, stop.address = a ∧ stop.missed? = some m := by
  constructor
  · intro h
    cases h with
    | root hn he => exact ⟨_, mem_stops.mpr (.bar hn he), rfl, rfl⟩
    | below hr hl he =>
      obtain ⟨entered, leg, hr, hs⟩ := isRoute_iff.mp hr
      obtain ⟨rfl, hleg⟩ := List.append_inj' hr rfl
      cases hleg
      exact ⟨_, hs, rfl, by simp [Stop.missed?, hl, he]⟩
  · rintro ⟨stop, h, rfl, hm⟩
    cases stop with
    | start | look => cases hm
    | bar node found =>
      cases mem_stops.mp h with
      | bar hn he => cases hm; exact .root hn he
      | below hn he hl hs => exact hs.elim
    | take entered leg =>
      have hr : root.IsRoute v (entered ++ [leg]) := isRoute_iff.mpr ⟨entered, leg, rfl, h⟩
      cases hl : leg.node.isLeaf with
      | true => simp [Stop.missed?, hl] at hm
      | false =>
        cases he : Nesting.entries leg.entry.value with
        | some inside => simp [Stop.missed?, hl, he] at hm
        | none =>
          have hm' : m = ⟨leg.node, Route.hops (entered ++ [leg]), leg.entry.value⟩ := by
            simpa [Stop.missed?, hl, he] using hm.symm
          exact hm' ▸ .below hr hl he

/-! ## Fresh trees -/

end Spec

theorem Enters.fresh {node last : Spec} {entries inside : List (Entry V)} {r : Route V}
    (h : Enters node entries r last inside) (hn : node.Fresh) : last.Fresh := by
  induction h with
  | here => exact hn
  | further hf _ _ _ ih => exact ih (hn.of_branch (List.mem_of_getElem? hf.branch))

namespace Spec

variable {root : Spec} {v : V}

theorem Reaches.fresh {a : List Nat} {node : Spec} (h : root.Reaches v a node) (hr : root.Fresh) : node.Fresh := by
  cases h with
  | root => exact hr
  | below _ _ _ hent hb _ => exact (hent.fresh hr).of_branch (List.mem_of_getElem? hb)

end Spec

/-! ## What may halt a walk at its stops -/

open Event

def Stop.stale? (stop : Stop V) : Option Spec := stop.checked?.bind fun node => if node.isStale then some node else none

/-- What halts a strict walk at the stop. -/
def Stop.halt? (stop : Stop V) : Option (Halt V) := (stop.stale?.map .stale).or (stop.missed?.map .mismatch)

theorem findSome?_flatMap {α β γ : Type} (l : List α) (g : α → List β) (f : β → Option γ) :
    (l.flatMap g).findSome? f = l.findSome? fun a => (g a).findSome? f := by
  induction l with
  | nil => rfl
  | cons a l ih =>
    rw [List.flatMap_cons, List.findSome?_append, List.findSome?_cons, ih]
    cases (g a).findSome? f <;> rfl

omit [Nesting V] in
theorem findSome?_map_record {β : Type} {f : Event V → Option β} (hf : ∀ r, f (.record r) = none)
    (l : List (Record V)) :
    (l.map Event.record).findSome? f = none := by
  apply List.findSome?_eq_none_iff.mpr
  intro e he
  obtain ⟨r, -, rfl⟩ := List.mem_map.mp he
  exact hf r

/-- At a stop the mark is checked before anything else happens. -/
theorem Stop.findSome?_events {β : Type} {f : Event V → Option β} (hr : ∀ r, f (.record r) = none)
    (hc : ∀ node chosen available, f (.chose node chosen available) = none) (outer : Option String) (stop : Stop V) :
    (stop.events outer []).findSome? f = (stop.checked?.bind fun node => f (.check node)).or
      (stop.missed?.bind fun m => f (.mismatch m)) := by
  cases stop with
  | bar root found => exact List.findSome?_singleton ..
  | look entered slot edge node entries =>
    have hn : [Event.chose node (node.accepted entries).length entries.length].findSome? f = none := by simp [hc]
    rw [events, List.findSome?_cons, hn]
    show _ = (f (.check node)).or none
    cases f (.check node) <;> rfl
  | start root entries =>
    have hn : (if root.isLeaf then [Event.chose root (root.accepted entries).length entries.length]
        else (root.accepted entries).flatMap fun e => (root.ordinals e).map .record).findSome? f = none := by
      cases root.isLeaf with
      | true => simp [hc]
      | false =>
        rw [if_neg (by simp), findSome?_flatMap]
        exact List.findSome?_eq_none_iff.mpr fun e _ => findSome?_map_record hr (root.ordinals e)
    rw [events, List.findSome?_cons, hn]
    show _ = (f (.check root)).or none
    cases f (.check root) <;> rfl
  | take entered leg =>
    rw [events, Leg.events]
    simp only [missed?, checked?]
    cases leg.node.isLeaf with
    | true =>
      simp only [if_true, List.findSome?_append, findSome?_map_record hr, List.findSome?_singleton, hr]
      rfl
    | false =>
      cases Nesting.entries leg.entry.value with
      | none => exact List.findSome?_singleton ..
      | some inside => exact findSome?_map_record hr _

namespace Spec

theorem findSome?_stale?_trace (s : Spec) (v : V) :
    (s.trace v).findSome? stale? = (s.stops v).findSome? Stop.stale? := by
  have hf : (fun stop : Stop V => (stop.events s.label []).findSome? stale?) = Stop.stale? := by
    funext stop
    rw [Stop.findSome?_events (fun _ => rfl) fun _ _ _ => rfl]
    show (Stop.stale? stop).or (stop.missed?.bind fun _ => none) = _
    cases stop.missed? <;> simp
  rw [trace_eq_stops, findSome?_flatMap, hf]

theorem findSome?_halt?_trace (s : Spec) (v : V) :
    (s.trace v).findSome? (halt? .strict) = (s.stops v).findSome? Stop.halt? := by
  have hf : (fun stop : Stop V => (stop.events s.label []).findSome? (halt? .strict)) = Stop.halt? := by
    funext stop
    rw [Stop.findSome?_events (fun _ => rfl) fun _ _ _ => rfl]
    have hm : (stop.missed?.bind fun m => halt? .strict (.mismatch m)) = stop.missed?.map Halt.mismatch := by
      cases stop.missed? <;> rfl
    have hs : (stop.checked?.bind fun node => halt? .strict (.check node : Event V)) = stop.stale?.map Halt.stale := by
      unfold Stop.stale?
      cases stop.checked? with
      | none => rfl
      | some node => simp only [Option.bind_some, halt?]; split <;> rfl
    rw [hm, hs, Stop.halt?]
  rw [trace_eq_stops, findSome?_flatMap, hf]

/-- No walk of a fresh tree meets a stale mark. -/
theorem Fresh.findSome?_stale? {s : Spec} (h : s.Fresh) (v : V) : (s.trace v).findSome? stale? = none := by
  rw [findSome?_stale?_trace]
  apply List.findSome?_eq_none_iff.mpr
  intro stop hs
  unfold Stop.stale?
  cases hc : stop.checked? with
  | none => rfl
  | some node =>
    have hf : node.Fresh := (reaches_iff.mpr ⟨stop, hs, rfl, hc⟩).fresh h
    simp [hf.isStale_eq_false]

theorem Fresh.gatherLenient_eq {s : Spec} (h : s.Fresh) (v : V) : s.gatherLenient v = .ok (yieldOf (s.trace v)) :=
  gatherLenient_eq_ok_iff.mpr ⟨h.findSome?_stale? v, rfl⟩

/-- A strict match of a fresh tree succeeds if and only if nothing would be skipped. -/
theorem Fresh.gatherStrict_isOk_iff {s : Spec} (h : s.Fresh) (v : V) :
    (∃ l, s.gatherStrict v = .ok l) ↔ (yieldOf (s.trace v)).mismatches = [] := by
  rw [gatherStrict_of_no_stale (h.findSome?_stale? v), Yield.toExcept]
  cases (yieldOf (s.trace v)).mismatches <;> simp [Except.mapError]

/-- So it succeeds in one case as in another where as many branches are skipped. -/
theorem Fresh.gatherStrict_isOk_congr {s t : Spec} (hs : s.Fresh) (ht : t.Fresh) {v w : V}
    (h : (yieldOf (s.trace v)).mismatches.length = (yieldOf (t.trace w)).mismatches.length) :
    (∃ l, s.gatherStrict v = .ok l) ↔ ∃ l, t.gatherStrict w = .ok l := by
  rw [hs.gatherStrict_isOk_iff, ht.gatherStrict_isOk_iff, ← List.length_eq_zero_iff, h, List.length_eq_zero_iff]

theorem Fresh.gatherStrict_ne_stale {s : Spec} (h : s.Fresh) (v : V) (node : Spec) :
    s.gatherStrict v ≠ .error (.stale node) := by
  rw [gatherStrict_of_no_stale (h.findSome?_stale? v), Yield.toExcept]
  cases (yieldOf (s.trace v)).mismatches <;> simp [Except.mapError]

end Spec

end Harvest
