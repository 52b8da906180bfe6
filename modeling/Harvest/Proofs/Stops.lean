/-
  Harvest.Proofs.Stops — the stops of a walk, in the order in which it makes them.

  A walk stops where a node looks at entries and where a node takes one of them. What
  leads to a stop is a route: the nodes and the entries through which the walk came down.
  A stop has an address, the list of the places of these nodes and entries. Addresses are
  compared as words: first by the slot of the node among the branches of the node above,
  then by the place of the entry, and so on down; what is above comes first.

  `Stop.Occurs` says which stops a walk makes, by where its route leads (`Enters`). The
  list `stops` has exactly these (`mem_stops`), in strictly ascending order of their
  addresses (`stops_ascending`), and the events of the walk are those of its stops one
  after the other (`trace_eq_stops`).
-/

import Harvest.Proofs.Trace
import Mathlib.Data.List.Lex

namespace Harvest

variable {V : Type}

/-! ## Routes -/

/-- A node takes an entry: the node in a slot of the node above, under the label of the
    edge, and the entry at a place among those the node looks at. -/
structure Leg (V : Type) where
  slot : Nat
  edge : Option String
  node : Spec
  place : Nat
  entry : Entry V

abbrev Route (V : Type) := List (Leg V)

namespace Route

def address (r : Route V) : List Nat := r.flatMap fun leg => [leg.slot, leg.place]

def hops (r : Route V) : List Hop := r.map (·.entry.hop)

/-- The label that holds at the end of a route that starts under a label. -/
def label (outer : Option String) (r : Route V) : Option String :=
  r.foldl (fun label leg => leg.node.label.or (leg.edge.or label)) outer

end Route

/-- The leg can be the next one of a walk that is at these entries inside a node. -/
structure Leg.Fits (node : Spec) (entries : List (Entry V)) (leg : Leg V) : Prop where
  branch : node.branches[leg.slot]? = some (leg.edge, leg.node)
  present : leg.node.isNil = false
  entry : entries[leg.place]? = some leg.entry
  accepted : leg.node.filter.accepts leg.entry.position leg.entry.name

/-- A walk that is at these entries inside a node comes by the route to be at those
    entries inside another: each node on it is an inner one and each entry a container. -/
inductive Enters [Nesting V] : Spec → List (Entry V) → Route V → Spec → List (Entry V) → Prop
  | here {node : Spec} {entries : List (Entry V)} : Enters node entries [] node entries
  | further {node last : Spec} {entries inside ending : List (Entry V)} {leg : Leg V} {r : Route V} :
      leg.Fits node entries → leg.node.isLeaf = false → Nesting.entries leg.entry.value = some inside →
        Enters leg.node inside r last ending → Enters node entries (leg :: r) last ending

/-! ## Stops -/

inductive Stop (V : Type) where
  /-- The root needs a container and the input is a scalar. -/
  | bar (root : Spec) (found : V)
  /-- The root looks at the entries of the input. -/
  | start (root : Spec) (entries : List (Entry V))
  | look (entered : Route V) (slot : Nat) (edge : Option String) (node : Spec) (entries : List (Entry V))
  | take (entered : Route V) (leg : Leg V)

namespace Stop

def address : Stop V → List Nat
  | bar _ _ => []
  | start _ _ => []
  | look entered slot _ _ _ => Route.address entered ++ [slot]
  | take entered leg => Route.address (entered ++ [leg])

/-- The stop with one more leg at the start of its route. -/
def under (leg : Leg V) : Stop V → Stop V
  | look entered slot edge node entries => look (leg :: entered) slot edge node entries
  | take entered last => take (leg :: entered) last
  | stop => stop

variable [Nesting V]

/-- Whether a walk that is at these entries inside a node makes the stop further down. -/
def OccursIn (node : Spec) (entries : List (Entry V)) : Stop V → Prop
  | bar _ _ => False
  | start _ _ => False
  | look entered slot edge below inside =>
    ∃ last, Enters node entries entered last inside ∧ last.branches[slot]? = some (edge, below) ∧ below.isNil = false
  | take entered leg => ∃ last inside, Enters node entries entered last inside ∧ leg.Fits last inside

end Stop

/-- The entries that a filter accepts, with their places. -/
def Rule.placed (r : Rule) (entries : List (Entry V)) : List (Entry V × Nat) :=
  entries.zipIdx.filter fun e => r.filter.accepts e.1.position e.1.name

theorem Rule.mem_placed {r : Rule} {entries : List (Entry V)} {e : Entry V} {place : Nat} :
    (e, place) ∈ r.placed entries ↔ entries[place]? = some e ∧ r.filter.accepts e.position e.name := by
  rw [placed, List.mem_filter, List.mk_mem_zipIdx_iff_getElem?]

theorem Rule.accepted_eq_map_placed (r : Rule) (entries : List (Entry V)) :
    r.accepted entries = (r.placed entries).map (·.1) := by
  have h := List.filter_map (f := Prod.fst) (p := fun e : Entry V => r.filter.accepts e.position e.name)
    (l := entries.zipIdx)
  rw [List.zipIdx_map_fst] at h
  exact h

theorem pairwise_zipIdx {α : Type} (l : List α) : l.zipIdx.Pairwise fun a b => a.2 < b.2 := by
  have h : (l.zipIdx.map (·.2)).Pairwise (· < ·) := by
    rw [List.zipIdx_map_snd]; exact List.pairwise_lt_range'
  exact List.pairwise_map.mp h

theorem Rule.pairwise_placed (r : Rule) (entries : List (Entry V)) : (r.placed entries).Pairwise fun e f => e.2 < f.2 :=
  (pairwise_zipIdx entries).filter _

namespace Spec

variable [Nesting V]

/-- The stops of the nodes below a node that look at these entries, and further down. -/
def stopsBelow (entries : List (Entry V)) (node : Spec) : List (Stop V) :=
  node.branches.zipIdx.attach.flatMap fun b =>
    if b.1.1.2.isNil then []
    else
      .look [] b.1.2 b.1.1.1 b.1.1.2 entries ::
        (b.1.1.2.placed entries).flatMap fun e =>
          let leg : Leg V := ⟨b.1.2, b.1.1.1, b.1.1.2, e.2, e.1⟩
          .take [] leg ::
            if b.1.1.2.isLeaf then []
            else match Nesting.entries e.1.value with
              | none => []
              | some inside => (stopsBelow inside b.1.1.2).map (·.under leg)
termination_by sizeOf node
decreasing_by exact sizeOf_lt_of_mem_branches (List.fst_mem_of_mem_zipIdx b.2)

/-- The stop where a leg is taken, and those inside its entry. -/
def stopsPast (leg : Leg V) : List (Stop V) :=
  .take [] leg ::
    if leg.node.isLeaf then []
    else match Nesting.entries leg.entry.value with
      | none => []
      | some inside => (stopsBelow inside leg.node).map (·.under leg)

/-- The stops of a node that looks at entries, and those below it. -/
def stopsAt (entries : List (Entry V)) (slot : Nat) (edge : Option String) (node : Spec) : List (Stop V) :=
  if node.isNil then []
  else
    .look [] slot edge node entries ::
      (node.placed entries).flatMap fun e => stopsPast ⟨slot, edge, node, e.2, e.1⟩

theorem stopsBelow_eq (entries : List (Entry V)) (node : Spec) :
    stopsBelow entries node = node.branches.zipIdx.flatMap fun b => stopsAt entries b.2 b.1.1 b.1.2 := by
  rw [stopsBelow, List.flatMap_def, List.flatMap_def]
  exact congrArg List.flatten
    (List.attach_map_val (f := fun b : (Option String × Spec) × Nat => stopsAt entries b.2 b.1.1 b.1.2))

/-! ## Which stops there are -/

theorem mem_stopsPast {leg : Leg V} {stop : Stop V} :
    stop ∈ stopsPast leg ↔ stop = .take [] leg ∨ leg.node.isLeaf = false ∧
      ∃ inside, Nesting.entries leg.entry.value = some inside ∧
        ∃ st ∈ stopsBelow inside leg.node, st.under leg = stop := by
  rw [stopsPast, List.mem_cons]
  cases leg.node.isLeaf <;> cases Nesting.entries leg.entry.value <;> simp

theorem mem_stopsAt {entries : List (Entry V)} {slot : Nat} {edge : Option String} {node : Spec} {stop : Stop V} :
    stop ∈ stopsAt entries slot edge node ↔ node.isNil = false ∧ (stop = .look [] slot edge node entries ∨
      ∃ place e, entries[place]? = some e ∧ node.filter.accepts e.position e.name ∧
        stop ∈ stopsPast ⟨slot, edge, node, place, e⟩) := by
  unfold stopsAt
  cases node.isNil with
  | true => simp
  | false =>
    simp only [Bool.false_eq_true, if_false, List.mem_cons, List.mem_flatMap, true_and]
    refine or_congr_right ⟨?_, ?_⟩
    · rintro ⟨⟨e, place⟩, hp, hs⟩
      obtain ⟨he, ha⟩ := Rule.mem_placed.mp hp
      exact ⟨place, e, he, ha, hs⟩
    · rintro ⟨place, e, he, ha, hs⟩
      exact ⟨(e, place), Rule.mem_placed.mpr ⟨he, ha⟩, hs⟩

theorem mem_stopsBelow_iff {entries : List (Entry V)} {node : Spec} {stop : Stop V} :
    stop ∈ stopsBelow entries node ↔
      (∃ slot edge below, stop = .look [] slot edge below entries ∧ node.branches[slot]? = some (edge, below) ∧
        below.isNil = false) ∨
      ∃ leg, leg.Fits node entries ∧ stop ∈ stopsPast leg := by
  rw [stopsBelow_eq, List.mem_flatMap]
  constructor
  · rintro ⟨⟨⟨edge, below⟩, slot⟩, hb, hs⟩
    have hb : node.branches[slot]? = some (edge, below) := List.mk_mem_zipIdx_iff_getElem?.mp hb
    have hs : stop ∈ stopsAt entries slot edge below := hs
    obtain ⟨hn, rfl | ⟨place, e, he, ha, hs⟩⟩ := mem_stopsAt.mp hs
    · exact Or.inl ⟨slot, edge, below, rfl, hb, hn⟩
    · exact Or.inr ⟨⟨slot, edge, below, place, e⟩, ⟨hb, hn, he, ha⟩, hs⟩
  · rintro (⟨slot, edge, below, rfl, hb, hn⟩ | ⟨⟨slot, edge, below, place, e⟩, ⟨hb, hn, he, ha⟩, hs⟩)
    · exact ⟨((edge, below), slot), List.mk_mem_zipIdx_iff_getElem?.mpr hb, mem_stopsAt.mpr ⟨hn, Or.inl rfl⟩⟩
    · exact ⟨((edge, below), slot), List.mk_mem_zipIdx_iff_getElem?.mpr hb,
        mem_stopsAt.mpr ⟨hn, Or.inr ⟨place, e, he, ha, hs⟩⟩⟩

end Spec

namespace Stop

variable [Nesting V]

/-- A stop is at the node itself, or past its first leg. -/
theorem occursIn_iff {entries : List (Entry V)} {node : Spec} {stop : Stop V} :
    stop.OccursIn node entries ↔
      (∃ slot edge below, stop = .look [] slot edge below entries ∧ node.branches[slot]? = some (edge, below) ∧
        below.isNil = false) ∨
      ∃ leg, leg.Fits node entries ∧ (stop = .take [] leg ∨ leg.node.isLeaf = false ∧
        ∃ inside, Nesting.entries leg.entry.value = some inside ∧ ∃ st : Stop V, st.OccursIn leg.node inside ∧
          st.under leg = stop) := by
  constructor
  · intro h
    cases stop with
    | bar | start => exact h.elim
    | look entered slot edge below inside =>
      obtain ⟨last, he, hb, hn⟩ := h
      cases he with
      | here => exact Or.inl ⟨slot, edge, below, rfl, hb, hn⟩
      | further hf hl hi he =>
        exact Or.inr ⟨_, hf, Or.inr ⟨hl, _, hi, .look _ slot edge below inside, ⟨last, he, hb, hn⟩, rfl⟩⟩
    | take entered leg =>
      obtain ⟨last, inside, he, hfit⟩ := h
      cases he with
      | here => exact Or.inr ⟨leg, hfit, Or.inl rfl⟩
      | further hf hl hi he => exact Or.inr ⟨_, hf, Or.inr ⟨hl, _, hi, .take _ leg, ⟨last, inside, he, hfit⟩, rfl⟩⟩
  · rintro (⟨slot, edge, below, rfl, hb, hn⟩ | ⟨leg, hf, rfl | ⟨hl, inside, hi, st, hst, rfl⟩⟩)
    · exact ⟨node, .here, hb, hn⟩
    · exact ⟨node, entries, .here, hf⟩
    · cases st with
      | bar | start => exact hst.elim
      | look entered slot edge below fs =>
        obtain ⟨last, he, hb, hn⟩ := hst
        exact ⟨last, .further hf hl hi he, hb, hn⟩
      | take entered last =>
        obtain ⟨t, fs, he, hfit⟩ := hst
        exact ⟨t, fs, .further hf hl hi he, hfit⟩

theorem OccursIn.address_under {stop : Stop V} {node : Spec} {entries : List (Entry V)}
    (h : stop.OccursIn node entries) (leg : Leg V) :
    (stop.under leg).address = leg.slot :: leg.place :: stop.address := by
  cases stop with
  | bar | start => exact h.elim
  | look entered slot edge below inside => rfl
  | take entered last => rfl

/-- The stops below a node come after it. -/
theorem OccursIn.address_pos {stop : Stop V} {node : Spec} {entries : List (Entry V)}
    (h : stop.OccursIn node entries) : [] < stop.address := by
  cases stop with
  | bar | start => exact h.elim
  | look entered slot edge below inside => cases entered <;> exact List.Lex.nil
  | take entered last => cases entered <;> exact List.Lex.nil

omit [Nesting V] in
/-- One stop comes before another. -/
def Before (a b : Stop V) : Prop := a.address < b.address

end Stop

namespace Spec

variable [Nesting V]

theorem mem_stopsBelow {entries : List (Entry V)} {node : Spec} {stop : Stop V} :
    stop ∈ stopsBelow entries node ↔ stop.OccursIn node entries := by
  induction node using induction_branches generalizing entries stop with
  | step node ih =>
    rw [mem_stopsBelow_iff, Stop.occursIn_iff]
    refine or_congr_right (exists_congr fun leg => and_congr_right fun hf => ?_)
    rw [mem_stopsPast]
    refine or_congr_right (and_congr_right fun _ => exists_congr fun inside => and_congr_right fun _ =>
      exists_congr fun st => and_congr_left fun _ => ?_)
    exact ih leg.edge leg.node (List.mem_of_getElem? hf.branch)

/-! ## In which order -/

theorem address_of_mem_stopsPast {leg : Leg V} {stop : Stop V} (h : stop ∈ stopsPast leg) :
    ∃ rest, stop.address = leg.slot :: leg.place :: rest := by
  rcases mem_stopsPast.mp h with rfl | ⟨-, inside, -, st, hst, rfl⟩
  · exact ⟨[], rfl⟩
  · exact ⟨st.address, (mem_stopsBelow.mp hst).address_under leg⟩

theorem address_of_mem_stopsAt {entries : List (Entry V)} {slot : Nat} {edge : Option String} {node : Spec}
    {stop : Stop V} (h : stop ∈ stopsAt entries slot edge node) : ∃ rest, stop.address = slot :: rest := by
  obtain ⟨-, rfl | ⟨place, e, -, -, hs⟩⟩ := mem_stopsAt.mp h
  · exact ⟨[], rfl⟩
  · obtain ⟨rest, hr⟩ := address_of_mem_stopsPast hs
    exact ⟨place :: rest, hr⟩

theorem stopsPast_ascending {leg : Leg V}
    (h : ∀ inside : List (Entry V), (stopsBelow inside leg.node).Pairwise Stop.Before) :
    (stopsPast leg).Pairwise Stop.Before := by
  unfold stopsPast
  refine List.pairwise_cons.mpr ⟨?_, ?_⟩
  · intro stop hs
    split at hs
    · cases hs
    · split at hs
      · cases hs
      · obtain ⟨st, hst, rfl⟩ := List.mem_map.mp hs
        have hst := mem_stopsBelow.mp hst
        show [leg.slot, leg.place] < (st.under leg).address
        rw [hst.address_under]
        exact List.Lex.cons (List.Lex.cons hst.address_pos)
  · split
    · exact .nil
    · split
      · exact .nil
      · rename_i inside _
        refine List.pairwise_map.mpr ((h inside).imp_of_mem ?_)
        intro a b ha hb hab
        show (a.under leg).address < (b.under leg).address
        rw [(mem_stopsBelow.mp ha).address_under, (mem_stopsBelow.mp hb).address_under]
        exact List.Lex.cons (List.Lex.cons hab)

theorem stopsAt_ascending {node : Spec} (h : ∀ inside : List (Entry V), (stopsBelow inside node).Pairwise Stop.Before)
    (entries : List (Entry V)) (slot : Nat) (edge : Option String) :
    (stopsAt entries slot edge node).Pairwise Stop.Before := by
  unfold stopsAt
  split
  · exact .nil
  · refine List.pairwise_cons.mpr ⟨?_, List.pairwise_flatMap.mpr ⟨?_, ?_⟩⟩
    · intro stop hs
      obtain ⟨e, -, hs⟩ := List.mem_flatMap.mp hs
      obtain ⟨rest, hr⟩ := address_of_mem_stopsPast hs
      show [slot] < stop.address
      rw [hr]
      exact List.Lex.cons List.Lex.nil
    · intro e _
      exact stopsPast_ascending h
    · refine (node.pairwise_placed entries).imp ?_
      intro e f hef a ha b hb
      obtain ⟨rest, hr⟩ := address_of_mem_stopsPast ha
      obtain ⟨rest', hr'⟩ := address_of_mem_stopsPast hb
      show a.address < b.address
      rw [hr, hr']
      exact List.Lex.cons (List.Lex.rel hef)

/-- Slots ascend along the branches of a node, places along its entries. -/
theorem stopsBelow_ascending (entries : List (Entry V)) (node : Spec) :
    (stopsBelow entries node).Pairwise Stop.Before := by
  induction node using induction_branches generalizing entries with
  | step node ih =>
    rw [stopsBelow_eq, List.pairwise_flatMap]
    constructor
    · rintro ⟨⟨edge, below⟩, slot⟩ hb
      exact stopsAt_ascending (ih edge below (List.fst_mem_of_mem_zipIdx hb)) entries slot edge
    · refine (pairwise_zipIdx _).imp ?_
      intro b c hbc x hx y hy
      obtain ⟨rest, hr⟩ := address_of_mem_stopsAt hx
      obtain ⟨rest', hr'⟩ := address_of_mem_stopsAt hy
      show x.address < y.address
      rw [hr, hr']
      exact List.Lex.rel hbc

end Spec

/-! ## What happens at a stop -/

variable [Nesting V]

/-- What a node does with the entry of a leg before it goes on inside. -/
def Leg.events (label : Option String) (path : List Hop) (leg : Leg V) : List (Event V) :=
  if leg.node.isLeaf then
    (leg.node.ordinals leg.entry).map .record ++ [.record ⟨.value, label, leg.entry, leg.node⟩]
  else
    match Nesting.entries leg.entry.value with
    | none => [.mismatch ⟨leg.node, path, leg.entry.value⟩]
    | some _ => (leg.node.ordinals leg.entry).map .record

/-- The events at a stop of a walk that starts under a label and at a path. -/
def Stop.events (outer : Option String) (path : List Hop) : Stop V → List (Event V)
  | bar root found => [.mismatch ⟨root, [], found⟩]
  | start root entries =>
    .check root ::
      if root.isLeaf then [.chose root (root.accepted entries).length entries.length]
      else (root.accepted entries).flatMap fun e => (root.ordinals e).map .record
  | look _ _ _ node entries => [.check node, .chose node (node.accepted entries).length entries.length]
  | take entered leg => leg.events (Route.label outer (entered ++ [leg])) (path ++ Route.hops (entered ++ [leg]))

theorem Stop.OccursIn.events_under {stop : Stop V} {node : Spec} {entries : List (Entry V)}
    (h : stop.OccursIn node entries) (leg : Leg V) (outer : Option String) (path : List Hop) :
    (stop.under leg).events outer path = stop.events (Route.label outer [leg]) (path ++ [leg.entry.hop]) := by
  cases stop with
  | bar | start => exact h.elim
  | look entered slot edge below inside => rfl
  | take entered last =>
    have hp : path ++ Route.hops (leg :: (entered ++ [last])) =
        path ++ [leg.entry.hop] ++ Route.hops (entered ++ [last]) :=
      List.append_cons ..
    exact congrArg (fun p => last.events (Route.label outer (leg :: (entered ++ [last]))) p) hp

namespace Spec

theorem flatMap_stopsPast {leg : Leg V} {outer : Option String} {path : List Hop}
    (h : ∀ label path (inside : List (Entry V)), descend label path inside leg.node =
      (stopsBelow inside leg.node).flatMap (Stop.events label path)) :
    (stopsPast leg).flatMap (Stop.events outer path) = pick (leg.edge.or outer) path leg.node leg.entry := by
  have hu : ∀ inside, ((stopsBelow inside leg.node).map (·.under leg)).flatMap (Stop.events outer path) =
      descend (leg.node.label.or (leg.edge.or outer)) (path ++ [leg.entry.hop]) inside leg.node := by
    intro inside
    rw [h, List.flatMap_map]
    apply List.flatMap_congr
    intro st hst
    exact (mem_stopsBelow.mp hst).events_under leg outer path
  rw [stopsPast, List.flatMap_cons, pick]
  show leg.events (leg.node.label.or (leg.edge.or outer)) (path ++ [leg.entry.hop]) ++ _ = _
  unfold Leg.events
  cases leg.node.isLeaf with
  | true => exact List.append_nil _
  | false =>
    cases Nesting.entries leg.entry.value with
    | none => rfl
    | some inside => exact congrArg _ (hu inside)

theorem flatMap_stopsAt {node : Spec} {entries : List (Entry V)} {slot : Nat} {edge outer : Option String}
    {path : List Hop}
    (h : ∀ label path (inside : List (Entry V)), descend label path inside node =
      (stopsBelow inside node).flatMap (Stop.events label path)) :
    (stopsAt entries slot edge node).flatMap (Stop.events outer path) = visit (edge.or outer) path entries node := by
  unfold stopsAt
  cases hn : node.isNil with
  | true => rw [visit_of_isNil hn]; rfl
  | false =>
    rw [visit_of_not_isNil hn]
    have hp : ((node.placed entries).flatMap fun e => stopsPast ⟨slot, edge, node, e.2, e.1⟩).flatMap
        (Stop.events outer path) = (node.accepted entries).flatMap (pick (edge.or outer) path node) := by
      rw [Rule.accepted_eq_map_placed, List.flatMap_map, List.flatMap_assoc]
      exact List.flatMap_congr fun e _ => flatMap_stopsPast h
    simp only [Bool.false_eq_true, if_false, List.flatMap_cons, hp]
    rfl

theorem descend_eq_stops (label : Option String) (path : List Hop) (entries : List (Entry V)) (node : Spec) :
    descend label path entries node = (stopsBelow entries node).flatMap (Stop.events label path) := by
  induction node using induction_branches generalizing label path entries with
  | step node ih =>
    have hb : node.branches = node.branches.zipIdx.map (·.1) := (List.zipIdx_map_fst 0 _).symm
    rw [descend, stopsBelow_eq, hb, List.flatMap_map, List.flatMap_assoc, ← hb]
    apply List.flatMap_congr
    intro b hm
    refine (flatMap_stopsAt ?_).symm
    intro label path inside
    exact ih b.1.1 b.1.2 (List.fst_mem_of_mem_zipIdx hm) label path inside

end Spec

/-! ## The stops of a whole walk -/

/-- Whether the walk of a tree over a value makes the stop. -/
inductive Stop.Occurs (root : Spec) (v : V) : Stop V → Prop
  | bar : root.isNil = false → Nesting.entries v = none → Occurs root v (.bar root v)
  | start {entries : List (Entry V)} :
      root.isNil = false → Nesting.entries v = some entries → Occurs root v (.start root entries)
  | leaf {entries : List (Entry V)} {place : Nat} {e : Entry V} :
      root.isNil = false → Nesting.entries v = some entries → root.isLeaf → entries[place]? = some e →
        root.filter.accepts e.position e.name → Occurs root v (.take [] ⟨0, none, root, place, e⟩)
  | below {entries : List (Entry V)} {stop : Stop V} :
      root.isNil = false → Nesting.entries v = some entries → root.isLeaf = false →
        stop.OccursIn root (root.accepted entries) → Occurs root v stop

namespace Spec

/-- The stops after the start, at the entries of the input. -/
def stopsFrom (root : Spec) (entries : List (Entry V)) : List (Stop V) :=
  if root.isLeaf then (root.placed entries).map fun e => .take [] ⟨0, none, root, e.2, e.1⟩
  else stopsBelow (root.accepted entries) root

def stops (root : Spec) (v : V) : List (Stop V) :=
  if root.isNil then []
  else match Nesting.entries v with
    | none => [.bar root v]
    | some entries => .start root entries :: root.stopsFrom entries

theorem mem_stopsFrom {root : Spec} {entries : List (Entry V)} {stop : Stop V} :
    stop ∈ root.stopsFrom entries ↔
      (root.isLeaf ∧ ∃ place e, entries[place]? = some e ∧ root.filter.accepts e.position e.name ∧
        stop = .take [] ⟨0, none, root, place, e⟩) ∨
      (root.isLeaf = false ∧ stop.OccursIn root (root.accepted entries)) := by
  unfold stopsFrom
  cases root.isLeaf with
  | false => simp [mem_stopsBelow]
  | true =>
    simp only [if_true, List.mem_map, true_and, Bool.true_eq_false, false_and, or_false]
    constructor
    · rintro ⟨⟨e, place⟩, hm, rfl⟩
      obtain ⟨hp, ha⟩ := Rule.mem_placed.mp hm
      exact ⟨place, e, hp, ha, rfl⟩
    · rintro ⟨place, e, hp, ha, rfl⟩
      exact ⟨(e, place), Rule.mem_placed.mpr ⟨hp, ha⟩, rfl⟩

theorem mem_stops {root : Spec} {v : V} {stop : Stop V} : stop ∈ root.stops v ↔ stop.Occurs root v := by
  unfold stops
  constructor
  · intro h
    cases hn : root.isNil with
    | true => rw [hn] at h; cases h
    | false =>
      rw [hn] at h
      cases he : Nesting.entries v with
      | none =>
        rw [he] at h
        rw [List.mem_singleton.mp h]
        exact .bar hn he
      | some entries =>
        rw [he] at h
        rcases List.mem_cons.mp h with rfl | h
        · exact .start hn he
        · rcases mem_stopsFrom.mp h with ⟨hl, place, e, hp, ha, rfl⟩ | ⟨hl, hs⟩
          · exact .leaf hn he hl hp ha
          · exact .below hn he hl hs
  · intro h
    cases h with
    | bar hn he => simp [hn, he]
    | start hn he => simp [hn, he]
    | leaf hn he hl hp ha =>
      simp only [hn, he, Bool.false_eq_true, if_false]
      exact List.mem_cons_of_mem _ (mem_stopsFrom.mpr (Or.inl ⟨hl, _, _, hp, ha, rfl⟩))
    | below hn he hl hs =>
      simp only [hn, he, Bool.false_eq_true, if_false]
      exact List.mem_cons_of_mem _ (mem_stopsFrom.mpr (Or.inr ⟨hl, hs⟩))

theorem address_pos_of_mem_stopsFrom {root : Spec} {entries : List (Entry V)} {stop : Stop V}
    (h : stop ∈ root.stopsFrom entries) : [] < stop.address := by
  rcases mem_stopsFrom.mp h with ⟨-, place, e, -, -, rfl⟩ | ⟨-, hs⟩
  · exact List.Lex.nil
  · exact hs.address_pos

theorem stopsFrom_ascending (root : Spec) (entries : List (Entry V)) :
    (root.stopsFrom entries).Pairwise Stop.Before := by
  unfold stopsFrom
  split
  · refine List.pairwise_map.mpr ((root.pairwise_placed entries).imp ?_)
    intro e f hef
    exact List.Lex.cons (List.Lex.rel hef)
  · exact stopsBelow_ascending _ root

theorem stops_ascending (root : Spec) (v : V) : (root.stops v).Pairwise Stop.Before := by
  unfold stops
  split
  · exact .nil
  · split
    · exact List.pairwise_singleton ..
    · refine List.pairwise_cons.mpr ⟨?_, stopsFrom_ascending root _⟩
      intro stop hs
      exact address_pos_of_mem_stopsFrom hs

theorem pick_root_of_isLeaf {root : Spec} (h : root.isLeaf) (e : Entry V) (place : Nat) :
    pick none [] root e = Stop.events root.label [] (.take [] ⟨0, none, root, place, e⟩) := by
  have hl : root.label.or none = root.label.or (none.or root.label) := by cases root.label <;> rfl
  show pick none [] root e = Leg.events (root.label.or (none.or root.label)) [e.hop] ⟨0, none, root, place, e⟩
  rw [pick, Leg.events, if_pos h, if_pos h, hl]

theorem flatMap_stopsFrom {root : Spec} (hn : root.isNil = false) (entries : List (Entry V)) :
    Stop.events root.label [] (.start root entries) ++ (root.stopsFrom entries).flatMap (Stop.events root.label []) =
      if root.isLeaf then root.visit none [] entries
      else .check root ::
        ((root.accepted entries).flatMap fun e => (root.ordinals e).map .record) ++
          descend root.label [] (root.accepted entries) root := by
  unfold stopsFrom
  rw [Stop.events]
  cases hl : root.isLeaf with
  | false => simp only [Bool.false_eq_true, if_false, descend_eq_stops]
  | true =>
    have hp : ((root.placed entries).map fun e => (.take [] ⟨0, none, root, e.2, e.1⟩ : Stop V)).flatMap
        (Stop.events root.label []) = (root.accepted entries).flatMap (pick none [] root) := by
      rw [Rule.accepted_eq_map_placed, List.flatMap_map, List.flatMap_map]
      exact List.flatMap_congr fun e _ => (pick_root_of_isLeaf hl e.1 e.2).symm
    simp only [if_true, hp, visit_of_not_isNil hn]
    rfl

/-- The events of a walk are those of its stops. -/
theorem trace_eq_stops (root : Spec) (v : V) : root.trace v = (root.stops v).flatMap (Stop.events root.label []) := by
  unfold trace stops
  cases hn : root.isNil with
  | true => rfl
  | false =>
    cases Nesting.entries v with
    | none => rfl
    | some entries => exact (flatMap_stopsFrom hn entries).symm

end Spec

end Harvest
