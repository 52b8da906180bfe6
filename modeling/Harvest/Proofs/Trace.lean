/-
  Harvest.Proofs.Trace — a walk as the list of what it does.

  A walker changes its state step by step and may halt anywhere. What a walk does does not
  hang on its mode, nor on the terminal marks: `trace` lists its events as a plain
  function of the tree and the value, as if no mark denied a filter and every branch
  could be skipped. A walk in either mode replays this list from the start up to the
  first event that halts it (`explore_eq_replay`), so what a match yields can be read off
  the list (`gather_eq`, `gatherLenient_eq`).

  The parts of a walker are matched with lists of events one by one (`Replays`). The
  path of a part is where it starts from: whatever was entered has been left again when
  the next part begins, also after a branch was skipped (`replay_path`).
-/

import Harvest.Matching.Outcome
import Harvest.Proofs.Branches

namespace Harvest

variable {V : Type}

/-! ## Events -/

inductive Event (V : Type) where
  /-- A node is about to choose: its mark is checked. -/
  | check (node : Spec)
  | chose (node : Spec) (chosen available : Nat)
  | record (r : Record V)
  | mismatch (m : Mismatch V)

namespace Event

def record? : Event V → Option (Record V)
  | .record r => some r
  | _ => none

def mismatch? : Event V → Option (Mismatch V)
  | .mismatch m => some m
  | _ => none

/-- The node whose mark denies its filter, if the event is its check. -/
def stale? : Event V → Option Spec
  | .check node => if node.isStale then some node else none
  | _ => none

/-- What the event ends the walk with. -/
def halt? (mode : Mode) : Event V → Option (Halt V)
  | .check node => if node.isStale then some (.stale node) else none
  | .mismatch m => if mode = .strict then some (.mismatch m) else none
  | _ => none

/-- The step of a walk that does not halt at the event. -/
def apply (p : Progress V) : Event V → Progress V
  | .check _ => p
  | .chose node chosen available => { p with notes := p.notes ++ [.chose node chosen available] }
  | .record r => { p with records := p.records ++ [r] }
  | .mismatch m => { p with mismatches := p.mismatches ++ [m], notes := p.notes ++ [.skipped m] }

/-- The events one after the other, up to the first that halts the walk. -/
def replay (mode : Mode) : List (Event V) → Progress V → Except (Halt V) Unit × Progress V
  | [], p => (.ok (), p)
  | e :: rest, p =>
    match e.halt? mode with
    | some h => (.error h, p)
    | none => replay mode rest (e.apply p)

theorem replay_append (mode : Mode) (l m : List (Event V)) (p : Progress V) :
    replay mode (l ++ m) p =
      match replay mode l p with
      | (.ok (), q) => replay mode m q
      | (.error h, q) => (.error h, q) := by
  induction l generalizing p with
  | nil => rfl
  | cons e l ih =>
    rw [List.cons_append, replay, replay]
    cases e.halt? mode with
    | some h => rfl
    | none => exact ih _

theorem apply_path (p : Progress V) (e : Event V) : (e.apply p).path = p.path := by cases e <;> rfl

theorem replay_path (mode : Mode) (l : List (Event V)) (p : Progress V) : (replay mode l p).2.path = p.path := by
  induction l generalizing p with
  | nil => rfl
  | cons e l ih =>
    rw [replay]
    cases e.halt? mode with
    | some h => rfl
    | none => exact (ih _).trans (apply_path p e)

/-- The path has no part in a replay. -/
theorem replay_withPath (mode : Mode) (l : List (Event V)) (p : Progress V) (path : List Hop) :
    replay mode l { p with path } = ((replay mode l p).1, { (replay mode l p).2 with path }) := by
  induction l generalizing p with
  | nil => rfl
  | cons e l ih =>
    rw [replay, replay]
    cases e.halt? mode with
    | some h => rfl
    | none =>
      rw [← ih (e.apply p)]
      cases e <;> rfl

/-! ## The outcome of a replay -/

def yieldOf (events : List (Event V)) : Yield V := ⟨events.filterMap record?, events.filterMap mismatch?⟩

theorem replay_of_halts {mode : Mode} {l : List (Event V)} {h : Halt V} (hl : l.findSome? (halt? mode) = some h)
    (p : Progress V) : (replay mode l p).1 = .error h := by
  induction l generalizing p with
  | nil => cases hl
  | cons e l ih =>
    rw [List.findSome?_cons] at hl
    rw [replay]
    cases he : e.halt? mode with
    | some h' => rw [he] at hl; cases hl; rfl
    | none => rw [he] at hl; exact ih hl _

theorem replay_of_goes_on {mode : Mode} {l : List (Event V)} (hl : l.findSome? (halt? mode) = none) (p : Progress V) :
    (replay mode l p).1 = .ok () ∧
      (replay mode l p).2.yield = ⟨p.records ++ (yieldOf l).records, p.mismatches ++ (yieldOf l).mismatches⟩ := by
  induction l generalizing p with
  | nil => exact ⟨rfl, by simp [replay, yieldOf, Progress.yield]⟩
  | cons e l ih =>
    rw [List.findSome?_cons] at hl
    rw [replay]
    cases he : e.halt? mode with
    | some h => rw [he] at hl; cases hl
    | none =>
      rw [he] at hl
      obtain ⟨h1, h2⟩ := ih hl (e.apply p)
      refine ⟨h1, h2.trans ?_⟩
      cases e <;> simp [apply, yieldOf, record?, mismatch?, List.filterMap_cons]

theorem halt?_lenient (e : Event V) : e.halt? .lenient = e.stale?.map .stale := by
  cases e with
  | check node => simp only [halt?, stale?]; split <;> rfl
  | _ => rfl

theorem findSome?_halt?_lenient (l : List (Event V)) :
    l.findSome? (halt? .lenient) = (l.findSome? stale?).map .stale := by
  induction l with
  | nil => rfl
  | cons e l ih =>
    rw [List.findSome?_cons, List.findSome?_cons, halt?_lenient, ih]
    cases e.stale? <;> rfl

theorem halt?_strict_eq_none_iff {e : Event V} : e.halt? .strict = none ↔ e.stale? = none ∧ e.mismatch? = none := by
  cases e <;> simp [halt?, stale?, mismatch?]

/-- A strict walk that no event halts meets no stale mark and no mismatch. -/
theorem of_findSome?_halt?_strict_eq_none {l : List (Event V)} (h : l.findSome? (halt? .strict) = none) :
    l.findSome? stale? = none ∧ (yieldOf l).mismatches = [] := by
  have hn : ∀ e ∈ l, e.stale? = none ∧ e.mismatch? = none := by
    intro e he
    exact halt?_strict_eq_none_iff.mp (List.findSome?_eq_none_iff.mp h e he)
  exact ⟨List.findSome?_eq_none_iff.mpr fun e he => (hn e he).1,
    List.filterMap_eq_nil_iff.mpr fun e he => (hn e he).2⟩

/-- The mismatch that halts a strict walk is the first. -/
theorem head?_mismatches {l : List (Event V)} {m : Mismatch V} (h : l.findSome? (halt? .strict) = some (.mismatch m)) :
    (yieldOf l).mismatches.head? = some m := by
  show (l.filterMap mismatch?).head? = some m
  rw [List.head?_filterMap]
  induction l with
  | nil => cases h
  | cons e l ih =>
    rw [List.findSome?_cons] at h ⊢
    cases e with
    | mismatch m' => cases h; rfl
    | check node =>
      cases hs : node.isStale with
      | true => simp [halt?, hs] at h
      | false => exact ih (by simpa [halt?, hs] using h)
    | _ => exact ih h

/-- As long as no mark is stale, the first mismatch halts a strict walk. -/
theorem findSome?_halt?_strict {l : List (Event V)} (h : l.findSome? stale? = none) :
    l.findSome? (halt? .strict) = (yieldOf l).mismatches.head?.map .mismatch := by
  show _ = (l.filterMap mismatch?).head?.map Halt.mismatch
  rw [List.head?_filterMap]
  induction l with
  | nil => rfl
  | cons e l ih =>
    rw [List.findSome?_cons] at h
    rw [List.findSome?_cons, List.findSome?_cons]
    cases he : e.stale? with
    | some node => rw [he] at h; cases h
    | none =>
      rw [he] at h
      cases e with
      | mismatch m => rfl
      | check node =>
        have hc : halt? .strict (check node : Event V) = (stale? (check node : Event V)).map Halt.stale :=
          halt?_lenient (check node)
        rw [hc, he]
        exact ih h
      | _ => exact ih h

end Event

/-! ## Walkers as lists of events -/

open Event

/-- From any state the part does what the events, given the path of the state, do. -/
def Walker.Replays (mode : Mode) (part : Walker V Unit) (events : List Hop → List (Event V)) : Prop :=
  ∀ p : Progress V, part.run p = replay mode (events p.path) p

namespace Walker

theorem run_seq (part next : Walker V Unit) (p : Progress V) :
    (do part; next : Walker V Unit).run p =
      match part.run p with
      | (.ok (), q) => next.run q
      | (.error h, q) => (.error h, q) := by
  show (match part.run p with
    | (r, q) => (ExceptT.bindCont (fun _ => next) r : StateM (Progress V) _) q) = _
  rcases part.run p with ⟨_ | _, q⟩ <;> rfl

namespace Replays

variable {mode : Mode} {part next : Walker V Unit} {events rest : List Hop → List (Event V)}

theorem nothing : Replays mode (pure () : Walker V Unit) fun _ => [] := fun _ => rfl

theorem seq (h : Replays mode part events) (hn : Replays mode next rest) :
    Replays mode (do part; next) fun path => events path ++ rest path := by
  intro p
  have hp := replay_path mode (events p.path) p
  rw [run_seq, h p, replay_append]
  generalize replay mode (events p.path) p = out at hp
  rcases out with ⟨_ | _, q⟩
  · rfl
  · show next.run q = replay mode (rest p.path) q
    rw [← hp]
    exact hn q

theorem forM {α : Type} {l : List α} {part : α → Walker V Unit} {events : List Hop → α → List (Event V)}
    (h : ∀ a ∈ l, Replays mode (part a) (events · a)) :
    Replays mode (l.forM part) fun path => l.flatMap (events path) := by
  induction l with
  | nil => exact nothing
  | cons a l ih => exact (h a (List.mem_cons_self ..)).seq (ih fun b hb => h b (List.mem_cons_of_mem _ hb))

theorem tell (node : Spec) (chosen available : Nat) :
    Replays mode (Walker.tell (.chose node chosen available) : Walker V Unit) fun _ => [.chose node chosen available] :=
  fun _ => rfl

theorem put (r : Record V) : Replays mode (Walker.put r) fun _ => [.record r] := fun _ => rfl

theorem miss (m : Mismatch V) : Replays mode (Walker.miss mode m) fun _ => [.mismatch m] := by
  intro p
  cases mode <;> rfl

theorem refuse (node : Spec) (found : V) :
    Replays mode (Walker.refuse mode node found) fun path => [.mismatch ⟨node, path, found⟩] :=
  fun p => miss ⟨node, p.path, found⟩ p

theorem within (hop : Hop) (h : Replays mode part events) :
    Replays mode (Walker.within hop part) fun path => events (path ++ [hop]) := by
  intro p
  show (match part.run { p with path := p.path ++ [hop] } with
    | (r, q) => (r, { q with path := q.path.dropLast })) = _
  have hp := replay_path mode (events (p.path ++ [hop])) p
  rw [h, replay_withPath]
  generalize replay mode (events (p.path ++ [hop])) p = out at hp
  obtain ⟨r, q⟩ := out
  show (r, { q with path := (p.path ++ [hop]).dropLast }) = (r, q)
  rw [List.dropLast_concat, ← hp]

end Replays

end Walker

/-! ## The events of a walk -/

theorem Rule.accepted_of_isEmpty {r : Rule} (h : r.filter.isEmpty) (entries : List (Entry V)) :
    r.accepted entries = entries :=
  List.filter_eq_self.mpr fun e _ => Filter.accepts_of_isEmpty h e.position e.name

namespace Spec

def ordinals (node : Spec) (e : Entry V) : List (Record V) :=
  match node.ordinal with
  | some name => [⟨.ordinal, some name, e, node⟩]
  | none => []

/-- With a mark that is not stale the filter alone decides. -/
theorem replays_choose {mode : Mode} {node : Spec} {entries : List (Entry V)} {part : List (Entry V) → Walker V Unit}
    {events : List Hop → List (Event V)} (h : Walker.Replays mode (part (node.accepted entries)) events) :
    Walker.Replays mode (do part (← node.choose entries)) fun path => .check node :: events path := by
  intro p
  rw [replay]
  cases hs : node.isStale with
  | true => simp only [choose, halt?, hs, if_true]; rfl
  | false =>
    have hc : (if node.terminal then entries else node.accepted entries) = node.accepted entries := by
      split
      · rename_i ht
        rw [Rule.isStale, ht, Bool.true_and, Bool.not_eq_false'] at hs
        rw [Rule.accepted_of_isEmpty hs]
      · rfl
    simp only [choose, halt?, hs, hc]
    exact h p

theorem replays_putOrdinal {mode : Mode} (node : Spec) (e : Entry V) :
    Walker.Replays mode (node.putOrdinal e) fun _ => (node.ordinals e).map .record := by
  unfold putOrdinal ordinals
  cases node.ordinal with
  | none => exact .nothing
  | some name => exact .put _

variable [Nesting V]

/-- What a node does that looks at entries, as though no mark were stale. -/
def visit (label : Option String) (path : List Hop) (entries : List (Entry V)) (node : Spec) : List (Event V) :=
  if node.isNil then []
  else
    let chosen := node.accepted entries
    .check node :: .chose node chosen.length entries.length :: chosen.flatMap fun e =>
      if node.isLeaf then (node.ordinals e).map .record ++ [.record ⟨.value, node.label.or label, e, node⟩]
      else
        match Nesting.entries e.value with
        | none => [.mismatch ⟨node, path ++ [e.hop], e.value⟩]
        | some inside => (node.ordinals e).map .record ++ node.branches.attach.flatMap fun b =>
            visit (b.1.1.or (node.label.or label)) (path ++ [e.hop]) inside b.1.2
termination_by sizeOf node
decreasing_by exact sizeOf_lt_of_mem_branches b.2

/-- What the nodes below a node do that look at the same entries. -/
def descend (label : Option String) (path : List Hop) (entries : List (Entry V)) (node : Spec) : List (Event V) :=
  node.branches.flatMap fun b => visit (b.1.or label) path entries b.2

/-- What a node does with an entry it chose. -/
def pick (label : Option String) (path : List Hop) (node : Spec) (e : Entry V) : List (Event V) :=
  if node.isLeaf then (node.ordinals e).map .record ++ [.record ⟨.value, node.label.or label, e, node⟩]
  else
    match Nesting.entries e.value with
    | none => [.mismatch ⟨node, path ++ [e.hop], e.value⟩]
    | some inside => (node.ordinals e).map .record ++ descend (node.label.or label) (path ++ [e.hop]) inside node

theorem descend_of_isLeaf {node : Spec} (h : node.isLeaf) (label : Option String) (path : List Hop)
    (entries : List (Entry V)) : descend label path entries node = [] := by
  rw [descend, branches_eq_nil_of_isLeaf h, List.flatMap_nil]

theorem visit_of_isNil {node : Spec} (h : node.isNil) (label : Option String) (path : List Hop)
    (entries : List (Entry V)) : visit label path entries node = [] := by
  rw [visit, if_pos h]

theorem visit_of_not_isNil {node : Spec} (h : node.isNil = false) (label : Option String) (path : List Hop)
    (entries : List (Entry V)) :
    visit label path entries node =
      .check node :: .chose node (node.accepted entries).length entries.length ::
        (node.accepted entries).flatMap (pick label path node) := by
  -- the recursion runs over the branches with the proof that they are smaller
  have hd : ∀ label path (inside : List (Entry V)),
      (node.branches.attach.flatMap fun b => visit (b.1.1.or label) path inside b.1.2) =
        descend label path inside node := by
    intro label path inside
    rw [List.flatMap_def,
      List.attach_map_val (f := fun b : Option String × Spec => visit (b.1.or label) path inside b.2)]
    rfl
  rw [visit, h]
  simp only [Bool.false_eq_true, if_false, hd]
  rfl

/-- The events of matching the tree against a value. -/
def trace (root : Spec) (v : V) : List (Event V) :=
  if root.isNil then []
  else match Nesting.entries v with
    | none => [.mismatch ⟨root, [], v⟩]
    | some entries =>
      if root.isLeaf then root.visit none [] entries
      else .check root ::
        ((root.accepted entries).flatMap fun e => (root.ordinals e).map .record) ++
          descend root.label [] (root.accepted entries) root

theorem trace_of_isNil {root : Spec} (h : root.isNil) (v : V) : root.trace v = [] := by
  rw [trace, if_pos h]

/-! ## Every walk replays its events -/

section

variable {mode : Mode}

/-- A node does what its events say, under every label and at all entries. -/
def SelectReplays (V : Type) [Nesting V] (mode : Mode) (s : Spec) : Prop :=
  ∀ label (entries : List (Entry V)), Walker.Replays mode (select mode label entries s) (visit label · entries s)

/-- What each node of a list does, the list does. -/
theorem replays_selectAll {l : List Spec} (h : ∀ s ∈ l, SelectReplays V mode s) (label : Option String)
    (entries : List (Entry V)) :
    Walker.Replays mode (selectAll mode label entries l) fun path => l.flatMap (visit label path entries) := by
  induction l with
  | nil => exact .nothing
  | cons s l ih =>
    exact (h s (List.mem_cons_self ..) label entries).seq (ih fun c hc => h c (List.mem_cons_of_mem _ hc))

theorem replays_selectGroups {l : List (Group Spec)} (h : ∀ g ∈ l, ∀ s ∈ g.members, SelectReplays V mode s)
    (entries : List (Entry V)) :
    Walker.Replays mode (selectGroups mode entries l) fun path =>
      l.flatMap fun g => g.members.flatMap (visit (some g.label) path entries) := by
  induction l with
  | nil => exact .nothing
  | cons g l ih =>
    exact (replays_selectAll (h g (List.mem_cons_self ..)) (some g.label) entries).seq
      (ih fun g' hg => h g' (List.mem_cons_of_mem _ hg))

theorem replays_descend {node : Spec} (h : ∀ edge c, (edge, c) ∈ node.branches → SelectReplays V mode c)
    (label : Option String) (entries : List (Entry V)) :
    Walker.Replays mode (do selectAll mode label entries node.children; selectGroups mode entries node.groups)
      (descend label · entries node) := by
  have hc := replays_selectAll (fun c hc => h none c (mem_branches.mpr (Or.inl ⟨rfl, hc⟩))) label entries
  have hg := replays_selectGroups
    (fun g hg c hc => h (some g.label) c (mem_branches.mpr (Or.inr ⟨g, hg, rfl, hc⟩))) entries
  have hd : ∀ path, descend label path entries node =
      node.children.flatMap (visit label path entries) ++
        node.groups.flatMap fun g => g.members.flatMap (visit (some g.label) path entries) := by
    intro path
    simp [descend, branches, List.flatMap_append, List.flatMap_map, List.flatMap_assoc]
  simp only [hd]
  exact hc.seq hg

/-- A node's step on an entry it chose. -/
def take (mode : Mode) (label : Option String) (node : Spec) (e : Entry V) : Walker V Unit :=
  if node.isLeaf then do
    node.putOrdinal e
    Walker.put ⟨.value, node.label.or label, e, node⟩
  else Walker.within e.hop <|
    match Nesting.entries e.value with
    | some inside => do
      node.putOrdinal e
      selectAll mode (node.label.or label) inside node.children
      selectGroups mode inside node.groups
    | none => Walker.refuse mode node e.value

theorem select_eq (s : Spec) (label : Option String) (entries : List (Entry V)) :
    select mode label entries s =
      if s.isNil then pure ()
      else (do
        let chosen ← s.choose entries
        Walker.tell (.chose s chosen.length entries.length)
        chosen.forM (take mode label s)) := by
  obtain ⟨rule, children, groups⟩ := s
  rw [select]
  rfl

theorem replays_take {node : Spec} (h : ∀ edge c, (edge, c) ∈ node.branches → SelectReplays V mode c)
    (label : Option String) (e : Entry V) :
    Walker.Replays mode (take mode label node e) (pick label · node e) := by
  unfold take pick
  cases node.isLeaf with
  | true => exact (replays_putOrdinal node e).seq (.put _)
  | false =>
    cases Nesting.entries e.value with
    | none => exact (Walker.Replays.refuse node e.value).within e.hop
    | some inside =>
      exact ((replays_putOrdinal node e).seq (replays_descend h (node.label.or label) inside)).within e.hop

theorem replays_select (s : Spec) : SelectReplays V mode s := by
  induction s using induction_branches with
  | step s ih =>
    intro label entries
    rw [select_eq]
    cases hn : s.isNil with
    | true =>
      simp only [visit_of_isNil hn]
      exact .nothing
    | false =>
      simp only [visit_of_not_isNil hn]
      refine replays_choose ?_
      exact Walker.Replays.seq (.tell _ _ _) (.forM fun e _ => replays_take ih label e)

theorem replays_walk (root : Spec) (v : V) {p : Progress V} (hp : p.path = []) :
    (root.walk mode v).run p = replay mode (root.trace v) p := by
  unfold walk trace
  cases root.isNil with
  | true => rfl
  | false =>
    cases Nesting.entries v with
    | none =>
      have h : Walker.Replays mode (Walker.refuse mode root v) fun path => [.mismatch ⟨root, path, v⟩] := .refuse root v
      exact hp ▸ h p
    | some entries =>
      cases root.isLeaf with
      | true =>
        have h : Walker.Replays mode (select mode none entries root) (visit none · entries root) :=
          replays_select root none entries
        exact hp ▸ h p
      | false =>
        let seen := root.accepted entries
        have ho : Walker.Replays mode (seen.forM root.putOrdinal) fun _ =>
            seen.flatMap fun e => (root.ordinals e).map .record := .forM fun e _ => replays_putOrdinal root e
        have hd : Walker.Replays mode
            (do selectAll mode root.label seen root.children; selectGroups mode seen root.groups)
            (descend root.label · seen root) := replays_descend (fun _ c _ => replays_select c) root.label seen
        have h : Walker.Replays mode
            (do
              let seen ← root.choose entries
              seen.forM root.putOrdinal
              selectAll mode root.label seen root.children
              selectGroups mode seen root.groups)
            fun path => .check root :: ((seen.flatMap fun e => (root.ordinals e).map .record) ++
              descend root.label path seen root) := replays_choose (ho.seq hd)
        exact hp ▸ h p

theorem explore_eq_replay (root : Spec) (v : V) : root.explore mode v = replay mode (root.trace v) {} :=
  replays_walk root v rfl

end

/-! ## What a match yields -/

theorem explore_of_halts {mode : Mode} {s : Spec} {v : V} {h : Halt V}
    (hl : (s.trace v).findSome? (halt? mode) = some h) : ∃ p, s.explore mode v = (.error h, p) := by
  have hr := replay_of_halts hl {}
  rw [← explore_eq_replay] at hr
  exact ⟨_, Prod.ext hr rfl⟩

theorem explore_of_goes_on {mode : Mode} {s : Spec} {v : V} (hl : (s.trace v).findSome? (halt? mode) = none) :
    ∃ p, s.explore mode v = (.ok (), p) ∧ p.yield = yieldOf (s.trace v) := by
  obtain ⟨hr, hy⟩ := replay_of_goes_on hl {}
  rw [← explore_eq_replay] at hr hy
  exact ⟨_, Prod.ext hr rfl, hy⟩

theorem gather_eq (mode : Mode) (s : Spec) (v : V) :
    s.gather mode v =
      match (s.trace v).findSome? (halt? mode) with
      | some h => .error h
      | none => .ok (yieldOf (s.trace v)) := by
  unfold gather
  cases hl : (s.trace v).findSome? (halt? mode) with
  | some h =>
    obtain ⟨p, hp⟩ := explore_of_halts hl
    rw [hp]
  | none =>
    obtain ⟨p, hp, hy⟩ := explore_of_goes_on hl
    rw [hp, ← hy]

theorem gatherLenient_eq (s : Spec) (v : V) :
    s.gatherLenient v =
      match (s.trace v).findSome? stale? with
      | some node => .error node
      | none => .ok (yieldOf (s.trace v)) := by
  have hs := findSome?_halt?_lenient (s.trace v)
  unfold gatherLenient
  cases hl : (s.trace v).findSome? stale? with
  | some node =>
    rw [hl] at hs
    obtain ⟨p, hp⟩ := explore_of_halts hs
    rw [hp]
  | none =>
    rw [hl] at hs
    obtain ⟨p, hp, hy⟩ := explore_of_goes_on hs
    rw [hp, ← hy]

theorem gatherStrict_eq (s : Spec) (v : V) :
    s.gatherStrict v =
      match (s.trace v).findSome? (halt? .strict) with
      | some h => .error h
      | none => .ok (yieldOf (s.trace v)).records := by
  rw [gatherStrict, gather_eq]
  cases (s.trace v).findSome? (halt? .strict) <;> rfl

/-- A lenient match that comes to a result met no stale mark. -/
theorem gatherLenient_eq_ok_iff {s : Spec} {v : V} {y : Yield V} :
    s.gatherLenient v = .ok y ↔ (s.trace v).findSome? stale? = none ∧ yieldOf (s.trace v) = y := by
  rw [gatherLenient_eq]
  cases (s.trace v).findSome? stale? <;> simp

theorem gatherStrict_of_no_stale {s : Spec} {v : V} (h : (s.trace v).findSome? stale? = none) :
    s.gatherStrict v = (yieldOf (s.trace v)).toExcept.mapError .mismatch := by
  rw [gatherStrict_eq, findSome?_halt?_strict h, Yield.toExcept]
  cases (yieldOf (s.trace v)).mismatches <;> rfl

end Spec

end Harvest
