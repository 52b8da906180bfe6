/-
  Harvest.Proofs.Unentered — data that no node enters.

  A walk looks inside an entry only where an inner node takes it (`Spec.EntersAt`). What
  stands anywhere else can be replaced: two values that differ in one such place make the
  walk do the same, event by event, but for the values inside the records it puts out
  (`trace_outline`). So the outlines of the records, the mismatches and the failure of a
  strict match are the same (`unentered_data_has_no_influence`).

  A place is given by the positions of the entries that lead to it. Replacing the value in
  a place keeps the position and the name of the entry (`Replaced`); every place of a
  document can be given every value (`Json.replaced_replaceAt`).
-/

import Harvest.Proofs.Reach

namespace Harvest

variable {V : Type}

/-! ## Values that differ in one place -/

section

variable [Nesting V]

/-- Entries that are the same but for the value in the place at the end of the positions. -/
inductive ReplacedIn : List Nat → List (Entry V) → List (Entry V) → Prop
  | here {before after : List (Entry V)} {e : Entry V} (w : V) :
      ReplacedIn [e.position] (before ++ e :: after) (before ++ { e with value := w } :: after)
  | inside {before after l l' : List (Entry V)} {e : Entry V} {w : V} {place : List Nat} :
      Nesting.entries e.value = some l → Nesting.entries w = some l' → ReplacedIn place l l' →
        ReplacedIn (e.position :: place) (before ++ e :: after) (before ++ { e with value := w } :: after)

/-- The second value is the first with another one in the place. -/
def Replaced (place : List Nat) (v v' : V) : Prop :=
  ∃ l l', Nesting.entries v = some l ∧ Nesting.entries v' = some l' ∧ ReplacedIn place l l'

end

theorem ReplacedIn.split [Nesting V] {place : List Nat} {l l' : List (Entry V)} (h : ReplacedIn place l l') :
    ∃ before after e w, l = before ++ e :: after ∧ l' = before ++ { e with value := w } :: after := by
  cases h with
  | here w => exact ⟨_, _, _, w, rfl, rfl⟩
  | inside => exact ⟨_, _, _, _, rfl, rfl⟩

theorem Rule.accepted_append_cons (r : Rule) (before after : List (Entry V)) (e : Entry V) :
    r.accepted (before ++ e :: after) =
      r.accepted before ++ (if r.filter.accepts e.position e.name then [e] else []) ++ r.accepted after := by
  cases ha : r.filter.accepts e.position e.name <;> simp [accepted, ha]

/-- A filter drops the entry that leads to the place, or keeps it with its value. -/
theorem ReplacedIn.accepted [Nesting V] {place : List Nat} {l l' : List (Entry V)} (h : ReplacedIn place l l')
    (r : Rule) : r.accepted l = r.accepted l' ∨ ReplacedIn place (r.accepted l) (r.accepted l') := by
  cases h with
  | @here before after e w =>
    rw [r.accepted_append_cons, r.accepted_append_cons]
    cases r.filter.accepts e.position e.name with
    | false => exact Or.inl rfl
    | true => exact Or.inr (by simpa using .here w)
  | @inside before after l l' e w place he hw hl =>
    rw [r.accepted_append_cons, r.accepted_append_cons]
    cases r.filter.accepts e.position e.name with
    | false => exact Or.inl rfl
    | true => exact Or.inr (by simpa using .inside he hw hl)

/-! ## Documents -/

namespace Json

/-- The value in a place of a document, if there is one. -/
def valueAt? (v : Json) : List Nat → Option Json
  | [] => some v
  | p :: place =>
    match v with
    | .array items => items[p]?.bind (valueAt? · place)
    | .object members => members[p]?.bind fun m => valueAt? m.2 place
    | _ => none

/-- The document with another value in a place. -/
def replaceAt (v : Json) (place : List Nat) (w : Json) : Json :=
  match place with
  | [] => w
  | p :: place =>
    match v with
    | .array items => .array (items.modify p (replaceAt · place w))
    | .object members => .object (members.modify p fun m => (m.1, replaceAt m.2 place w))
    | v => v

theorem mapIdx_modify {α β : Type} {l : List α} {p : Nat} {a : α} (h : l[p]? = some a) (f : α → α) (g : Nat → α → β) :
    ∃ before after, l.mapIdx g = before ++ g p a :: after ∧ (l.modify p f).mapIdx g = before ++ g p (f a) :: after := by
  obtain ⟨hp, rfl⟩ := List.getElem?_eq_some_iff.mp h
  have hlen : (l.take p).length = p := List.length_take_of_le (Nat.le_of_lt hp)
  have hl : l = l.take p ++ l[p] :: l.drop (p + 1) := by simp
  refine ⟨(l.take p).mapIdx g, (l.drop (p + 1)).mapIdx fun i => g (i + 1 + p), ?_, ?_⟩
  · refine (congrArg (List.mapIdx g) hl).trans ?_
    simp only [List.mapIdx_append, List.mapIdx_cons, hlen, Nat.zero_add]
  · rw [List.modify_eq_take_cons_drop hp]
    simp only [List.mapIdx_append, List.mapIdx_cons, hlen, Nat.zero_add]

/-- Every place of a document can be given every value. -/
theorem replaced_replaceAt {place : List Nat} {v x : Json} (hp : place ≠ []) (h : v.valueAt? place = some x)
    (w : Json) : Replaced place v (v.replaceAt place w) := by
  induction place generalizing v with
  | nil => exact absurd rfl hp
  | cons p place ih =>
    -- an array and an object differ only in the names of their entries
    have hstep : ∀ (e : Entry Json) {before after : List (Entry Json)}, e.value.valueAt? place = some x →
        ReplacedIn (e.position :: place) (before ++ e :: after)
          (before ++ { e with value := e.value.replaceAt place w } :: after) := by
      intro e before after he
      by_cases hnil : place = []
      · subst hnil
        exact .here w
      · obtain ⟨l, l', hl, hl', hin⟩ := ih hnil he
        exact .inside hl hl' hin
    cases v with
    | array items =>
      obtain ⟨u, hu, hx⟩ := Option.bind_eq_some_iff.mp h
      obtain ⟨before, after, hl, hl'⟩ := mapIdx_modify hu (replaceAt · place w) fun i v => (⟨i, none, v⟩ : Entry Json)
      exact ⟨_, _, congrArg some hl, congrArg some hl', hstep ⟨p, none, u⟩ hx⟩
    | object members =>
      obtain ⟨m, hm, hx⟩ := Option.bind_eq_some_iff.mp h
      obtain ⟨before, after, hl, hl'⟩ := mapIdx_modify hm (fun m => (m.1, replaceAt m.2 place w)) fun i m =>
        (⟨i, some m.1, m.2⟩ : Entry Json)
      exact ⟨_, _, congrArg some hl, congrArg some hl', hstep ⟨p, some m.1, m.2⟩ hx⟩
    | _ => cases h

end Json

/-! ## Outlines -/

abbrev Record.Outline := RecordKind × Nat × Option String × Option String × Spec

/-- A record but for the value of its entry. -/
def Record.outline (r : Record V) : Record.Outline := (r.kind, r.entry.position, r.specName, r.entry.name, r.node)

namespace Event

/-- An event but for the value in the record it puts out. -/
def outline : Event V → Record.Outline ⊕ Event V
  | .record r => .inl r.outline
  | e => .inr e

theorem yieldOf_outline (l : List (Event V)) :
    (yieldOf l).records.map Record.outline = (l.map outline).filterMap Sum.getLeft? ∧
      (yieldOf l).mismatches = (l.map outline).filterMap fun o => o.getRight?.bind mismatch? := by
  simp only [yieldOf, List.map_filterMap, List.filterMap_map]
  constructor <;> refine List.filterMap_congr fun e _ => ?_ <;> cases e <;> rfl

end Event

theorem Yield.toExcept_outline {y z : Yield V} (hr : y.records.map Record.outline = z.records.map Record.outline)
    (hm : y.mismatches = z.mismatches) :
    (y.toExcept.mapError Halt.mismatch).map (·.map Record.outline) =
      (z.toExcept.mapError Halt.mismatch).map (·.map Record.outline) := by
  unfold toExcept
  rw [hm]
  cases z.mismatches with
  | nil => exact congrArg Except.ok hr
  | cons m _ => rfl

/-! ## Walks -/

def Route.positions (r : Route V) : List Nat := r.map (·.entry.position)

namespace Spec

open Event

theorem ordinals_outline (node : Spec) (e : Entry V) (w : V) :
    ((node.ordinals e).map Event.record).map outline =
      ((node.ordinals { e with value := w }).map Event.record).map outline := by
  unfold ordinals
  cases node.ordinal <;> rfl

variable [Nesting V]

/-- An inner node below the root takes the entry in the place. -/
def EntersAt (root : Spec) (v : V) (place : List Nat) : Prop :=
  ∃ entered leg, root.IsRoute v (entered ++ [leg]) ∧ leg.node.isLeaf = false ∧
    Route.positions (entered ++ [leg]) = place

/-- The same below a node that looks at entries. -/
def EntersIn (node : Spec) (entries : List (Entry V)) (place : List Nat) : Prop :=
  ∃ entered last inside leg, Enters node entries entered last inside ∧ Leg.Fits last inside leg ∧
    leg.node.isLeaf = false ∧ Route.positions (entered ++ [leg]) = place

theorem not_entersIn_nil {node : Spec} {entries : List (Entry V)} : ¬ node.EntersIn entries [] := by
  rintro ⟨entered, last, inside, leg, -, -, -, hp⟩
  simp [Route.positions] at hp

/-- A node below takes the first entry of the place, and this is all of it or it enters it. -/
theorem entersIn_cons_iff {node : Spec} {entries : List (Entry V)} {position : Nat} {place : List Nat} :
    node.EntersIn entries (position :: place) ↔
      ∃ leg : Leg V, leg.Fits node entries ∧ leg.node.isLeaf = false ∧ leg.entry.position = position ∧
        (place = [] ∨ ∃ inside, Nesting.entries leg.entry.value = some inside ∧ leg.node.EntersIn inside place) := by
  constructor
  · rintro ⟨entered, last, inside, leg, hent, hf, hl, hp⟩
    cases hent with
    | here =>
      obtain ⟨rfl, rfl⟩ := List.cons.inj hp
      exact ⟨leg, hf, hl, rfl, Or.inl rfl⟩
    | @further _ _ _ entered _ first rest hf' hl' he hent =>
      obtain ⟨rfl, rfl⟩ := List.cons.inj hp
      exact ⟨first, hf', hl', rfl, Or.inr ⟨_, he, rest, last, inside, leg, hent, hf, hl, rfl⟩⟩
  · rintro ⟨leg, hf, hl, rfl, rfl | ⟨inside, he, entered, last, ending, final, hent, hf', hl', rfl⟩⟩
    · exact ⟨[], node, entries, leg, .here, hf, hl, rfl⟩
    · exact ⟨leg :: entered, last, ending, final, .further hf hl he hent, hf', hl', rfl⟩

theorem entersAt_iff {root : Spec} {v : V} {place : List Nat} :
    root.EntersAt v place ↔ root.isNil = false ∧ root.isLeaf = false ∧
      ∃ entries, Nesting.entries v = some entries ∧ root.EntersIn (root.accepted entries) place := by
  constructor
  · rintro ⟨entered, leg, hr, hl, hp⟩
    generalize hroute : entered ++ [leg] = route at hr
    cases hr with
    | leaf hn he hroot _ _ =>
      obtain ⟨rfl, hleg⟩ := List.append_inj' (show entered ++ [leg] = [] ++ [_] from hroute) rfl
      cases hleg
      exact absurd hroot (by simp [hl])
    | inner hn he hroot hent hf =>
      obtain ⟨rfl, hleg⟩ := List.append_inj' hroute rfl
      cases hleg
      exact ⟨hn, hroot, _, he, _, _, _, _, hent, hf, hl, hp⟩
  · rintro ⟨hn, hroot, entries, he, entered, last, inside, leg, hent, hf, hl, hp⟩
    exact ⟨entered, leg, .inner hn he hroot hent hf, hl, hp⟩

/-- What is below a place can be entered only through it. -/
theorem EntersIn.of_append {node : Spec} {entries : List (Entry V)} {p q : List Nat} (hp : p ≠ [])
    (h : node.EntersIn entries (p ++ q)) : node.EntersIn entries p := by
  induction p generalizing node entries with
  | nil => exact absurd rfl hp
  | cons position p ih =>
    obtain ⟨leg, hf, hl, rfl, hrest⟩ := entersIn_cons_iff.mp h
    refine entersIn_cons_iff.mpr ⟨leg, hf, hl, rfl, ?_⟩
    by_cases hnil : p = []
    · exact Or.inl hnil
    · rcases hrest with hnone | ⟨inside, he, hin⟩
      · exact absurd (List.append_eq_nil_iff.mp hnone).1 hnil
      · exact Or.inr ⟨inside, he, ih hnil hin⟩

/-- Nodes that are so many levels below a node. -/
inductive HoldsAt : Nat → Spec → Spec → Prop
  | here (s : Spec) : HoldsAt 0 s s
  | under {s c t : Spec} {edge : Option String} {level : Nat} :
      (edge, c) ∈ s.branches → HoldsAt level c t → HoldsAt (level + 1) s t

/-- A place is entered by a node as many levels below as the place is deep. -/
theorem EntersIn.holdsAt {node : Spec} {entries : List (Entry V)} {place : List Nat} (h : node.EntersIn entries place) :
    ∃ t, HoldsAt place.length node t := by
  induction place generalizing node entries with
  | nil => exact absurd h not_entersIn_nil
  | cons position place ih =>
    obtain ⟨leg, hf, -, -, rfl | ⟨inside, -, hin⟩⟩ := entersIn_cons_iff.mp h
    · exact ⟨leg.node, .under (List.mem_of_getElem? hf.branch) (.here _)⟩
    · obtain ⟨t, ht⟩ := ih hin
      exact ⟨t, .under (List.mem_of_getElem? hf.branch) ht⟩

theorem pick_outline_of_isLeaf {node : Spec} (h : node.isLeaf) (label : Option String) (path : List Hop) (e : Entry V)
    (w : V) : (pick label path node e).map outline = (pick label path node { e with value := w }).map outline := by
  simp only [pick, h, if_true, List.map_append, ordinals_outline node e w]
  rfl

/-- A node does the same at entries of which it does not take the one that differs, or does
    the same with it. -/
theorem visit_outline {node : Spec} {label : Option String} {path : List Hop} {before after : List (Entry V)}
    {e : Entry V} {w : V}
    (h : node.isNil = false → node.filter.accepts e.position e.name →
      (pick label path node e).map outline = (pick label path node { e with value := w }).map outline) :
    (visit label path (before ++ e :: after) node).map outline =
      (visit label path (before ++ { e with value := w } :: after) node).map outline := by
  cases hn : node.isNil with
  | true => rw [visit_of_isNil hn, visit_of_isNil hn]
  | false =>
    rw [visit_of_not_isNil hn, visit_of_not_isNil hn, node.accepted_append_cons, node.accepted_append_cons]
    cases ha : node.filter.accepts e.position e.name with
    | false => simp
    | true => simp [h hn ha]

/-- Nodes below do the same if those that are inner and take the entry that differs do. -/
theorem descend_outline_of_pick {node : Spec} {before after : List (Entry V)} {e : Entry V} {w : V}
    (h : ∀ leg : Leg V, leg.Fits node (before ++ e :: after) → leg.entry = e → leg.node.isLeaf = false →
      ∀ label path, (pick label path leg.node e).map outline = (pick label path leg.node { e with value := w }).map outline)
    (label : Option String) (path : List Hop) :
    (descend label path (before ++ e :: after) node).map outline =
      (descend label path (before ++ { e with value := w } :: after) node).map outline := by
  rw [descend, descend, List.map_flatMap, List.map_flatMap]
  refine List.flatMap_congr fun b hb => visit_outline fun hnil ha => ?_
  cases hl : b.2.isLeaf with
  | true => exact pick_outline_of_isLeaf hl _ path e w
  | false =>
    obtain ⟨slot, hslot⟩ := List.mem_iff_getElem?.mp hb
    exact h ⟨slot, b.1, b.2, before.length, e⟩ ⟨hslot, hnil, by simp, ha⟩ rfl hl _ path

/-- Where no inner node takes the entry in the place, its value does not count. -/
theorem descend_outline {place : List Nat} {l l' : List (Entry V)} (h : ReplacedIn place l l') {node : Spec}
    (hn : ¬ node.EntersIn l place) (label : Option String) (path : List Hop) :
    (descend label path l node).map outline = (descend label path l' node).map outline := by
  -- by induction down the place: at its last entry an inner node that takes it is excluded,
  -- and above that such a node enters the containers on both sides
  induction h generalizing node label path with
  | here w =>
    apply descend_outline_of_pick
    rintro leg hf rfl hl
    exact absurd (entersIn_cons_iff.mpr ⟨leg, hf, hl, rfl, Or.inl rfl⟩) hn
  | @inside _ _ l l' e w place he hw _ ih =>
    apply descend_outline_of_pick
    rintro leg hf rfl hl label path
    have hbelow : ¬ leg.node.EntersIn l place := by
      intro hin
      exact hn (entersIn_cons_iff.mpr ⟨leg, hf, hl, rfl, Or.inr ⟨l, he, hin⟩⟩)
    simp only [pick, hl, he, hw, Bool.false_eq_true, if_false, List.map_append, ordinals_outline leg.node leg.entry w]
    exact congrArg _ (ih hbelow _ _)

theorem trace_outline {root : Spec} {place : List Nat} {v v' : V} (h : Replaced place v v')
    (hn : ¬ root.EntersAt v place) : (root.trace v).map outline = (root.trace v').map outline := by
  obtain ⟨l, l', hv, hv', hl⟩ := h
  unfold trace
  rw [hv, hv']
  cases hnil : root.isNil with
  | true => rfl
  | false =>
    cases hleaf : root.isLeaf with
    | true =>
      obtain ⟨before, after, e, w, rfl, rfl⟩ := hl.split
      exact visit_outline fun _ _ => pick_outline_of_isLeaf hleaf none [] e w
    | false =>
      rcases hl.accepted root.toRule with heq | hseen
      · simp [heq]
      · have hbelow : ¬ root.EntersIn (root.accepted l) place := by
          intro hin
          exact hn (entersAt_iff.mpr ⟨hnil, hleaf, l, hv, hin⟩)
        have hordinals : ((root.accepted l).flatMap fun e => ((root.ordinals e).map .record).map outline) =
            (root.accepted l').flatMap fun e => ((root.ordinals e).map Event.record).map outline := by
          obtain ⟨before, after, e, w, hb, hb'⟩ := hseen.split
          rw [hb, hb']
          simp only [List.flatMap_append, List.flatMap_cons, ordinals_outline root e w]
        have hd := descend_outline hseen hbelow root.label []
        simp only [Bool.false_eq_true, if_false, List.map_cons, List.map_append, List.map_flatMap, hordinals, hd]

/-! ## Matches -/

/-- Let two values differ in one place. If no inner node below the root takes the entry
    there, a match of either puts out the same outlines and skips the same branches, or
    fails in the same way where nothing may be skipped. No node does so in or below a place
    that is excluded or taken by leaves alone, nor in a place deeper than the tree. -/
theorem unentered_data_has_no_influence {s : Spec} (hs : s.Fresh) {place : List Nat} {v v' : V}
    (hr : Replaced place v v') :
    (¬ s.EntersAt v place →
      (∃ y y', s.gatherLenient v = .ok y ∧ s.gatherLenient v' = .ok y' ∧
        y.records.map Record.outline = y'.records.map Record.outline ∧ y.mismatches = y'.mismatches) ∧
      (s.gatherStrict v).map (·.map Record.outline) = (s.gatherStrict v').map (·.map Record.outline)) ∧
    (∀ p q, place = p ++ q → p ≠ [] →
      (∀ entered leg, s.IsRoute v (entered ++ [leg]) → Route.positions (entered ++ [leg]) = p → leg.node.isLeaf) →
        ¬ s.EntersAt v place) ∧
    ((∀ t, ¬ HoldsAt place.length s t) → ¬ s.EntersAt v place) := by
  refine ⟨?_, ?_, ?_⟩
  · intro hn
    have ht := trace_outline hr hn
    obtain ⟨hrecords, hmismatches⟩ := yieldOf_outline (s.trace v)
    obtain ⟨hrecords', hmismatches'⟩ := yieldOf_outline (s.trace v')
    rw [ht, ← hrecords'] at hrecords
    rw [ht, ← hmismatches'] at hmismatches
    refine ⟨⟨_, _, hs.gatherLenient_eq v, hs.gatherLenient_eq v', hrecords, hmismatches⟩, ?_⟩
    rw [gatherStrict_of_no_stale (hs.findSome?_stale? v), gatherStrict_of_no_stale (hs.findSome?_stale? v')]
    exact Yield.toExcept_outline hrecords hmismatches
  · rintro p q rfl hp hleaves h
    obtain ⟨hn, hroot, entries, he, hin⟩ := entersAt_iff.mp h
    obtain ⟨entered, leg, hroute, hl, hpos⟩ := entersAt_iff.mpr ⟨hn, hroot, entries, he, hin.of_append hp⟩
    exact absurd (hleaves entered leg hroute hpos) (by simp [hl])
  · intro hnone h
    obtain ⟨-, -, entries, -, hin⟩ := entersAt_iff.mp h
    obtain ⟨t, ht⟩ := hin.holdsAt
    exact hnone t ht

/-- The root excludes the last entry, so what is in it can be replaced. -/
theorem unentered_data_has_no_influence_in_an_excluded_entry :
    let leaf : Spec := {}
    let inner : Spec := { label := some "x", children := [leaf] }
    let spec : Spec := refresh { filter := ({} : Filter).excludeKey (.name "c"), children := [inner, leaf] }
    let v : Json := .object [("a", .array [.null]), ("b", .null), ("c", .array [.null])]
    let v' : Json := v.replaceAt [2, 0] (.array [])
    spec.Fresh ∧ Replaced [2, 0] v v' ∧ ¬ spec.EntersAt v [2, 0] ∧
      ∃ y y', spec.gatherLenient v = .ok y ∧ spec.gatherLenient v' = .ok y' ∧
        y.records.map (·.entry.hop) = [⟨0, none⟩, ⟨0, some "a"⟩, ⟨1, some "b"⟩] ∧
        y.mismatches.map (·.path) = [[⟨1, some "b"⟩]] ∧
        y.records.map Record.outline = y'.records.map Record.outline ∧ y.mismatches = y'.mismatches := by
  intro leaf inner spec v v'
  have hs : spec.Fresh := fresh_refresh _
  have hr : Replaced [2, 0] v v' := Json.replaced_replaceAt (List.cons_ne_nil _ _) rfl _
  have hn : ¬ spec.EntersAt v [2, 0] := by
    intro h
    obtain ⟨-, -, entries, he, hin⟩ := entersAt_iff.mp h
    cases he
    obtain ⟨leg, hf, -, hp, -⟩ := entersIn_cons_iff.mp hin
    have hmem : leg.entry ∈ [(⟨0, some "a", .array [.null]⟩ : Entry Json), ⟨1, some "b", .null⟩] :=
      List.mem_of_getElem? hf.entry
    rcases List.mem_pair.mp hmem with heq | heq <;> simp [heq] at hp
  obtain ⟨⟨y, y', hy, hy', hrecords, hmismatches⟩, -⟩ := (unentered_data_has_no_influence hs hr).1 hn
  have hl : (spec.gatherLenient v).toOption.map
      (fun y => (y.records.map (·.entry.hop), y.mismatches.map (·.path))) = some (_, _) := rfl
  rw [hy] at hl
  obtain ⟨hhops, hpaths⟩ := Prod.mk.inj (Option.some.inj hl)
  exact ⟨hs, hr, hn, y, y', hy, hy', hhops, hpaths, hrecords, hmismatches⟩

end Spec

end Harvest
