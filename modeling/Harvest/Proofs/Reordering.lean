/-
  Harvest.Proofs.Reordering — the order of members does not count.

  Two values may have the same entries in another order, at any depth (`Reorders`): an
  entry with a name may stand at another position, one without a name may not, since its
  position is all there is to tell it by. Documents whose objects list the same members in
  different orders are such values (`Json.reorders`).

  A node that does not choose by position chooses the same of both. So what a walk does on
  the one it does on the other, in some order and with other positions in the records
  (`trace_reordered`). Paths stay the same, for they tell a named entry by its name. Hence
  the records of the two matches correspond one by one but for positions, the reports of
  the mismatches are the same up to order, and a strict match fails on both or on neither
  (`member_order_is_immaterial`).
-/

import Harvest.Proofs.Skips
import Mathlib.Data.List.Perm.Basic

namespace Harvest

open scoped List

/-! ## Lists up to order -/

section

variable {α β γ δ : Type}

theorem forall₂_comp {R : α → β → Prop} {S : β → γ → Prop} {T : α → γ → Prop} {l : List α} {m : List β} {n : List γ}
    (h : List.Forall₂ R l m) (h' : List.Forall₂ S m n) (hT : ∀ a b c, R a b → S b c → T a c) : List.Forall₂ T l n := by
  induction h generalizing n with
  | nil =>
    cases h'
    exact .nil
  | cons hab _ ih =>
    cases h' with
    | cons hbc h' => exact .cons (hT _ _ _ hab hbc) (ih h')

theorem forall₂_mapIdx {R : α → β → Prop} {S : γ → δ → Prop} {l : List α} {m : List β} (h : List.Forall₂ R l m)
    {f : Nat → α → γ} {g : Nat → β → δ} (hfg : ∀ i a b, R a b → S (f i a) (g i b)) :
    List.Forall₂ S (l.mapIdx f) (m.mapIdx g) := by
  induction h generalizing f g with
  | nil => exact .nil
  | cons hab _ ih =>
    rw [List.mapIdx_cons, List.mapIdx_cons]
    exact .cons (hfg 0 _ _ hab) (ih fun i => hfg (i + 1))

theorem forall₂_mapIdx_self {R : α → β → Prop} {f : Nat → α → β} (h : ∀ i a, R a (f i a)) (l : List α) :
    List.Forall₂ R l (l.mapIdx f) := by
  induction l generalizing f with
  | nil => exact .nil
  | cons a l ih =>
    rw [List.mapIdx_cons]
    exact .cons (h 0 a) (ih fun i => h (i + 1))

variable {R : α → β → Prop} {S : γ → δ → Prop}

/-- The items of the lists correspond, once the second is put in some order. -/
def PermBy (R : α → β → Prop) (l : List α) (m : List β) : Prop := ∃ n, List.Forall₂ R l n ∧ n ~ m

namespace PermBy

variable {l l' : List α} {m m' : List β}

theorem of_forall₂ (h : List.Forall₂ R l m) : PermBy R l m := ⟨m, h, .refl m⟩

theorem trans {Q : β → γ → Prop} {T : α → γ → Prop} {n : List γ} (h : PermBy R l m) (h' : PermBy Q m n)
    (hT : ∀ a b c, R a b → Q b c → T a c) : PermBy T l n := by
  obtain ⟨k, hk, hp⟩ := h
  obtain ⟨k', hk', hp'⟩ := h'
  obtain ⟨j, hj, hjk⟩ := List.perm_comp_forall₂ hp hk'
  exact ⟨j, forall₂_comp hk hj hT, hjk.trans hp'⟩

theorem nil : PermBy R [] [] := of_forall₂ .nil

theorem append (h : PermBy R l m) (h' : PermBy R l' m') : PermBy R (l ++ l') (m ++ m') := by
  obtain ⟨n, hn, hp⟩ := h
  obtain ⟨n', hn', hp'⟩ := h'
  exact ⟨n ++ n', List.rel_append hn hn', hp.append hp'⟩

theorem cons {a : α} {b : β} (hab : R a b) (h : PermBy R l m) : PermBy R (a :: l) (b :: m) :=
  (of_forall₂ (.cons hab .nil)).append h

theorem length_eq (h : PermBy R l m) : l.length = m.length := by
  obtain ⟨n, hn, hp⟩ := h
  exact hn.length_eq.trans hp.length_eq

theorem filter {p : α → Bool} {q : β → Bool} (h : PermBy R l m) (hpq : ∀ a b, R a b → p a = q b) :
    PermBy R (l.filter p) (m.filter q) := by
  obtain ⟨n, hn, hp⟩ := h
  have hiff : ∀ a b, R a b → (p a ↔ q b) := fun a b hab => by rw [hpq a b hab]
  exact ⟨_, List.rel_filter (fun a b => hiff a b) hn, hp.filter q⟩

theorem filterMap {f : α → Option γ} {g : β → Option δ} (h : PermBy R l m)
    (hfg : ∀ a b, R a b → Option.Rel S (f a) (g b)) : PermBy S (l.filterMap f) (m.filterMap g) := by
  obtain ⟨n, hn, hp⟩ := h
  exact ⟨_, List.rel_filterMap (fun a b => hfg a b) hn, hp.filterMap g⟩

theorem flatMap {f : α → List γ} {g : β → List δ} (h : PermBy R l m) (hfg : ∀ a b, R a b → PermBy S (f a) (g b)) :
    PermBy S (l.flatMap f) (m.flatMap g) := by
  obtain ⟨n, hn, hp⟩ := h
  have hf : PermBy S (l.flatMap f) (n.flatMap g) := by
    clear hp
    induction hn with
    | nil => exact nil
    | cons hab _ ih => exact (hfg _ _ hab).append ih
  obtain ⟨k, hk, hkn⟩ := hf
  exact ⟨k, hk, hkn.trans (hp.flatMap_right g)⟩

theorem flatMap_same {f : α → List γ} {g : α → List δ} {l : List α} (h : ∀ a ∈ l, PermBy S (f a) (g a)) :
    PermBy S (l.flatMap f) (l.flatMap g) := by
  induction l with
  | nil => exact nil
  | cons a l ih =>
    rw [List.flatMap_cons, List.flatMap_cons]
    exact (h a (List.mem_cons_self ..)).append (ih fun b hb => h b (List.mem_cons_of_mem _ hb))

/-- What is the same of corresponding items is the same of the lists up to order. -/
theorem map_perm {f : α → γ} {g : β → γ} (h : PermBy R l m) (hfg : ∀ a b, R a b → f a = g b) : l.map f ~ m.map g := by
  obtain ⟨n, hn, hp⟩ := h
  have heq : l.map f = n.map g := by
    rw [← List.forall₂_eq_eq_eq, List.forall₂_map_left_iff, List.forall₂_map_right_iff]
    exact hn.imp hfg
  rw [heq]
  exact hp.map g

end PermBy

end

/-! ## Values up to the order of named entries -/

variable {V : Type}

/-- Entries that are told the same way and have related values. -/
structure Entry.Like (R : V → V → Prop) (e e' : Entry V) : Prop where
  name : e.name = e'.name
  position : e.name = none → e.position = e'.position
  value : R e.value e'.value

/-- Related values are scalars of one kind, or containers with related entries in some order. -/
structure Reorders [Nesting V] (R : V → V → Prop) : Prop where
  kind : ∀ {v w}, R v w → Nesting.kind v = Nesting.kind w
  entries : ∀ {v w}, R v w → (Nesting.entries v = none ∧ Nesting.entries w = none) ∨
    ∃ l m, Nesting.entries v = some l ∧ Nesting.entries w = some m ∧ PermBy (Entry.Like R) l m

theorem Entry.Like.hop_text {R : V → V → Prop} {e e' : Entry V} (h : Entry.Like R e e') : e.hop.text = e'.hop.text := by
  show Hop.text ⟨e.position, e.name⟩ = Hop.text ⟨e'.position, e'.name⟩
  rw [← h.name]
  cases hn : e.name with
  | none => rw [h.position hn]
  | some name => rfl

/-! ## Documents -/

/-- Documents that differ only in the order of the members of their objects. -/
inductive Json.Reordered : Json → Json → Prop
  | same (v : Json) : Reordered v v
  | array {items items' : List Json} : List.Forall₂ Reordered items items' → Reordered (.array items) (.array items')
  /-- The members with their values reordered, and then the members themselves. -/
  | object {members middle members' : List (String × Json)} :
      members.map Prod.fst = middle.map Prod.fst →
        List.Forall₂ Reordered (members.map Prod.snd) (middle.map Prod.snd) → middle ~ members' →
          Reordered (.object members) (.object members')

namespace Json

/-- Entries of arrays stay where they are. -/
theorem like_of_reordered {v w : Json} (h : Reordered v w) (position : Nat) :
    Entry.Like Reordered ⟨position, none, v⟩ ⟨position, none, w⟩ := ⟨rfl, fun _ => rfl, h⟩

/-- The entry of a member of an object. -/
def IsMember (m : String × Json) (e : Entry Json) : Prop := e.name = some m.1 ∧ e.value = m.2

theorem permBy_members {members middle members' : List (String × Json)}
    (hm : List.Forall₂ (fun m n => m.1 = n.1 ∧ Reordered m.2 n.2) members middle) (hp : middle ~ members') :
    PermBy (Entry.Like Reordered) (members.mapIdx fun i (name, v) => ⟨i, some name, v⟩)
      (members'.mapIdx fun i (name, v) => ⟨i, some name, v⟩) := by
  -- positions are forgotten on the way from the entries to the members and set anew on the way back
  have hentries : ∀ l : List (String × Json),
      List.Forall₂ IsMember l (l.mapIdx fun i (name, v) => ⟨i, some name, v⟩) :=
    forall₂_mapIdx_self fun _ _ => ⟨rfl, rfl⟩
  have hout : PermBy (fun e n => e.name = some n.1 ∧ Reordered e.value n.2)
      (members.mapIdx fun i (name, v) => (⟨i, some name, v⟩ : Entry Json)) members' := by
    refine ⟨middle, forall₂_comp (hentries members).flip hm ?_, hp⟩
    intro e m n he hmn
    exact ⟨he.1.trans (congrArg some hmn.1), he.2 ▸ hmn.2⟩
  refine hout.trans (PermBy.of_forall₂ (hentries members')) ?_
  intro e n e' he he'
  have hname : e.name = e'.name := he.1.trans he'.1.symm
  refine ⟨hname, ?_, he'.2 ▸ he.2⟩
  intro hnone
  rw [he.1] at hnone
  cases hnone

theorem reorders : Reorders Reordered where
  kind := by
    intro v w h
    cases h <;> rfl
  entries := by
    intro v w h
    cases h with
    | same v =>
      cases hv : Nesting.entries v with
      | none => exact Or.inl ⟨rfl, rfl⟩
      | some l =>
        have hl : List.Forall₂ (Entry.Like Reordered) l l :=
          List.forall₂_same.mpr fun e _ => ⟨rfl, fun _ => rfl, .same e.value⟩
        exact Or.inr ⟨l, l, rfl, rfl, .of_forall₂ hl⟩
    | array hitems =>
      exact Or.inr ⟨_, _, rfl, rfl, .of_forall₂ (forall₂_mapIdx hitems fun i _ _ h => like_of_reordered h i)⟩
    | object hnames hvalues hp =>
      rw [← List.forall₂_eq_eq_eq, List.forall₂_map_left_iff, List.forall₂_map_right_iff] at hnames
      rw [List.forall₂_map_left_iff, List.forall₂_map_right_iff] at hvalues
      exact Or.inr ⟨_, _, rfl, rfl, permBy_members (hnames.mp (fun _ _ => And.intro) hvalues) hp⟩

end Json

/-! ## Walks over them -/

theorem Filter.accepts_of_no_positions {f : Filter} (hi : f.included.positions.isEmpty)
    (he : f.excluded.positions.isEmpty) (p q : Nat) (name : Option String) : f.accepts p name = f.accepts q name := by
  simp only [SortedSet.isEmpty, List.isEmpty_iff] at hi he
  simp [accepts, Keys.covers, hi, he]

/-- Records that are the same but for the positions and up to related values. -/
structure Record.Like (R : V → V → Prop) (r r' : Record V) : Prop where
  kind : r.kind = r'.kind
  specName : r.specName = r'.specName
  elementName : r.entry.name = r'.entry.name
  value : R r.entry.value r'.entry.value
  node : r.node = r'.node

variable [Nesting V] {R : V → V → Prop}

inductive Event.Like (R : V → V → Prop) : Event V → Event V → Prop
  | check (node : Spec) : Like R (.check node) (.check node)
  | chose (node : Spec) (chosen available : Nat) : Like R (.chose node chosen available) (.chose node chosen available)
  | record {r r' : Record V} : r.Like R r' → Like R (.record r) (.record r')
  | mismatch {m m' : Mismatch V} : m.report = m'.report → Like R (.mismatch m) (.mismatch m')

namespace Spec

/-- No filter in the tree has a position among its keys. -/
def NamesOnly (s : Spec) : Prop :=
  ∀ t, s.Holds t → t.filter.included.positions.isEmpty ∧ t.filter.excluded.positions.isEmpty

omit [Nesting V] in
theorem NamesOnly.accepted {s : Spec} (h : s.NamesOnly) {l l' : List (Entry V)} (hl : PermBy (Entry.Like R) l l') :
    PermBy (Entry.Like R) (s.accepted l) (s.accepted l') := by
  obtain ⟨hi, he⟩ := h s (.root s)
  refine hl.filter fun e e' hee => ?_
  rw [← hee.name]
  exact Filter.accepts_of_no_positions hi he _ _ _

omit [Nesting V] in
theorem NamesOnly.of_branch {s c : Spec} {edge : Option String} (h : s.NamesOnly) (hc : (edge, c) ∈ s.branches) :
    c.NamesOnly := by
  intro t ht
  exact h t (.branch hc ht)

theorem ordinals_reordered (node : Spec) {e e' : Entry V} (h : Entry.Like R e e') :
    PermBy (Event.Like R) ((node.ordinals e).map .record) ((node.ordinals e').map .record) := by
  unfold ordinals
  cases node.ordinal with
  | none => exact .nil
  | some name => exact .cons (.record ⟨rfl, rfl, h.name, h.value, rfl⟩) .nil

/-- What is done below the node at entries is done at the same entries in another order. -/
def BelowReordered (R : V → V → Prop) (node : Spec) : Prop :=
  ∀ label {path path' : List Hop} {l l' : List (Entry V)}, path.map Hop.text = path'.map Hop.text →
    PermBy (Entry.Like R) l l' → PermBy (Event.Like R) (descend label path l node) (descend label path' l' node)

theorem pick_reordered (hR : Reorders R) {node : Spec} (hd : BelowReordered R node) (label : Option String)
    {path path' : List Hop} (hp : path.map Hop.text = path'.map Hop.text) {e e' : Entry V} (h : Entry.Like R e e') :
    PermBy (Event.Like R) (pick label path node e) (pick label path' node e') := by
  have hpath : (path ++ [e.hop]).map Hop.text = (path' ++ [e'.hop]).map Hop.text := by
    rw [List.map_append, List.map_append, hp, List.map_singleton, List.map_singleton, h.hop_text]
  unfold pick
  cases node.isLeaf with
  | true => exact (ordinals_reordered node h).append (.cons (.record ⟨rfl, rfl, h.name, h.value, rfl⟩) .nil)
  | false =>
    rcases hR.entries h.value with ⟨he, he'⟩ | ⟨inside, inside', he, he', hinside⟩
    · rw [he, he']
      refine .cons (.mismatch ?_) .nil
      show (node.text, pathText (path ++ [e.hop]), Nesting.kind e.value) = _
      rw [pathText, hpath, hR.kind h.value]
      rfl
    · rw [he, he']
      exact (ordinals_reordered node h).append (hd _ hpath hinside)

theorem visit_reordered (hR : Reorders R) {node : Spec} (hn : node.NamesOnly) (hd : BelowReordered R node)
    (label : Option String) {path path' : List Hop} (hp : path.map Hop.text = path'.map Hop.text)
    {l l' : List (Entry V)} (hl : PermBy (Entry.Like R) l l') :
    PermBy (Event.Like R) (visit label path l node) (visit label path' l' node) := by
  cases hnil : node.isNil with
  | true =>
    rw [visit_of_isNil hnil, visit_of_isNil hnil]
    exact .nil
  | false =>
    have hchosen := hn.accepted hl
    rw [visit_of_not_isNil hnil, visit_of_not_isNil hnil, hchosen.length_eq, hl.length_eq]
    exact .cons (.check node) (.cons (.chose node _ _) (hchosen.flatMap fun e e' h => pick_reordered hR hd label hp h))

theorem NamesOnly.belowReordered (hR : Reorders R) {node : Spec} (hn : node.NamesOnly) : BelowReordered R node := by
  induction node using induction_branches with
  | step node ih =>
    intro label path path' l l' hp hl
    refine .flatMap_same fun b hb => ?_
    have hb' := hn.of_branch hb
    exact visit_reordered hR hb' (ih b.1 b.2 hb hb') _ hp hl

/-- Of reordered values the walk does the same in some order. -/
theorem trace_reordered (hR : Reorders R) {root : Spec} (hn : root.NamesOnly) {v w : V} (h : R v w) :
    PermBy (Event.Like R) (root.trace v) (root.trace w) := by
  have hd := hn.belowReordered hR
  unfold trace
  cases root.isNil with
  | true => exact .nil
  | false =>
    rcases hR.entries h with ⟨hv, hw⟩ | ⟨l, l', hv, hw, hl⟩
    · rw [hv, hw]
      refine .cons (.mismatch ?_) .nil
      show (root.text, pathText [], Nesting.kind v) = _
      rw [hR.kind h]
      rfl
    · rw [hv, hw]
      have hseen := hn.accepted hl
      cases root.isLeaf with
      | true => exact visit_reordered hR hn hd none rfl hl
      | false =>
        have hordinals := hseen.flatMap fun e e' h => ordinals_reordered root h
        exact .cons (.check root) (hordinals.append (hd root.label rfl hseen))

/-! ## Matches -/

theorem records_of_like {l m : List (Event V)} (h : PermBy (Event.Like R) l m) :
    PermBy (Record.Like R) (Event.yieldOf l).records (Event.yieldOf m).records := by
  refine h.filterMap fun e e' hee => ?_
  cases hee with
  | record hr => exact .some hr
  | _ => exact .none

theorem reports_of_like {l m : List (Event V)} (h : PermBy (Event.Like R) l m) :
    (Event.yieldOf l).mismatches.map Mismatch.report ~ (Event.yieldOf m).mismatches.map Mismatch.report := by
  have hmismatches : PermBy (fun a b : Mismatch V => a.report = b.report) (Event.yieldOf l).mismatches
      (Event.yieldOf m).mismatches := by
    refine h.filterMap fun e e' hee => ?_
    cases hee with
    | mismatch hm => exact .some hm
    | _ => exact .none
  exact hmismatches.map_perm fun _ _ hab => hab

/-- Let two documents differ only in the order of the members of their objects, and a fresh
    tree not choose by position. Then the records of its two matches correspond one by one in
    some order, all but the positions, with values that differ in this order alone; so do the
    mismatches, by node, path and kind; and where nothing may be skipped both matches succeed
    or both fail. -/
theorem member_order_is_immaterial {s : Spec} (hs : s.Fresh) (hn : s.NamesOnly) {v w : Json} (h : v.Reordered w) :
    ∃ y z, s.gatherLenient v = .ok y ∧ s.gatherLenient w = .ok z ∧
      PermBy (Record.Like Json.Reordered) y.records z.records ∧
      y.mismatches.map Mismatch.report ~ z.mismatches.map Mismatch.report ∧
      ((∃ l, s.gatherStrict v = .ok l) ↔ ∃ l, s.gatherStrict w = .ok l) := by
  have ht := trace_reordered Json.reorders hn h
  have hreports := reports_of_like ht
  refine ⟨_, _, hs.gatherLenient_eq v, hs.gatherLenient_eq w, records_of_like ht, hreports, ?_⟩
  have hlength := hreports.length_eq
  rw [List.length_map, List.length_map] at hlength
  exact hs.gatherStrict_isOk_congr hs hlength

/-- Members change places in the outer and in the inner object: the scalar is skipped before
    the records of the other member and not after them, and these stand at other positions. -/
theorem member_order_is_immaterial_at_two_levels :
    let leaf : Spec := { filter := ({} : Filter).excludeKey (.name "y") }
    let spec : Spec := refresh { children := [{ children := [leaf] }] }
    let v : Json := .object [("a", .object [("x", .null), ("y", .null)]), ("b", .null)]
    let w : Json := .object [("b", .null), ("a", .object [("y", .null), ("x", .null)])]
    spec.Fresh ∧ spec.NamesOnly ∧ v.Reordered w ∧
      ∃ y z, spec.gatherLenient v = .ok y ∧ spec.gatherLenient w = .ok z ∧
        PermBy (Record.Like Json.Reordered) y.records z.records ∧
        y.mismatches.map Mismatch.report ~ z.mismatches.map Mismatch.report ∧
        y.records.map (·.entry.hop) = [⟨0, some "x"⟩] ∧ z.records.map (·.entry.hop) = [⟨1, some "x"⟩] ∧
        z.mismatches.map (·.report.2) = [("$.b", "null")] := by
  intro leaf spec v w
  have hs : spec.Fresh := fresh_refresh _
  have hn : spec.NamesOnly := by
    refine forall_holds_iff.mpr ⟨⟨rfl, rfl⟩, ?_⟩
    intro edge c hc
    obtain ⟨-, rfl⟩ := Prod.mk.inj (List.mem_singleton.mp hc)
    refine forall_holds_iff.mpr ⟨⟨rfl, rfl⟩, ?_⟩
    intro edge c hc
    obtain ⟨-, rfl⟩ := Prod.mk.inj (List.mem_singleton.mp hc)
    refine forall_holds_iff.mpr ⟨⟨rfl, rfl⟩, ?_⟩
    intro edge c hc
    cases hc
  have hinner : Json.Reordered (.object [("x", .null), ("y", .null)]) (.object [("y", .null), ("x", .null)]) :=
    .object rfl (.cons (.same _) (.cons (.same _) .nil)) (.swap _ _ _)
  have h : v.Reordered w :=
    @Json.Reordered.object _ [("a", .object [("y", .null), ("x", .null)]), ("b", .null)] _ rfl
      (.cons hinner (.cons (.same _) .nil)) (.swap _ _ _)
  obtain ⟨y, z, hy, hz, hrecords, hreports, -⟩ := member_order_is_immaterial hs hn h
  have hly : (spec.gatherLenient v).toOption.map (fun y => y.records.map (·.entry.hop)) = some _ := rfl
  have hlz : (spec.gatherLenient w).toOption.map
      (fun z => (z.records.map (·.entry.hop), z.mismatches.map (·.report.2))) = some (_, _) := rfl
  rw [hy] at hly
  rw [hz] at hlz
  obtain ⟨hzr, hzm⟩ := Prod.mk.inj (Option.some.inj hlz)
  exact ⟨hs, hn, h, y, z, hy, hz, hrecords, hreports, Option.some.inj hly, hzr, hzm⟩

end Spec

end Harvest
