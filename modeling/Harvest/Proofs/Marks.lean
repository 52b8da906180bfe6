/-
  Harvest.Proofs.Marks — what the terminal marks do to a match.

  Marks may be wrong on any node and either way. One that denies a filter halts the match
  once the walk reaches its node: the first such node in the order of the walk, and for a
  strict match only if no scalar has halted it before. Where no mark halts it the match
  gives what it gives on the tree with all marks set afresh
  (`marks_halt_or_change_nothing`).
-/

import Harvest.NamedList
import Harvest.Proofs.Reach
import Harvest.Proofs.Shown

namespace Harvest

variable {V : Type} [Nesting V]

open Event

/-! ## The first stop of a kind -/

omit [Nesting V] in
/-- A search along the stops ends before every other stop where it could. -/
theorem Stop.before_of_findSome? {β : Type} {l : List (Stop V)} (hl : l.Pairwise Stop.Before) {f : Stop V → Option β}
    {b : β} (h : l.findSome? f = some b) :
    ∃ stop ∈ l, f stop = some b ∧ ∀ other ∈ l, (f other).isSome → other = stop ∨ stop.Before other := by
  obtain ⟨l₁, stop, l₂, rfl, hs, hn⟩ := List.findSome?_eq_some_iff.mp h
  have hl₂ : ∀ other ∈ l₂, stop.Before other := (List.pairwise_cons.mp (List.pairwise_append.mp hl).2.1).1
  refine ⟨stop, by simp, hs, ?_⟩
  intro other ho hf
  rcases List.mem_append.mp ho with ho | ho
  · rw [hn other ho] at hf
    cases hf
  · rcases List.mem_cons.mp ho with rfl | ho
    · exact Or.inl rfl
    · exact Or.inr (hl₂ other ho)

omit [Nesting V] in
theorem Stop.findSome?_of_first {β : Type} {l : List (Stop V)} (hl : l.Pairwise Stop.Before) {f : Stop V → Option β}
    {b : β} {stop : Stop V} (hm : stop ∈ l) (hs : f stop = some b)
    (hf : ∀ other ∈ l, (f other).isSome → stop.address ≤ other.address) : l.findSome? f = some b := by
  obtain ⟨l₁, l₂, rfl⟩ := List.append_of_mem hm
  refine List.findSome?_eq_some_iff.mpr ⟨l₁, stop, l₂, rfl, hs, ?_⟩
  intro other ho
  have hb : other.Before stop := (List.pairwise_append.mp hl).2.2 other ho stop (List.mem_cons_self ..)
  cases he : f other with
  | none => rfl
  | some _ => exact absurd hb (not_lt.mpr (hf other (List.mem_append_left _ ho) (by rw [he]; rfl)))

namespace Stop

omit [Nesting V] in
theorem address_le {stop other : Stop V} (h : other = stop ∨ stop.Before other) : stop.address ≤ other.address := by
  rcases h with rfl | h
  · exact le_refl _
  · exact le_of_lt h

omit [Nesting V] in
theorem stale?_eq_some_iff {stop : Stop V} {node : Spec} :
    stop.stale? = some node ↔ stop.checked? = some node ∧ node.isStale := by
  unfold stale?
  cases stop.checked? with
  | none => simp
  | some m =>
    rw [Option.bind_some]
    constructor
    · intro h
      split at h
      · rename_i hm
        cases h
        exact ⟨rfl, hm⟩
      · cases h
    · rintro ⟨h, hs⟩
      cases h
      rw [if_pos hs]

/-- No stop is both the check of a mark and a miss. -/
theorem missed?_of_checked? {stop : Stop V} {node : Spec} (h : stop.checked? = some node) : stop.missed? = none := by
  cases stop with
  | start | look => rfl
  | bar | take => cases h

theorem halt?_isSome_iff {stop : Stop V} : stop.halt?.isSome ↔ stop.stale?.isSome ∨ stop.missed?.isSome := by
  simp [halt?]

theorem halt?_eq_some_stale_iff {stop : Stop V} {node : Spec} :
    stop.halt? = some (.stale node) ↔ stop.stale? = some node := by
  unfold halt?
  cases stop.stale? <;> simp

end Stop

namespace Spec

variable {s : Spec} {v : V}

/-- The first node in the order of the walk, of those it reaches, whose mark denies its filter. -/
def FirstStale (root : Spec) (v : V) (address : List Nat) (node : Spec) : Prop :=
  root.Reaches v address node ∧ node.isStale ∧ ∀ b m, root.Reaches v b m → m.isStale → address ≤ b

theorem reaches_stale_iff {a : List Nat} {node : Spec} :
    (s.Reaches v a node ∧ node.isStale) ↔ ∃ stop ∈ s.stops v, stop.address = a ∧ stop.stale? = some node := by
  rw [reaches_iff]
  constructor
  · rintro ⟨⟨stop, hm, ha, hc⟩, hs⟩
    exact ⟨stop, hm, ha, Stop.stale?_eq_some_iff.mpr ⟨hc, hs⟩⟩
  · rintro ⟨stop, hm, ha, h⟩
    obtain ⟨hc, hs⟩ := Stop.stale?_eq_some_iff.mp h
    exact ⟨⟨stop, hm, ha, hc⟩, hs⟩

theorem firstStale_iff {a : List Nat} {node : Spec} :
    s.FirstStale v a node ↔ ∃ stop ∈ s.stops v, stop.address = a ∧ stop.stale? = some node ∧
      ∀ other ∈ s.stops v, other.stale?.isSome → stop.address ≤ other.address := by
  constructor
  · rintro ⟨hr, hst, hf⟩
    obtain ⟨stop, hm, rfl, hs⟩ := reaches_stale_iff.mp ⟨hr, hst⟩
    refine ⟨stop, hm, rfl, hs, ?_⟩
    intro other ho hos
    obtain ⟨m, hos⟩ := Option.isSome_iff_exists.mp hos
    obtain ⟨hb, hbs⟩ := reaches_stale_iff.mpr ⟨other, ho, rfl, hos⟩
    exact hf _ _ hb hbs
  · rintro ⟨stop, hm, rfl, hs, hf⟩
    obtain ⟨hr, hst⟩ := reaches_stale_iff.mpr ⟨stop, hm, rfl, hs⟩
    refine ⟨hr, hst, ?_⟩
    intro b m hb hbs
    obtain ⟨other, ho, rfl, hos⟩ := reaches_stale_iff.mp ⟨hb, hbs⟩
    exact hf other ho (by rw [hos]; rfl)

theorem findSome?_stale?_iff {node : Spec} :
    (s.stops v).findSome? Stop.stale? = some node ↔ ∃ a, s.FirstStale v a node := by
  constructor
  · intro h
    obtain ⟨stop, hm, hs, hf⟩ := Stop.before_of_findSome? (stops_ascending s v) h
    refine ⟨stop.address, firstStale_iff.mpr ⟨stop, hm, rfl, hs, ?_⟩⟩
    intro other ho hos
    exact Stop.address_le (hf other ho hos)
  · rintro ⟨a, h⟩
    obtain ⟨stop, hm, -, hs, hf⟩ := firstStale_iff.mp h
    exact Stop.findSome?_of_first (stops_ascending s v) hm hs hf

/-! ## Where a match halts at a mark -/

theorem gatherLenient_eq_error_iff {node : Spec} :
    s.gatherLenient v = .error node ↔ ∃ a, s.FirstStale v a node := by
  rw [gatherLenient_eq, findSome?_stale?_trace, ← findSome?_stale?_iff]
  cases (s.stops v).findSome? Stop.stale? <;> simp

/-- Among the stale nodes that a walk reaches one is the first. -/
theorem exists_firstStale_iff : (∃ a node, s.FirstStale v a node) ↔ ∃ a node, s.Reaches v a node ∧ node.isStale := by
  constructor
  · rintro ⟨a, node, hr, hs, -⟩
    exact ⟨a, node, hr, hs⟩
  · rintro ⟨a, node, h⟩
    obtain ⟨stop, hm, -, hs⟩ := reaches_stale_iff.mp h
    have hf : ((s.stops v).findSome? Stop.stale?).isSome := List.findSome?_isSome_iff.mpr ⟨stop, hm, by rw [hs]; rfl⟩
    obtain ⟨first, hf⟩ := Option.isSome_iff_exists.mp hf
    obtain ⟨b, hb⟩ := findSome?_stale?_iff.mp hf
    exact ⟨b, first, hb⟩

/-- What a strict walk halts at, of its stops. -/
theorem gatherStrict_eq_error_iff {halt : Halt V} :
    s.gatherStrict v = .error halt ↔ (s.stops v).findSome? Stop.halt? = some halt := by
  rw [gatherStrict_eq, findSome?_halt?_trace]
  cases (s.stops v).findSome? Stop.halt? <;> simp

theorem gatherStrict_eq_error_stale_iff {node : Spec} :
    s.gatherStrict v = .error (.stale node) ↔ ∃ a, s.FirstStale v a node ∧ ∀ b m, s.Misses v b m → a < b := by
  rw [gatherStrict_eq_error_iff]
  constructor
  · intro h
    obtain ⟨stop, hm, hs, hf⟩ := Stop.before_of_findSome? (stops_ascending s v) h
    have hs : stop.stale? = some node := Stop.halt?_eq_some_stale_iff.mp hs
    refine ⟨stop.address, firstStale_iff.mpr ⟨stop, hm, rfl, hs, ?_⟩, ?_⟩
    · intro other ho hos
      exact Stop.address_le (hf other ho (Stop.halt?_isSome_iff.mpr (Or.inl hos)))
    · intro b m hb
      obtain ⟨other, ho, rfl, hom⟩ := misses_iff.mp hb
      rcases hf other ho (Stop.halt?_isSome_iff.mpr (Or.inr (by rw [hom]; rfl))) with rfl | hlt
      · rw [Stop.missed?_of_checked? (Stop.stale?_eq_some_iff.mp hs).1] at hom
        cases hom
      · exact hlt
  · rintro ⟨a, h, hmiss⟩
    obtain ⟨stop, hm, rfl, hs, hf⟩ := firstStale_iff.mp h
    refine Stop.findSome?_of_first (stops_ascending s v) hm (Stop.halt?_eq_some_stale_iff.mpr hs) ?_
    intro other ho hoh
    rcases Stop.halt?_isSome_iff.mp hoh with hos | hom
    · exact hf other ho hos
    · obtain ⟨m, hom⟩ := Option.isSome_iff_exists.mp hom
      exact le_of_lt (hmiss _ _ (misses_iff.mpr ⟨other, ho, rfl, hom⟩))

/-! ## Where it does not -/

omit [Nesting V] in
theorem alike_refresh (s : Spec) (label : Option String) : Alike s label s.refresh label where
  isNil := (refresh_isNil s).symm
  isLeaf := (refresh_isLeaf s).symm
  filter := (refresh_filter s).symm
  ordinal := (refresh_ordinal s).symm
  stack := (refresh_stack s).symm
  process := (refresh_process s).symm
  label := by rw [refresh_label]

theorem descend_refresh_shown (s : Spec) (label : Option String) (path : List Hop) (entries : List (Entry V)) :
    shownOf (descend label path entries s) = shownOf (descend label path entries s.refresh) := by
  induction s using induction_branches generalizing label path entries with
  | step s ih =>
    rw [descend, descend, branches_refresh, List.flatMap_map, shownOf_flatMap, shownOf_flatMap]
    apply List.flatMap_congr
    intro b hb
    refine visit_shown (alike_refresh b.2 _) ?_ path entries
    intro path inside
    rw [refresh_label]
    exact ih b.1 b.2 hb _ path inside

/-- The marks have no part in what a walk shows. -/
theorem trace_refresh_shown (s : Spec) (v : V) : shownOf (s.trace v) = shownOf (s.refresh.trace v) := by
  refine trace_shown (alike_refresh s none) ?_ v
  intro path inside
  rw [refresh_label]
  exact descend_refresh_shown s s.label path inside

theorem gatherLenient_refresh_shown {y : Yield V} (h : s.gatherLenient v = .ok y) :
    ∃ z, s.refresh.gatherLenient v = .ok z ∧ y.shown = z.shown := by
  obtain ⟨hs, -⟩ := gatherLenient_eq_ok_iff.mp h
  obtain ⟨y', z, hy, hz, hyz⟩ := gatherLenient_shown hs ((fresh_refresh s).findSome?_stale? v) (trace_refresh_shown s v)
  rw [h] at hy
  cases hy
  exact ⟨z, hz, hyz⟩

/-- A lenient match halts at a mark if and only if its walk reaches a node whose mark
    denies a filter, a strict one if and only if it does so before the first miss, and
    both at the first such node. Otherwise both give what they give on the tree with all
    marks set afresh: the same records and mismatches, as far as these show. -/
theorem marks_halt_or_change_nothing (s : Spec) (v : V) :
    ((∃ node, s.gatherLenient v = .error node) ↔ ∃ a node, s.Reaches v a node ∧ node.isStale) ∧
      (∀ node, s.gatherLenient v = .error node ↔ ∃ a, s.FirstStale v a node) ∧
      (∀ y, s.gatherLenient v = .ok y → ∃ z, s.refresh.gatherLenient v = .ok z ∧ y.shown = z.shown) ∧
      ((∃ node, s.gatherStrict v = .error (.stale node)) ↔
        ∃ a node, s.Reaches v a node ∧ node.isStale ∧ ∀ b m, s.Misses v b m → a < b) ∧
      (∀ node, s.gatherStrict v = .error (.stale node) ↔
        ∃ a, s.FirstStale v a node ∧ ∀ b m, s.Misses v b m → a < b) ∧
      ((∀ node, s.gatherStrict v ≠ .error (.stale node)) →
        shownStrict (s.gatherStrict v) = shownStrict (s.refresh.gatherStrict v)) := by
  refine ⟨?_, fun node => gatherLenient_eq_error_iff, fun y h => gatherLenient_refresh_shown h, ?_,
    fun node => gatherStrict_eq_error_stale_iff,
    fun h => gatherStrict_shown h ((fresh_refresh s).gatherStrict_ne_stale v) (trace_refresh_shown s v)⟩
  · rw [← exists_firstStale_iff, exists_comm]
    exact exists_congr fun node => gatherLenient_eq_error_iff
  · constructor
    · rintro ⟨node, h⟩
      obtain ⟨a, ⟨hr, hs, -⟩, hm⟩ := gatherStrict_eq_error_stale_iff.mp h
      exact ⟨a, node, hr, hs, hm⟩
    · rintro ⟨a, node, hr, hs, hm⟩
      obtain ⟨b, first, hb⟩ := exists_firstStale_iff.mpr ⟨a, node, hr, hs⟩
      -- the first stale node is not behind this one, and so before every miss too
      exact ⟨first, gatherStrict_eq_error_stale_iff.mpr ⟨b, hb, fun c m hc =>
        lt_of_le_of_lt (hb.2.2 a node hr hs) (hm c m hc)⟩⟩

/-- The scalar comes before the node with the stale mark: the lenient match halts at the
    mark, the strict one at the scalar. Where the input itself is a scalar no mark is met. -/
theorem marks_halt_or_change_nothing_behind_a_scalar :
    let stale : Spec := { filter := ({} : Filter).excludeKey (.name "a") }
    let spec : Spec := { children := [{ children := [{}] }, stale] }
    let v : NamedList := .list [(none, .leaf .null)]
    let scalar : NamedList := .leaf .null
    (∃ a, spec.FirstStale v a stale) ∧
      (∀ node, spec.gatherStrict v ≠ .error (.stale node)) ∧
      shownStrict (spec.gatherStrict v) = shownStrict (spec.refresh.gatherStrict v) ∧
      ∃ y z, spec.gatherLenient scalar = .ok y ∧ spec.refresh.gatherLenient scalar = .ok z ∧ y.shown = z.shown := by
  intro stale spec v scalar
  obtain ⟨-, hl, -, -, -, hs⟩ := marks_halt_or_change_nothing spec v
  obtain ⟨-, -, hy, -, -, -⟩ := marks_halt_or_change_nothing spec scalar
  have hne : ∀ node, spec.gatherStrict v ≠ .error (.stale node) := by
    intro node h
    cases h
  obtain ⟨z, hz, hyz⟩ := hy _ rfl
  exact ⟨(hl stale).mp rfl, hne, hs hne, _, z, rfl, hz, hyz⟩

end Spec

end Harvest
