/-
  Harvest.Proofs.Tightening — filters that accept less.

  A tree is tightened when its nodes stay in their places, keep all but their filters and
  marks, and come to accept nothing that they did not (`Spec.Tightened`). Then a match shows
  part of what it showed before, in the same order: fewer records, and also fewer
  mismatches, since a scalar that is no longer taken is no longer missed
  (`trace_tightened`). So a strict match that succeeds goes on succeeding.

  Which keys a filter has is another matter: one more included key widens a filter that has
  some already and narrows one that has none. `Filter.Edit` lists the changes of keys that
  only ever narrow. A tree is tightened by any number of them in any places
  (`Edited.tightened`).
-/

import Harvest.NamedList
import Harvest.Proofs.Keys
import Harvest.Proofs.Reach
import Harvest.Proofs.Shapes
import Harvest.Proofs.Shown
import Mathlib.Logic.Relation

namespace Harvest

open scoped List

/-! ## Filters -/

/-- The keys of a filter changed so that it accepts no more. -/
inductive Filter.Edit : Filter → Filter → Prop
  | exclude {f : Filter} (keys : List Key) : Edit f (keys.foldl excludeKey f)
  /-- The first included keys, all at once. -/
  | restrict {f : Filter} (keys : List Key) : f.included.isEmpty → Edit f (keys.foldl includeKey f)
  /-- Included keys taken away, but not all. -/
  | narrow {f : Filter} {included : Keys} :
      (∀ key ∈ included, key ∈ f.included) → included.isEmpty = false → Edit f { f with included }

theorem Filter.foldl_excludeKey (keys : List Key) (f : Filter) :
    keys.foldl excludeKey f = ⟨f.included, keys.foldl Keys.insert f.excluded⟩ := by
  induction keys generalizing f with
  | nil => rfl
  | cons key keys ih => exact ih (f.excludeKey key)

theorem Filter.foldl_includeKey (keys : List Key) (f : Filter) :
    keys.foldl includeKey f = ⟨keys.foldl Keys.insert f.included, f.excluded⟩ := by
  induction keys generalizing f with
  | nil => rfl
  | cons key keys ih => exact ih (f.includeKey key)

theorem Filter.Edit.accepts {f g : Filter} (h : Edit f g) {position : Nat} {name : Option String}
    (ha : g.accepts position name) : f.accepts position name := by
  cases h with
  | exclude keys =>
    rw [foldl_excludeKey] at ha
    obtain ⟨hin, hex⟩ := accepts_iff.mp ha
    exact accepts_iff.mpr ⟨hin, fun key hk => hex key (Keys.mem_foldl_insert.mpr (Or.inr hk))⟩
  | restrict keys hempty =>
    rw [foldl_includeKey] at ha
    exact accepts_iff.mpr ⟨Or.inl (Keys.isEmpty_iff.mp hempty), (accepts_iff.mp ha).2⟩
  | @narrow included hsub hne =>
    obtain ⟨hin, hex⟩ := accepts_iff.mp ha
    refine accepts_iff.mpr ⟨?_, hex⟩
    rcases hin with hnone | ⟨key, hk, hfits⟩
    · exact absurd (Keys.isEmpty_iff.mpr hnone) (by simp [hne])
    · exact Or.inr ⟨key, hsub key hk, hfits⟩

/-! ## Trees -/

/-- The second rule is the first but for its mark and a filter that accepts no more. -/
structure Rule.Tightened (r r' : Rule) : Prop where
  type : r'.type = r.type
  label : r'.label = r.label
  stack : r'.stack = r.stack
  process : r'.process = r.process
  ordinal : r'.ordinal = r.ordinal
  accepts : ∀ position name, r'.filter.accepts position name → r.filter.accepts position name

theorem Rule.Tightened.refl (r : Rule) : r.Tightened r := ⟨rfl, rfl, rfl, rfl, rfl, fun _ _ h => h⟩

theorem Rule.Tightened.trans {r r' r'' : Rule} (h : r.Tightened r') (h' : r'.Tightened r'') : r.Tightened r'' where
  type := h'.type.trans h.type
  label := h'.label.trans h.label
  stack := h'.stack.trans h.stack
  process := h'.process.trans h.process
  ordinal := h'.ordinal.trans h.ordinal
  accepts position name ha := h.accepts position name (h'.accepts position name ha)

namespace Spec

/-- Trees of one shape, the second with tightened rules. -/
def Tightened : Spec → Spec → Prop := NodeByNode Rule.Tightened

theorem Tightened.rule {s t : Spec} (h : s.Tightened t) : s.toRule.Tightened t.toRule := (nodeByNode_iff.mp h).1

/-- The tree with the filter of one node edited. -/
def EditedOnce : Spec → Spec → Prop := Somewhere fun s t => ∃ f, s.filter.Edit f ∧ t = { s with filter := f }

/-- The tree after any number of edits in any places. -/
def Edited : Spec → Spec → Prop := Relation.ReflTransGen EditedOnce

theorem EditedOnce.tightened {s t : Spec} (h : s.EditedOnce t) : s.Tightened t := by
  refine NodeByNode.of_somewhere Rule.Tightened.refl ?_ h
  rintro s _ ⟨f, hf, rfl⟩
  obtain ⟨-, hc, hg⟩ := nodeByNode_iff.mp (NodeByNode.refl Rule.Tightened.refl s)
  exact nodeByNode_iff.mpr ⟨⟨rfl, rfl, rfl, rfl, rfl, fun _ _ => hf.accepts⟩, hc, hg⟩

theorem Edited.tightened {s t : Spec} (h : s.Edited t) : s.Tightened t.refresh := by
  have ht : s.Tightened t := by
    induction h with
    | refl => exact NodeByNode.refl Rule.Tightened.refl s
    | tail _ he ih => exact NodeByNode.trans Rule.Tightened.trans ih he.tightened
  exact NodeByNode.refresh (fun _ h => ⟨h.type, h.label, h.stack, h.process, h.ordinal, h.accepts⟩) ht

/-! ## Matches -/

theorem Tightened.narrows {s t : Spec} (h : s.Tightened t) (label : Option String) : Narrows s label t label where
  isNil := by rw [Rule.isNil, Rule.isNil, h.rule.type]
  isLeaf := NodeByNode.isLeaf_eq h
  accepts := h.rule.accepts
  ordinal := h.rule.ordinal.symm
  stack := h.rule.stack.symm
  process := h.rule.process.symm
  label := by rw [h.rule.label]

theorem sublist_flatMap_of_forall₂ {α β γ : Type} {R : α → β → Prop} {l : List α} {m : List β} {f : α → List γ}
    {g : β → List γ} (h : List.Forall₂ R l m) (hf : ∀ a ∈ l, ∀ b, R a b → g b <+ f a) : m.flatMap g <+ l.flatMap f := by
  induction h with
  | nil => exact List.Sublist.refl _
  | cons hab _ ih =>
    exact (hf _ (List.mem_cons_self ..) _ hab).append (ih fun a ha => hf a (List.mem_cons_of_mem _ ha))

open Event

variable {V : Type} [Nesting V]

/-- Below a node the tightened tree shows no more, also of fewer entries. -/
theorem descend_tightened {s t : Spec} (h : s.Tightened t) (label : Option String) (path : List Hop)
    {entries entries' : List (Entry V)} (he : entries' <+ entries) :
    shownOf (descend label path entries' t) <+ shownOf (descend label path entries s) := by
  induction s using induction_branches generalizing t label path entries entries' with
  | step s ih =>
    rw [descend, descend, shownOf_flatMap, shownOf_flatMap]
    refine sublist_flatMap_of_forall₂ h.branches ?_
    rintro ⟨edge, c⟩ hc ⟨_, d⟩ ⟨rfl, (hcd : c.Tightened d)⟩
    -- there are fewer entries to look at, but inside one of them they are the same for both
    refine visit_sublist (hcd.narrows (edge.or label)) (fun path inside => ?_) path he
    rw [hcd.rule.label]
    exact ih edge c hc hcd _ path (List.Sublist.refl inside)

theorem trace_tightened {s t : Spec} (h : s.Tightened t) (v : V) : shownOf (t.trace v) <+ shownOf (s.trace v) := by
  have hn := h.narrows none
  refine trace_sublist hn (fun entries => ?_) v
  rw [h.rule.label]
  exact descend_tightened h s.label [] (hn.accepted (List.Sublist.refl entries))

/-- A match of a tightened tree comes to a result and shows part of what it did before, both
    of its records and of its mismatches, in the same order. It goes on succeeding where
    nothing may be skipped. Edits that narrow filters tighten the tree, once its marks are
    set again. -/
theorem tightening_adds_nothing {s : Spec} (hs : s.Fresh) :
    (∀ t, t.Fresh → s.Tightened t → ∀ v : V,
      ∃ y z, s.gatherLenient v = .ok y ∧ t.gatherLenient v = .ok z ∧
        z.records.map Record.shown <+ y.records.map Record.shown ∧
        z.mismatches.map Mismatch.shown <+ y.mismatches.map Mismatch.shown ∧
        ((∃ l, s.gatherStrict v = .ok l) → ∃ l, t.gatherStrict v = .ok l)) ∧
      ∀ t, s.Edited t → t.refresh.Fresh ∧ s.Tightened t.refresh := by
  refine ⟨?_, fun t h => ⟨fresh_refresh t, h.tightened⟩⟩
  intro t ht h v
  obtain ⟨hr, hm⟩ := Prod.mk.inj (yieldOf_shown (s.trace v))
  obtain ⟨hr', hm'⟩ := Prod.mk.inj (yieldOf_shown (t.trace v))
  have hsub := trace_tightened h v
  have hmismatches : (yieldOf (t.trace v)).mismatches.map Mismatch.shown <+
      (yieldOf (s.trace v)).mismatches.map Mismatch.shown := by
    rw [hm, hm']
    exact hsub.filterMap _
  refine ⟨_, _, hs.gatherLenient_eq v, ht.gatherLenient_eq v, ?_, hmismatches, ?_⟩
  · rw [hr, hr']
    exact hsub.filterMap _
  · rw [hs.gatherStrict_isOk_iff, ht.gatherStrict_isOk_iff]
    intro hnone
    rw [hnone, List.map_nil, List.sublist_nil, List.map_eq_nil_iff] at hmismatches
    exact hmismatches

/-- The root comes to include one name, and the node below it that needs containers to
    exclude a position: of three records one is left, and the scalar is no longer missed. -/
theorem tightening_adds_nothing_at_two_nodes :
    let leaf : Spec := {}
    let inner : Spec := { children := [leaf] }
    let spec : Spec := refresh { children := [inner, leaf] }
    let v : NamedList := .list [(some "a", .list [(none, .leaf .null)]), (none, .leaf .null)]
    let root : Spec := { spec with filter := ({} : Filter).includeKey (.name "a") }
    let edited : Spec := { root with children := [{ inner with filter := ({} : Filter).excludeKey (.position 0) }, leaf] }
    spec.Fresh ∧ spec.Edited edited ∧ ∃ y z, spec.gatherLenient v = .ok y ∧ edited.refresh.gatherLenient v = .ok z ∧
      y.records.map (·.entry.hop) = [⟨0, none⟩, ⟨0, some "a"⟩, ⟨1, none⟩] ∧ y.mismatches.length = 1 ∧
      z.records.map (·.entry.hop) = [⟨0, some "a"⟩] ∧ z.mismatches.length = 0 ∧
      z.records.map Record.shown <+ y.records.map Record.shown := by
  intro leaf inner spec v root edited
  have hs : spec.Fresh := fresh_refresh _
  have hroot : spec.EditedOnce root := .here ⟨_, .restrict [.name "a"] rfl, rfl⟩
  have hinner : root.EditedOnce edited :=
    @Somewhere.child _ root inner _ [] [leaf] rfl (.here ⟨_, .exclude [.position 0], rfl⟩)
  have he : spec.Edited edited := (Relation.ReflTransGen.single hroot).tail hinner
  obtain ⟨h, hedits⟩ := tightening_adds_nothing hs (V := NamedList)
  obtain ⟨ht, htight⟩ := hedits edited he
  obtain ⟨y, z, hy, hz, hr, -, -⟩ := h _ ht htight v
  have hly : (spec.gatherLenient v).toOption.map (fun y => (y.records.map (·.entry.hop), y.mismatches.length)) =
      some (_, _) := rfl
  have hlz : (edited.refresh.gatherLenient v).toOption.map
      (fun z => (z.records.map (·.entry.hop), z.mismatches.length)) = some (_, _) := rfl
  rw [hy] at hly
  rw [hz] at hlz
  obtain ⟨hyr, hym⟩ := Prod.mk.inj (Option.some.inj hly)
  obtain ⟨hzr, hzm⟩ := Prod.mk.inj (Option.some.inj hlz)
  exact ⟨hs, he, y, z, hy, hz, hyr, hym, hzr, hzm, hr⟩

end Spec

end Harvest
