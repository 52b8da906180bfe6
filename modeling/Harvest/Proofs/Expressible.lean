/-
  Harvest.Proofs.Expressible — the trees that descriptions stand for.

  A tree has a description if and only if each of its nodes is expressible: its mark is the
  one that refreshing sets, it is bare if it is absent, and a description can name its type
  (`Spec.Expressible`). Then the description that gives all fields of every node stands for
  the tree itself (`ofJson_describe`). The operations that build trees leave only the marks
  and the content of absent nodes to see to (`Built.plain`). `described_trees` puts this
  together.
-/

import Harvest.Proofs.Written

namespace Harvest.Spec

/-! ## Expressible nodes -/

/-- What every node of a described tree has. -/
structure Expressible (s : Spec) : Prop where
  mark : s.terminal = s.refresh.terminal
  absent : s.AbsentBare
  type : s.type.Plain

theorem absentBare_of_declares {d : Declaration} {s : Spec} (h : d.Declares s.toRule)
    (hc : List.Forall₂ (fun v c => build v = .ok c) d.children s.children)
    (hg : List.Forall₂ (fun v g => Group.build v = .ok g) d.groups s.groups) : s.AbsentBare := by
  intro hn
  have hbare := h.absent (beq_iff_eq.mp hn)
  obtain ⟨hdc, hdg, hdi, hde⟩ := Declaration.nilContent?_eq_none_iff.mp hbare
  have hkeys : ∀ {axis l k}, l = [] → Keys.ofJson axis l = .ok k → k.isEmpty := by
    rintro axis l k rfl hk
    cases hk
    rfl
  rw [hdc, List.forall₂_nil_left_iff] at hc
  rw [hdg, List.forall₂_nil_left_iff] at hg
  exact ⟨hc, hg, Bool.and_eq_true_iff.mpr ⟨hkeys hdi h.included, hkeys hde h.excluded⟩⟩

theorem plain_of_declares {d : Declaration} {r : Rule} (h : d.Declares r) : r.type.Plain :=
  h.type ▸ TypeTag.plain_ofText (Text.trim_trim _)

theorem absentBare_refresh_iff {s : Spec} : s.refresh.AbsentBare ↔ s.AbsentBare := by simp [AbsentBare]

theorem expressible_of_ofJson {v : Json} {s : Spec} (h : ofJson v = .ok s) : s.Expressible := by
  obtain ⟨u, hu, rfl⟩ := ofJson_eq_ok_iff.mp h
  obtain ⟨d, -, hd, hc, hg⟩ := build_eq_ok_iff.mp hu
  refine ⟨by rw [refresh_refresh], absentBare_refresh_iff.mpr (absentBare_of_declares hd hc hg), ?_⟩
  rw [refresh_type]
  exact plain_of_declares hd

/-- A tree is described by the description that gives all fields of its nodes. -/
theorem ofJson_describe {s : Spec} (h : ∀ t, s.Holds t → t.type.Plain ∧ t.AbsentBare) :
    ofJson s.describe = .ok s.refresh :=
  ofJson_eq_ok_iff.mpr ⟨s.unmarked, build_describe h, refresh_unmarked s⟩

/-! ## Trees that are built -/

/-- The trees made by the operations on nodes, from nodes without content whose type is
    named by a text without blanks around it. -/
inductive Built : Spec → Prop
  | ofType {type : String} : Text.trim type = type → Built (ofType type)
  | nil : Built nil
  | labelled {s : Spec} (label : String) : Built s → Built (s.labelled label)
  | withStack {s : Spec} (mode : Stack) : Built s → Built (s.withStack mode)
  | withTreatment {s : Spec} (mode : Treatment) : Built s → Built (s.withTreatment mode)
  | withOrdinal {s : Spec} (name : String) : Built s → Built (s.withOrdinal name)
  | including {s : Spec} (key : Key) : Built s → Built (s.including key)
  | excluding {s : Spec} (key : Key) : Built s → Built (s.excluding key)
  | addChild {s child : Spec} : Built s → Built child → Built (s.addChild child)
  | addGroup {s : Spec} (label : String) {members : List Spec} :
      Built s → (∀ m ∈ members, Built m) → Built (s.addGroup label members)
  | refresh {s : Spec} : Built s → Built s.refresh

theorem ofType_type (type : String) : (ofType type).type = .ofText type := by rw [ofType]

theorem mem_branches_addChild {s child c : Spec} {edge : Option String} (h : (edge, c) ∈ (s.addChild child).branches) :
    (edge, c) ∈ s.branches ∨ c = child := by
  rcases mem_branches.mp h with ⟨rfl, hc⟩ | hg
  · rcases List.mem_append.mp hc with hc | hc
    · exact Or.inl (mem_branches.mpr (Or.inl ⟨rfl, hc⟩))
    · exact Or.inr (List.mem_singleton.mp hc)
  · exact Or.inl (mem_branches.mpr (Or.inr hg))

theorem mem_branches_addGroup {s c : Spec} {label : String} {members : List Spec} {edge : Option String}
    (h : (edge, c) ∈ (s.addGroup label members).branches) : (edge, c) ∈ s.branches ∨ c ∈ members := by
  rcases mem_branches.mp h with hc | ⟨g, hg, he, hc⟩
  · exact Or.inl (mem_branches.mpr (Or.inl hc))
  · rcases List.mem_append.mp hg with hg | hg
    · exact Or.inl (mem_branches.mpr (Or.inr ⟨g, hg, he, hc⟩))
    · rw [List.mem_singleton.mp hg] at hc
      exact Or.inr hc

/-- A description can name the type of every node that the operations make. -/
theorem Built.plain {s : Spec} (h : s.Built) : ∀ t, s.Holds t → t.type.Plain := by
  -- An operation on the rule keeps the type of the node and all that is below it.
  have hrule : ∀ {s s' : Spec}, (∀ t, s.Holds t → t.type.Plain) → s'.type = s.type → s'.branches = s.branches →
      ∀ t, s'.Holds t → t.type.Plain := by
    intro s s' hs ht hb
    rw [forall_holds_iff] at hs ⊢
    rw [ht, hb]
    exact hs
  induction h with
  | ofType htrim =>
    refine forall_holds_iff.mpr ⟨ofType_type _ ▸ TypeTag.plain_ofText htrim, ?_⟩
    rintro edge c ⟨⟩
  | nil =>
    refine forall_holds_iff.mpr ⟨?_, ?_⟩
    · rintro name ⟨⟩
    · rintro edge c ⟨⟩
  | labelled _ _ ih | withStack _ _ ih | withTreatment _ _ ih | withOrdinal _ _ ih | including _ _ ih
  | excluding _ _ ih => exact hrule ih rfl rfl
  | addChild _ _ ihs ihc =>
    obtain ⟨hs, hbelow⟩ := forall_holds_iff.mp ihs
    refine forall_holds_iff.mpr ⟨hs, fun edge c hc => ?_⟩
    rcases mem_branches_addChild hc with hc | rfl
    · exact hbelow edge c hc
    · exact ihc
  | addGroup _ _ _ ihs ihm =>
    obtain ⟨hs, hbelow⟩ := forall_holds_iff.mp ihs
    refine forall_holds_iff.mpr ⟨hs, fun edge c hc => ?_⟩
    rcases mem_branches_addGroup hc with hc | hc
    · exact hbelow edge c hc
    · exact ihm c hc
  | refresh _ ih =>
    intro t ht
    obtain ⟨u, hu, rfl⟩ := holds_refresh_iff.mp ht
    rw [refresh_type]
    exact ih u hu

/-! ## Described trees -/

/-- A tree is described if and only if its nodes are expressible, and then by the document
    that gives all their fields. Among the trees that are built and then refreshed, those
    whose absent nodes are bare are described. -/
theorem described_trees (s : Spec) :
    ((∃ v, ofJson v = .ok s) ↔ ∀ t, s.Holds t → t.Expressible) ∧
      s.describe.IsDocument ∧ ((∀ t, s.Holds t → t.Expressible) → ofJson s.describe = .ok s) ∧
      (s.Built → (∀ t, s.Holds t → t.AbsentBare) → ofJson s.describe = .ok s.refresh) := by
  have hdescribe : (∀ t, s.Holds t → t.Expressible) → ofJson s.describe = .ok s := by
    intro h
    have hfresh : s.refresh = s := fresh_iff.mpr fun t ht => (h t ht).mark
    rw [ofJson_describe fun t ht => ⟨(h t ht).type, (h t ht).absent⟩, hfresh]
  refine ⟨⟨?_, fun h => ⟨_, hdescribe h⟩⟩, s.isDocument_describe, hdescribe, ?_⟩
  · rintro ⟨v, hv⟩ t ht
    obtain ⟨w, hw⟩ := described_of_holds hv ht
    exact expressible_of_ofJson hw
  · intro hbuilt hbare
    exact ofJson_describe fun t ht => ⟨hbuilt.plain t ht, hbare t ht⟩

/-- A node that includes a name and a position, over a labelled and an absent member. -/
theorem described_trees_of_two_members :
    let row : Spec := ((ofType "row").including (.name "id")).including (.position 0)
    let spec : Spec := row.addGroup "cells" [(ofType "cell").labelled "x", nil]
    spec.Built ∧ (∀ t, spec.Holds t → t.AbsentBare) ∧ spec.refresh.terminal = false ∧
      ofJson spec.describe = .ok spec.refresh ∧ ∀ t, spec.refresh.Holds t → t.Expressible := by
  intro row spec
  have hcell : Built (ofType "cell") := .ofType (by decide +kernel)
  have hrow : Built (ofType "row") := .ofType (by decide +kernel)
  have hbuilt : spec.Built := .addGroup "cells" ((hrow.including (.name "id")).including (.position 0)) <|
    List.forall_mem_cons.mpr ⟨hcell.labelled "x", List.forall_mem_singleton.mpr .nil⟩
  have hbare : ∀ t, spec.Holds t → t.AbsentBare := by
    refine forall_holds_iff.mpr ⟨fun hn => absurd hn (by decide +kernel), ?_⟩
    intro edge c hc t ht
    have hleaf : c.branches = [] ∧ c.AbsentBare := by
      rcases List.mem_pair.mp ((mem_branches_addGroup hc).resolve_left List.not_mem_nil) with rfl | rfl
      · exact ⟨rfl, fun hn => absurd hn (by decide +kernel)⟩
      · exact ⟨rfl, fun _ => ⟨rfl, rfl, rfl⟩⟩
    cases ht with
    | root => exact hleaf.2
    | branch hd => rw [hleaf.1] at hd; cases hd
  have h := (described_trees spec).2.2.2 hbuilt hbare
  exact ⟨hbuilt, hbare, by decide +kernel, h, (described_trees spec.refresh).1.mp ⟨_, h⟩⟩

end Harvest.Spec
