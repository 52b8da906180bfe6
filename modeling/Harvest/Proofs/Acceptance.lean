/-
  Harvest.Proofs.Acceptance — the documents that are descriptions.

  A document is a description if it is a node: its fields are known and of their kinds, its
  words are among those they may be, its filters hold keys, it has no content if it is
  absent, its children are nodes, and its groups are pairs of a label and a list of nodes
  (`Json.IsNode`, `Json.IsGroup`). A tree is built from a document if and only if it is one
  (`accepted_iff_isNode`).
-/

import Harvest.Proofs.Checks

namespace Harvest

/-! ## Descriptions -/

namespace Json

/-- What the fields of a node must be, its children and groups apart. A word or a list that
    is not given is no less right than one that is null or empty. -/
structure FieldsRight (v : Json) : Prop where
  shaped : v.Shaped
  stack : ∀ s, v.wordAt? .stack = some s → Text.word s ∈ stackWords
  process : ∀ s, v.wordAt? .process = some s → Text.word s ∈ processWords
  included : ∀ x ∈ v.listAt .included, x.isKey
  excluded : ∀ x ∈ v.listAt .excluded, x.isKey
  absent : ∀ s, v.wordAt? .type = some s → Text.word s = "nil" →
    v.listAt .children = [] ∧ v.listAt .groups = [] ∧ v.listAt .included = [] ∧ v.listAt .excluded = []

mutual

inductive IsNode : Json → Prop
  | intro {v : Json} (fields : v.FieldsRight) (children : ∀ c ∈ v.listAt .children, c.IsNode)
      (groups : ∀ g ∈ v.listAt .groups, g.IsGroup) : v.IsNode

inductive IsGroup : Json → Prop
  | pair {label : String} {members : List Json} (h : ∀ m ∈ members, m.IsNode) :
      (Json.array [.string label, .array members]).IsGroup

end

end Json

/-! ## Checks that pass -/

theorem Declaration.nilContent?_eq_none_iff {d : Declaration} :
    d.nilContent? = none ↔ d.children = [] ∧ d.groups = [] ∧ d.included = [] ∧ d.excluded = [] := by
  unfold nilContent?
  by_cases hc : d.children = []
  · by_cases hg : d.groups = []
    · by_cases hi : d.included = [] <;> simp [hc, hg, hi]
    · simp [hc, hg]
  · simp [hc]

namespace Json

theorem shapeProblem?_eq_none_iff {v : Json} : v.shapeProblem? = none ↔ v.Shaped := by
  rw [shapeProblem?, Option.map_eq_none_iff, errorOf?_eq_none_iff]
  simp only [Declaration.ofJson_eq_ok_iff]
  constructor
  · rintro ⟨_, h, -⟩
    exact h
  · intro h
    exact ⟨_, h, rfl⟩

theorem nilProblem?_eq_none_iff {v : Json} :
    v.nilProblem? = none ↔ ∀ s, v.wordAt? .type = some s → Text.word s = "nil" →
      v.listAt .children = [] ∧ v.listAt .groups = [] ∧ v.listAt .included = [] ∧ v.listAt .excluded = [] := by
  have hcontent : v.declared.nilContent? = none ↔
      v.listAt .children = [] ∧ v.listAt .groups = [] ∧ v.listAt .included = [] ∧ v.listAt .excluded = [] :=
    Declaration.nilContent?_eq_none_iff
  unfold nilProblem?
  cases v.wordAt? .type with
  | none => simp [Text.word_empty]
  | some s => simp [hcontent]

theorem wordProblem?_eq_none_iff {v : Json} {f : Field} {words : List String} {problem : String → Problem} :
    v.wordProblem? f words problem = none ↔ ∀ s, v.wordAt? f = some s → Text.word s ∈ words := by
  simp [wordProblem?]

theorem keyProblem?_eq_none_iff {axis : Axis} {entries : List Json} :
    keyProblem? axis entries = none ↔ ∀ x ∈ entries, x.isKey := by
  simp [keyProblem?]

end Json

namespace Part

theorem problem?_node_eq_none_iff {v : Json} : (node v).problem? = none ↔ v.FieldsRight := by
  simp only [problem?, checks, List.findSome?_eq_none_iff, List.forall_mem_cons, List.not_mem_nil,
    id_eq, Json.shapeProblem?_eq_none_iff, Json.nilProblem?_eq_none_iff, Json.wordProblem?_eq_none_iff,
    Json.keyProblem?_eq_none_iff]
  constructor
  · rintro ⟨shaped, absent, stack, process, included, excluded, -⟩
    exact ⟨shaped, stack, process, included, excluded, absent⟩
  · intro h
    exact ⟨h.shaped, h.absent, h.stack, h.process, h.included, h.excluded, by simp⟩

theorem problem?_group_eq_none_iff {v : Json} :
    (group v).problem? = none ↔ ∃ label members, v = .array [.string label, .array members] := by
  constructor
  · intro h
    simp only [problem?, checks, List.findSome?_eq_none_iff, List.forall_mem_cons, id_eq] at h
    obtain ⟨hlist, harity, hlabel, hmembers, -⟩ := h
    cases v with
    | array items =>
      have hlen : items.length = 2 := by
        by_contra hne
        simp [Json.arityProblem?, hne] at harity
      obtain ⟨x, y, rfl⟩ := List.length_eq_two.mp hlen
      cases x with
      | string label =>
        cases y with
        | array members => exact ⟨label, members, rfl⟩
        | _ => cases hmembers
      | _ => cases hlabel
    | _ => cases hlist
  · rintro ⟨label, members, rfl⟩
    rfl

/-- Whether the part is what its place asks for. -/
def IsProper : Part → Prop
  | node v => v.IsNode
  | group v => v.IsGroup

/-- A part is proper if it has no problem of its own and what is below it is proper. -/
theorem isProper_iff {p : Part} :
    p.IsProper ↔ p.problem? = none ∧ ∀ step q, (step, q) ∈ p.below → q.IsProper := by
  cases p with
  | node v =>
    rw [problem?_node_eq_none_iff]
    constructor
    · intro h
      cases h with
      | intro fields children groups =>
        refine ⟨fields, ?_⟩
        intro step q hm
        rcases mem_below_node.mp hm with ⟨i, c, hc, -, rfl⟩ | ⟨i, g, hg, -, rfl⟩
        · exact children c (List.mem_of_getElem? hc)
        · exact groups g (List.mem_of_getElem? hg)
    · rintro ⟨hfields, hbelow⟩
      refine Json.IsNode.intro hfields ?_ ?_
      · intro c hc
        obtain ⟨i, hi⟩ := List.getElem?_of_mem hc
        exact hbelow _ _ (mem_below_node.mpr (Or.inl ⟨i, c, hi, rfl, rfl⟩))
      · intro g hg
        obtain ⟨i, hi⟩ := List.getElem?_of_mem hg
        exact hbelow _ _ (mem_below_node.mpr (Or.inr ⟨i, g, hi, rfl, rfl⟩))
  | group v =>
    rw [problem?_group_eq_none_iff]
    constructor
    · intro h
      cases h with
      | pair members =>
        refine ⟨⟨_, _, rfl⟩, ?_⟩
        intro step q hm
        obtain ⟨label, items, hv, i, m, hi, -, rfl⟩ := mem_below_group.mp hm
        cases hv
        exact members m (List.mem_of_getElem? hi)
    · rintro ⟨⟨label, members, rfl⟩, hbelow⟩
      refine Json.IsGroup.pair ?_
      intro m hm
      obtain ⟨i, hi⟩ := List.getElem?_of_mem hm
      exact hbelow _ _ (mem_below_group.mpr ⟨label, members, rfl, i, m, hi, rfl, rfl⟩)

theorem refusal?_eq_none_iff_isProper (p : Part) : p.refusal? = none ↔ p.IsProper := by
  induction p using induction_below with
  | part p ih =>
    rw [refusal?_eq_none_iff, isProper_iff]
    exact and_congr_right fun _ => forall_congr' fun step => forall_congr' fun q => forall_congr' fun hm => ih step q hm

end Part

/-- A tree is built from those documents that are nodes, and from no other. -/
theorem Spec.accepted_iff_isNode (v : Json) : (∃ s, ofJson v = .ok s) ↔ v.IsNode := by
  have h := Part.refusal?_eq_none_iff_isProper (.node v)
  rw [← errorOf?_eq_none_iff, ofJson, errorOf?_map]
  exact h

end Harvest
