/-
  Harvest.Proofs.Translation — the tree that a description stands for.

  A node's rule says what its declaration does (`Declaration.Declares`), and its children
  and groups are those of the parts of the document, one for one and in their order
  (`Spec.build_eq_ok_iff`, `Group.build_eq_ok_iff`). So every node of a tree that was built
  was itself built, and every node of a described tree is itself described
  (`Spec.built_of_holds`, `Spec.described_of_holds`).
-/

import Harvest.Proofs.Branches
import Harvest.Proofs.Checks
import Mathlib.Data.List.Forall2

namespace Harvest

/-! ## Results that succeed -/

section

variable {ε ε' α β : Type}

theorem bind_eq_ok_iff {x : Except ε α} {f : α → Except ε β} {b : β} :
    (x >>= f) = .ok b ↔ ∃ a, x = .ok a ∧ f a = .ok b := by
  cases x with
  | error e =>
    constructor
    · intro h
      cases h
    · rintro ⟨a, h, -⟩
      cases h
  | ok a =>
    constructor
    · intro h
      exact ⟨a, rfl, h⟩
    · rintro ⟨a', h, hf⟩
      cases h
      exact hf

theorem map_eq_ok_iff {x : Except ε α} {f : α → β} {b : β} : x.map f = .ok b ↔ ∃ a, x = .ok a ∧ f a = b := by
  cases x <;> simp [Except.map]

theorem mapError_eq_ok_iff {x : Except ε α} {f : ε → ε'} {a : α} : x.mapError f = .ok a ↔ x = .ok a := by
  cases x <;> simp [Except.mapError]

theorem pure_eq_ok_iff {a b : α} : (pure a : Except ε α) = .ok b ↔ a = b := by simp [pure, Except.pure]

/-- A list made one by one has an item for each. -/
theorem mapM_eq_ok_iff {f : α → Except ε β} {l : List α} {m : List β} :
    l.mapM f = .ok m ↔ List.Forall₂ (fun a b => f a = .ok b) l m := by
  induction l generalizing m with
  | nil => rw [List.mapM_nil, pure_eq_ok_iff, List.forall₂_nil_left_iff, eq_comm]
  | cons a l ih =>
    simp only [List.mapM_cons, bind_eq_ok_iff, pure_eq_ok_iff, List.forall₂_cons_left_iff, ih]
    constructor
    · rintro ⟨b, hb, m, hm, rfl⟩
      exact ⟨b, m, hb, hm, rfl⟩
    · rintro ⟨b, m, hb, hm, rfl⟩
      exact ⟨b, hb, m, hm, rfl⟩

end

/-! ## Rules -/

/-- The rule is what the declaration says, with its mark unset. -/
structure Declaration.Declares (d : Declaration) (r : Rule) : Prop where
  type : r.type = .ofText (Text.trim (d.type.getD ""))
  absent : r.type = .nil → d.nilContent? = none
  label : r.label = d.label
  stack : d.stack.elim (.ok .auto) Stack.ofKeyword = .ok r.stack
  process : d.process.elim (.ok .none) Treatment.ofKeyword = .ok r.process
  included : Keys.ofJson .included d.included = .ok r.filter.included
  excluded : Keys.ofJson .excluded d.excluded = .ok r.filter.excluded
  ordinal : r.ordinal = d.ordinal
  terminal : r.terminal = true

theorem Declaration.declares_of_rule {d : Declaration} {r : Rule} (h : d.rule = .ok r) : d.Declares r := by
  have hrest : (TypeTag.ofText (Text.trim (d.type.getD "")) = .nil → d.nilContent? = none) ∧
      (do
        let layout ← d.stack.elim (.ok .auto) Stack.ofKeyword
        let process ← d.process.elim (.ok .none) Treatment.ofKeyword
        let included ← Keys.ofJson .included d.included
        let excluded ← Keys.ofJson .excluded d.excluded
        return ({ type := .ofText (Text.trim (d.type.getD "")), label := d.label, stack := layout, process,
                  filter := ⟨included, excluded⟩, ordinal := d.ordinal } : Rule) : Except Problem Rule) = .ok r := by
    unfold rule at h
    by_cases hn : TypeTag.ofText (Text.trim (d.type.getD "")) = .nil
    · cases hc : d.nilContent? with
      | some content =>
        simp only [hn, hc, if_true] at h
        cases h
      | none =>
        simp only [hn, hc, if_true] at h
        exact ⟨fun _ => rfl, hn ▸ h⟩
    · simp only [hn, if_false] at h
      exact ⟨fun h => absurd h hn, h⟩
  obtain ⟨habsent, hrest⟩ := hrest
  simp only [bind_eq_ok_iff, pure_eq_ok_iff] at hrest
  generalize ht : TypeTag.ofText (Text.trim (d.type.getD "")) = t at habsent hrest
  obtain ⟨layout, hlayout, process, hprocess, included, hincluded, excluded, hexcluded, rfl⟩ := hrest
  exact ⟨ht.symm, habsent, rfl, hlayout, hprocess, hincluded, hexcluded, rfl, rfl⟩

theorem Declaration.Declares.rule_eq {d : Declaration} {r : Rule} (h : d.Declares r) : d.rule = .ok r := by
  have hr : r = { type := r.type, label := d.label, stack := r.stack, process := r.process,
                  filter := ⟨r.filter.included, r.filter.excluded⟩, ordinal := d.ordinal } := by
    rw [← h.label, ← h.ordinal]
    obtain ⟨type, label, layout, process, filter, ordinal, terminal⟩ := r
    cases h.terminal
    rfl
  unfold rule
  rw [← h.type, h.stack, h.process, h.included, h.excluded]
  by_cases hn : r.type = .nil
  · rw [h.absent hn, if_pos hn]
    exact congrArg Except.ok hr.symm
  · rw [if_neg hn]
    exact congrArg Except.ok hr.symm

/-! ## Trees -/

theorem Spec.buildAll_eq_ok_iff {step : Nat → Step} {i : Nat} {l : List Json} {specs : List Spec} :
    buildAll step i l = .ok specs ↔ List.Forall₂ (fun v s => build v = .ok s) l specs := by
  induction l generalizing i specs with
  | nil => rw [buildAll, Except.ok.injEq, List.forall₂_nil_left_iff, eq_comm]
  | cons v l ih =>
    rw [buildAll, List.forall₂_cons_left_iff]
    simp only [bind_eq_ok_iff, mapError_eq_ok_iff, pure_eq_ok_iff, ih]
    constructor
    · rintro ⟨s, hs, rest, hrest, rfl⟩
      exact ⟨s, rest, hs, hrest, rfl⟩
    · rintro ⟨s, rest, hs, hrest, rfl⟩
      exact ⟨s, hs, rest, hrest, rfl⟩

theorem Spec.buildGroups_eq_ok_iff {i : Nat} {l : List Json} {groups : List (Group Spec)} :
    buildGroups i l = .ok groups ↔ List.Forall₂ (fun v g => Group.build v = .ok g) l groups := by
  induction l generalizing i groups with
  | nil => rw [buildGroups, Except.ok.injEq, List.forall₂_nil_left_iff, eq_comm]
  | cons v l ih =>
    rw [buildGroups, List.forall₂_cons_left_iff]
    simp only [bind_eq_ok_iff, mapError_eq_ok_iff, pure_eq_ok_iff, ih]
    constructor
    · rintro ⟨g, hg, rest, hrest, rfl⟩
      exact ⟨g, rest, hg, hrest, rfl⟩
    · rintro ⟨g, rest, hg, hrest, rfl⟩
      exact ⟨g, hg, rest, hrest, rfl⟩

/-- The members of a group are built from the items of a list. -/
theorem Group.ofMembers_eq_ok_iff {label : String} {v : Json} {g : Group Spec} :
    ofMembers label v = .ok g ↔
      ∃ items, v = .array items ∧ g.label = label ∧ List.Forall₂ (fun v s => Spec.build v = .ok s) items g.members := by
  obtain ⟨label', members⟩ := g
  cases v with
  | array items =>
    rw [ofMembers]
    simp only [bind_eq_ok_iff, pure_eq_ok_iff, Spec.buildAll_eq_ok_iff, Group.mk.injEq, Json.array.injEq]
    constructor
    · rintro ⟨members, hm, rfl, rfl⟩
      exact ⟨items, rfl, rfl, hm⟩
    · rintro ⟨items, rfl, rfl, hm⟩
      exact ⟨members, hm, rfl, rfl⟩
  | _ => simp [ofMembers]

/-- A group is built from the pair of its label and a list. -/
theorem Group.build_eq_ok_iff {v : Json} {g : Group Spec} :
    build v = .ok g ↔ ∃ items, v = .array [.string g.label, .array items] ∧
      List.Forall₂ (fun v s => Spec.build v = .ok s) items g.members := by
  constructor
  · intro h
    unfold build at h
    split at h
    · obtain ⟨items, rfl, rfl, hm⟩ := ofMembers_eq_ok_iff.mp h
      exact ⟨items, rfl, hm⟩
    · cases h
    · cases h
    · cases h
  · rintro ⟨items, rfl, hm⟩
    rw [build]
    exact ofMembers_eq_ok_iff.mpr ⟨items, rfl, rfl, hm⟩

theorem Declaration.build_eq_ok_iff {d : Declaration} {s : Spec} :
    d.build = .ok s ↔ d.Declares s.toRule ∧ List.Forall₂ (fun v c => Spec.build v = .ok c) d.children s.children ∧
      List.Forall₂ (fun v g => Group.build v = .ok g) d.groups s.groups := by
  obtain ⟨rule, children, groups⟩ := s
  rw [build]
  simp only [bind_eq_ok_iff, mapError_eq_ok_iff, pure_eq_ok_iff, Spec.buildAll_eq_ok_iff, Spec.buildGroups_eq_ok_iff,
    Spec.mk.injEq]
  constructor
  · rintro ⟨rule, hr, children, hc, groups, hg, rfl, rfl, rfl⟩
    exact ⟨declares_of_rule hr, hc, hg⟩
  · rintro ⟨hr, hc, hg⟩
    exact ⟨rule, hr.rule_eq, children, hc, groups, hg, rfl, rfl, rfl⟩

/-- A node is built from its declaration, its children and groups from what this lists. -/
theorem Spec.build_eq_ok_iff {v : Json} {s : Spec} :
    build v = .ok s ↔ ∃ d, Declaration.ofJson v = .ok d ∧ d.Declares s.toRule ∧
      List.Forall₂ (fun v c => build v = .ok c) d.children s.children ∧
      List.Forall₂ (fun v g => Group.build v = .ok g) d.groups s.groups := by
  rw [build]
  simp only [← Declaration.build_eq_ok_iff]
  split
  · rename_i e he
    simp [he]
  · rename_i d hd
    simp [hd]

/-! ## The nodes of a described tree -/

theorem exists_of_forall₂_right {α β : Type} {R : α → β → Prop} {l : List α} {m : List β} (h : List.Forall₂ R l m)
    {b : β} (hb : b ∈ m) : ∃ a ∈ l, R a b := by
  induction h with
  | nil => cases hb
  | cons hab _ ih =>
    rcases List.mem_cons.mp hb with rfl | hb
    · exact ⟨_, List.mem_cons_self .., hab⟩
    · obtain ⟨a, ha, hr⟩ := ih hb
      exact ⟨a, List.mem_cons_of_mem _ ha, hr⟩

namespace Spec

theorem built_of_branch {v : Json} {s c : Spec} {edge : Option String} (h : build v = .ok s)
    (hc : (edge, c) ∈ s.branches) : ∃ w, build w = .ok c := by
  obtain ⟨d, -, -, hchildren, hgroups⟩ := build_eq_ok_iff.mp h
  rcases mem_branches.mp hc with ⟨-, hc⟩ | ⟨g, hg, -, hc⟩
  · obtain ⟨w, -, hw⟩ := exists_of_forall₂_right hchildren hc
    exact ⟨w, hw⟩
  · obtain ⟨u, -, hu⟩ := exists_of_forall₂_right hgroups hg
    obtain ⟨items, -, hmembers⟩ := Group.build_eq_ok_iff.mp hu
    obtain ⟨w, -, hw⟩ := exists_of_forall₂_right hmembers hc
    exact ⟨w, hw⟩

/-- Every node of a tree that was built was built itself. -/
theorem built_of_holds {v : Json} {s t : Spec} (h : build v = .ok s) (ht : s.Holds t) : ∃ w, build w = .ok t := by
  induction ht generalizing v with
  | root => exact ⟨v, h⟩
  | branch hc _ ih =>
    obtain ⟨w, hw⟩ := built_of_branch h hc
    exact ih hw

theorem ofJson_eq_ok_iff {v : Json} {s : Spec} : ofJson v = .ok s ↔ ∃ t, build v = .ok t ∧ t.refresh = s :=
  map_eq_ok_iff

/-- Every node of a described tree has a description. -/
theorem described_of_holds {v : Json} {s t : Spec} (h : ofJson v = .ok s) (ht : s.Holds t) : ∃ w, ofJson w = .ok t := by
  obtain ⟨u, hu, rfl⟩ := ofJson_eq_ok_iff.mp h
  obtain ⟨t₀, ht₀, rfl⟩ := holds_refresh_iff.mp ht
  obtain ⟨w, hw⟩ := built_of_holds hu ht₀
  exact ⟨w, ofJson_eq_ok_iff.mpr ⟨t₀, hw, rfl⟩⟩

end Spec

end Harvest
