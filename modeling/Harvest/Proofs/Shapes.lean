/-
  Harvest.Proofs.Shapes — trees of one shape, and changes made in one place.

  Two trees have one shape if their nodes correspond: child to child, and member to member
  of groups with the same labels. Node by node their rules are then compared
  (`NodeByNode`). What holds between the rules of a node and of its correspondent in an
  order of rules holds of the trees in the same way (`NodeByNode.refl`, `NodeByNode.trans`);
  marks are left out of the comparison by `NodeByNode.refresh`.

  A change in one place has the rest of the tree as it was (`Somewhere`). So if the change
  itself keeps the shape, so does the changed tree (`NodeByNode.of_somewhere`).
-/

import Harvest.Proofs.Branches
import Mathlib.Data.List.Forall2

namespace Harvest

theorem forall₂_of_mem {α β : Type} {R S : α → β → Prop} {l : List α} {m : List β} (h : List.Forall₂ R l m)
    (hi : ∀ a ∈ l, ∀ b, R a b → S a b) : List.Forall₂ S l m := by
  induction h with
  | nil => exact .nil
  | cons hab _ ih =>
    exact .cons (hi _ (List.mem_cons_self ..) _ hab) (ih fun a ha => hi a (List.mem_cons_of_mem _ ha))

theorem forall₂_trans_of_mem {α : Type} {R : α → α → Prop} {l m n : List α} (h : List.Forall₂ R l m)
    (h' : List.Forall₂ R m n) (hi : ∀ a ∈ l, ∀ b c, R a b → R b c → R a c) : List.Forall₂ R l n := by
  induction h generalizing n with
  | nil =>
    cases h'
    exact .nil
  | cons hab _ ih =>
    cases h' with
    | cons hbc h' =>
      exact .cons (hi _ (List.mem_cons_self ..) _ _ hab hbc) (ih h' fun a ha => hi a (List.mem_cons_of_mem _ ha))

namespace Spec

/-! ## Node by node -/

/-- The trees have one shape, and the rules of their nodes are related by `R`. -/
inductive NodeByNode (R : Rule → Rule → Prop) : Spec → Spec → Prop
  | intro {s t : Spec} (rule : R s.toRule t.toRule) (children : List.Forall₂ (NodeByNode R) s.children t.children)
      (labels : s.groups.map Group.label = t.groups.map Group.label)
      (members : List.Forall₂ (List.Forall₂ (NodeByNode R)) (s.groups.map Group.members) (t.groups.map Group.members)) :
      NodeByNode R s t

variable {R : Rule → Rule → Prop} {s t u : Spec}

/-- Groups correspond if their labels are the same and their members correspond. -/
theorem forall₂_groups_iff {l m : List (Group Spec)} :
    (l.map Group.label = m.map Group.label ∧
        List.Forall₂ (List.Forall₂ (NodeByNode R)) (l.map Group.members) (m.map Group.members)) ↔
      List.Forall₂ (fun g h => g.label = h.label ∧ List.Forall₂ (NodeByNode R) g.members h.members) l m := by
  induction l generalizing m with
  | nil =>
    rw [List.forall₂_nil_left_iff]
    constructor
    · rintro ⟨-, h⟩
      cases m with
      | nil => rfl
      | cons => cases h
    · rintro rfl
      exact ⟨rfl, .nil⟩
  | cons g l ih =>
    cases m with
    | nil =>
      constructor
      · rintro ⟨h, -⟩
        cases h
      · rintro ⟨⟩
    | cons h m =>
      simp only [List.map_cons, List.cons.injEq, List.forall₂_cons, ← ih]
      tauto

theorem nodeByNode_iff :
    NodeByNode R s t ↔ R s.toRule t.toRule ∧ List.Forall₂ (NodeByNode R) s.children t.children ∧
      List.Forall₂ (fun g h => g.label = h.label ∧ List.Forall₂ (NodeByNode R) g.members h.members) s.groups t.groups := by
  rw [← forall₂_groups_iff]
  constructor
  · rintro ⟨hr, hc, hl, hm⟩
    exact ⟨hr, hc, hl, hm⟩
  · rintro ⟨hr, hc, hl, hm⟩
    exact .intro hr hc hl hm

theorem NodeByNode.isLeaf_eq (h : NodeByNode R s t) : s.isLeaf = t.isLeaf := by
  obtain ⟨-, hc, hg⟩ := nodeByNode_iff.mp h
  have he : ∀ {α β : Type} {P : α → β → Prop} {l : List α} {m : List β}, List.Forall₂ P l m → l.isEmpty = m.isEmpty := by
    rintro α β P l m (_ | _) <;> rfl
  rw [isLeaf, isLeaf, he hc, he hg]

/-- The nodes below corresponding nodes correspond, each under the same label. -/
theorem NodeByNode.branches (h : NodeByNode R s t) :
    List.Forall₂ (fun b c => b.1 = c.1 ∧ NodeByNode R b.2 c.2) s.branches t.branches := by
  obtain ⟨-, hc, hg⟩ := nodeByNode_iff.mp h
  have hedge : ∀ (edge : Option String) {l m : List Spec}, List.Forall₂ (NodeByNode R) l m →
      List.Forall₂ (fun b c : Option String × Spec => b.1 = c.1 ∧ NodeByNode R b.2 c.2)
        (l.map (edge, ·)) (m.map (edge, ·)) := by
    intro edge l m hlm
    rw [List.forall₂_map_left_iff, List.forall₂_map_right_iff]
    exact hlm.imp fun _ _ hab => ⟨rfl, hab⟩
  refine List.rel_append (hedge none hc) (List.rel_flatMap hg ?_)
  rintro ⟨label, l⟩ ⟨_, m⟩ ⟨rfl, hlm⟩
  exact hedge (some label) hlm

theorem NodeByNode.refl (hR : ∀ r, R r r) (s : Spec) : NodeByNode R s s := by
  induction s using induction_branches with
  | step s ih =>
    refine nodeByNode_iff.mpr ⟨hR _, List.forall₂_same.mpr fun c hc => ?_, List.forall₂_same.mpr fun g hg => ⟨rfl, ?_⟩⟩
    · exact ih none c (mem_branches.mpr (Or.inl ⟨rfl, hc⟩))
    · exact List.forall₂_same.mpr fun c hc => ih (some g.label) c (mem_branches.mpr (Or.inr ⟨g, hg, rfl, hc⟩))

theorem NodeByNode.trans (hR : ∀ {a b c}, R a b → R b c → R a c) (h : NodeByNode R s t) (h' : NodeByNode R t u) :
    NodeByNode R s u := by
  induction s using induction_branches generalizing t u with
  | step s ih =>
    obtain ⟨hr, hc, hg⟩ := nodeByNode_iff.mp h
    obtain ⟨hr', hc', hg'⟩ := nodeByNode_iff.mp h'
    refine nodeByNode_iff.mpr ⟨hR hr hr', forall₂_trans_of_mem hc hc' ?_, forall₂_trans_of_mem hg hg' ?_⟩
    · intro a ha b c hab hbc
      exact ih none a (mem_branches.mpr (Or.inl ⟨rfl, ha⟩)) hab hbc
    · rintro g hgs g' g'' ⟨hl, hm⟩ ⟨hl', hm'⟩
      refine ⟨hl.trans hl', forall₂_trans_of_mem hm hm' ?_⟩
      intro a ha b c hab hbc
      exact ih (some g.label) a (mem_branches.mpr (Or.inr ⟨g, hgs, rfl, ha⟩)) hab hbc

/-- Where the marks of the second tree do not matter, it can be refreshed. -/
theorem NodeByNode.refresh (hR : ∀ {a b : Rule} (mark : Bool), R a b → R a { b with terminal := mark })
    (h : NodeByNode R s t) : NodeByNode R s t.refresh := by
  induction s using induction_branches generalizing t with
  | step s ih =>
    obtain ⟨hr, hc, hg⟩ := nodeByNode_iff.mp h
    rw [refresh_eq]
    refine nodeByNode_iff.mpr ⟨hR _ hr, ?_, ?_⟩
    · show List.Forall₂ _ s.children (t.children.map Spec.refresh)
      rw [List.forall₂_map_right_iff]
      exact forall₂_of_mem hc fun a ha b hab => ih none a (mem_branches.mpr (Or.inl ⟨rfl, ha⟩)) hab
    · show List.Forall₂ _ s.groups (t.groups.map _)
      rw [List.forall₂_map_right_iff]
      refine forall₂_of_mem hg ?_
      rintro g hgs g' ⟨hl, hm⟩
      refine ⟨hl, ?_⟩
      show List.Forall₂ _ g.members (g'.members.map Spec.refresh)
      rw [List.forall₂_map_right_iff]
      exact forall₂_of_mem hm fun a ha b hab => ih (some g.label) a (mem_branches.mpr (Or.inr ⟨g, hgs, rfl, ha⟩)) hab

/-! ## Changes in one place -/

/-- One node of the tree, with what is below it, is changed as `E` says. -/
inductive Somewhere (E : Spec → Spec → Prop) : Spec → Spec → Prop
  | here {s t : Spec} : E s t → Somewhere E s t
  | child {s c d : Spec} {before after : List Spec} :
      s.children = before ++ c :: after → Somewhere E c d → Somewhere E s { s with children := before ++ d :: after }
  | member {s c d : Spec} {label : String} {before after : List Spec} {first last : List (Group Spec)} :
      s.groups = first ++ ⟨label, before ++ c :: after⟩ :: last → Somewhere E c d →
        Somewhere E s { s with groups := first ++ ⟨label, before ++ d :: after⟩ :: last }

theorem branches_children_append (s : Spec) (l m : List Spec) :
    branches { s with children := l ++ m } = l.map (none, ·) ++ branches { s with children := m } := by
  rw [branches, branches, List.map_append, List.append_assoc]

theorem branches_members_append (s : Spec) (label : String) (l m : List Spec) (first last : List (Group Spec)) :
    branches { s with groups := first ++ ⟨label, l ++ m⟩ :: last } =
      branches { s with groups := first ++ [⟨label, l⟩] } ++ branches { groups := ⟨label, m⟩ :: last } := by
  simp [branches]

/-- A group counts whoever its members are. -/
theorem isLeaf_of_members {label : String} {l : List Spec} {first last : List (Group Spec)}
    (hs : s.groups = first ++ ⟨label, l⟩ :: last) (m : List Spec) :
    isLeaf { s with groups := first ++ ⟨label, m⟩ :: last } = s.isLeaf := by
  rw [isLeaf, isLeaf, hs]
  cases first <;> rfl

/-- Either the node itself is changed, or one of the nodes directly below it is exchanged and
    all else stays as it was. -/
@[elab_as_elim]
theorem Somewhere.induction_branches {E : Spec → Spec → Prop} {motive : ∀ s t, Somewhere E s t → Prop}
    (here : ∀ {s t} (h : E s t), motive s t (.here h))
    (below : ∀ {s t c d : Spec} {edge : Option String} {before after : List (Option String × Spec)}
      (hst : Somewhere E s t) (hcd : Somewhere E c d), t.toRule = s.toRule → s.branches = before ++ (edge, c) :: after →
        t.branches = before ++ (edge, d) :: after → motive c d hcd → motive s t hst)
    {s t : Spec} (h : Somewhere E s t) : motive s t h := by
  induction h with
  | here h => exact here h
  | @child s c d before after hs h ih =>
    have hb : ∀ x, branches { s with children := before ++ x :: after } =
        before.map (none, ·) ++ (none, x) :: branches { s with children := after } :=
      fun x => branches_children_append s before (x :: after)
    exact below (.child hs h) h rfl (by rw [← hb, ← hs]; rfl) (hb d) ih
  | @member s c d label before after first last hs h ih =>
    have hb : ∀ x, branches { s with groups := first ++ ⟨label, before ++ x :: after⟩ :: last } =
        branches { s with groups := first ++ [⟨label, before⟩] } ++
          (some label, x) :: branches { groups := ⟨label, after⟩ :: last } :=
      fun x => branches_members_append s label before (x :: after) first last
    exact below (.member hs h) h rfl (by rw [← hb, ← hs]; rfl) (hb d) ih

theorem NodeByNode.of_somewhere {E : Spec → Spec → Prop} (hR : ∀ r, R r r) (hE : ∀ s t, E s t → NodeByNode R s t)
    (h : Somewhere E s t) : NodeByNode R s t := by
  have hself : ∀ l : List Spec, List.Forall₂ (NodeByNode R) l l := fun l => List.forall₂_same.mpr fun c _ => refl hR c
  induction h with
  | here h => exact hE _ _ h
  | @child s c d before after hs _ ih =>
    obtain ⟨-, -, hg⟩ := nodeByNode_iff.mp (refl hR s)
    refine nodeByNode_iff.mpr ⟨hR _, ?_, hg⟩
    rw [hs]
    exact List.rel_append (hself before) (.cons ih (hself after))
  | @member s c d label before after first last hs _ ih =>
    have hgroups : ∀ l : List (Group Spec),
        List.Forall₂ (fun g h => g.label = h.label ∧ List.Forall₂ (NodeByNode R) g.members h.members) l l :=
      fun l => List.forall₂_same.mpr fun g _ => ⟨rfl, hself g.members⟩
    refine nodeByNode_iff.mpr ⟨hR _, hself s.children, ?_⟩
    rw [hs]
    refine List.rel_append (hgroups first) (.cons ⟨rfl, ?_⟩ (hgroups last))
    exact List.rel_append (hself before) (.cons ih (hself after))

end Spec

end Harvest
