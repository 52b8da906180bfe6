/-
  Harvest.Proofs.Paths — the paths of rejections, from any base.

  A rejection has the steps to its place from the described root, and a base is set before
  them when it is told (`Rejection.located`). The same comes out if the path is carried
  down as text and set before each problem where it is found, with no path being the same as
  the empty one (`Declaration.buildFrom_eq`).

  So the base has no part in what is accepted, and stands before what was the path without
  it (`Rejection.located_eq_under`). A group described by itself is judged like the only
  group of a root (`Spec.ofJson_soleGroup`), whose step is then the base
  (`rejections_compose`).
-/

import Harvest.Proofs.Faults
import Harvest.Proofs.Translation

namespace Harvest

/-! ## Results that fail -/

section

variable {ε ε' α β : Type}

theorem mapError_bind (x : Except ε α) (f : α → Except ε β) (g : ε → ε') :
    (x >>= f).mapError g = x.mapError g >>= fun a => (f a).mapError g := by
  cases x <;> rfl

theorem map_mapError (x : Except ε α) (f : α → β) (g : ε → ε') : (x.map f).mapError g = (x.mapError g).map f := by
  cases x <;> rfl

theorem mapError_mapError {ε'' : Type} (x : Except ε α) (f : ε → ε') (g : ε' → ε'') :
    (x.mapError f).mapError g = x.mapError fun e => g (f e) := by
  cases x <;> rfl

end

/-! ## Problems with their paths -/

/-- The problem as it is told from further out. -/
def Located.under (outer : String) (l : Located) : Located :=
  { l with path? := some (l.path?.elim outer (outer ++ "." ++ ·)) }

theorem joinPath_step_ne_empty (path : String) (step : Step) : joinPath path step.text ≠ "" := by
  unfold joinPath
  split
  · exact step.text_ne_empty
  · intro h
    have hl := congrArg String.toList h
    simp at hl

namespace Rejection

theorem located_here (path : String) (problem : Problem) : (here problem).located path = problem.locatedAt path := by
  rw [located, Problem.locatedAt, path?]
  by_cases h : path = ""
  · rw [if_pos h, if_pos h]
    rfl
  · rw [if_neg h, if_neg h]
    rfl

theorem located_under (path : String) (step : Step) (r : Rejection) :
    (r.under step).located path = r.located (joinPath path step.text) := by
  rw [located, located, path?, path?, if_neg (joinPath_step_ne_empty path step), joinPath]
  by_cases h : path = ""
  · rw [if_pos h, if_pos h]
    rfl
  · rw [if_neg h, if_neg h]
    rfl

theorem located_eq_under {base : String} (h : base ≠ "") (r : Rejection) :
    r.located base = (r.located "").under base := by
  rw [located, located, path?, path?, if_neg h, if_pos rfl]
  cases r.place with
  | nil => rfl
  | cons step rest =>
    have hjoin : String.intercalate "." (base :: step.text :: rest.map Step.text) =
        base ++ "." ++ String.intercalate "." (step.text :: rest.map Step.text) := by
      rw [String.intercalate_cons_cons]
    exact congrArg (fun path => (⟨some path, r.problem⟩ : Located)) hjoin

end Rejection

/-! ## The two ways agree -/

theorem mapError_located_under {α : Type} (path : String) (step : Step) (x : Except Rejection α) :
    (x.mapError (.under step)).mapError (Rejection.located path) =
      x.mapError (Rejection.located (joinPath path step.text)) := by
  rw [mapError_mapError]
  exact congrArg x.mapError (funext (Rejection.located_under path step))

theorem Spec.build_eq_bind (v : Json) :
    build v = (Declaration.ofJson v).mapError (fun e => .here (.malformed e)) >>= Declaration.build := by
  rw [build]
  split <;> rename_i hd <;> rw [hd] <;> rfl

theorem Spec.buildFrom_eq_bind (path : String) (v : Json) :
    buildFrom path v =
      (Declaration.ofJson v).mapError (fun e => (Problem.malformed e).locatedAt path) >>= Declaration.buildFrom path := by
  rw [buildFrom]
  split <;> rename_i hd <;> rw [hd] <;> rfl

/-- From every base the part is translated as it is when the base is set before the steps. -/
def Part.Carried : Part → Prop
  | node v => ∀ path, Spec.buildFrom path v = (Spec.build v).mapError (Rejection.located path)
  | group v => ∀ path, Group.buildFrom path v = (Group.build v).mapError (Rejection.located path)

theorem Spec.buildAllFrom_eq (path : String) (step : Nat → Step) (i : Nat) {l : List Json}
    (h : ∀ v ∈ l, (Part.node v).Carried) :
    buildAllFrom path step i l = (buildAll step i l).mapError (Rejection.located path) := by
  induction l generalizing i with
  | nil =>
    rw [buildAllFrom, buildAll]
    rfl
  | cons v l ih =>
    rw [buildAllFrom, buildAll, h v List.mem_cons_self, ih (i + 1) fun c hc => h c (List.mem_cons_of_mem _ hc)]
    simp only [mapError_bind, mapError_located_under]
    rfl

theorem Spec.buildGroupsFrom_eq (path : String) (i : Nat) {l : List Json} (h : ∀ v ∈ l, (Part.group v).Carried) :
    buildGroupsFrom path i l = (buildGroups i l).mapError (Rejection.located path) := by
  induction l generalizing i with
  | nil =>
    rw [buildGroupsFrom, buildGroups]
    rfl
  | cons v l ih =>
    rw [buildGroupsFrom, buildGroups, h v List.mem_cons_self, ih (i + 1) fun g hg => h g (List.mem_cons_of_mem _ hg)]
    simp only [mapError_bind, mapError_located_under]
    rfl

theorem Declaration.buildFrom_eq_of_below {d : Declaration} (path : String)
    (hc : ∀ v ∈ d.children, (Part.node v).Carried) (hg : ∀ v ∈ d.groups, (Part.group v).Carried) :
    d.buildFrom path = d.build.mapError (Rejection.located path) := by
  have hrule : (d.rule.mapError Rejection.here).mapError (Rejection.located path) =
      d.rule.mapError (Problem.locatedAt path) := by
    rw [mapError_mapError]
    exact congrArg d.rule.mapError (funext (Rejection.located_here path))
  rw [buildFrom, build, Spec.buildAllFrom_eq path .child 0 hc, Spec.buildGroupsFrom_eq path 0 hg, ← hrule]
  simp only [mapError_bind]
  rfl

theorem Group.ofMembersFrom_eq_of_below (path label : String) {members : Json}
    (h : ∀ items, members = .array items → ∀ v ∈ items, (Part.node v).Carried) :
    ofMembersFrom path label members = (ofMembers label members).mapError (Rejection.located path) := by
  cases members with
  | array items =>
    rw [ofMembersFrom, ofMembers, Spec.buildAllFrom_eq path (.member label) 0 (h items rfl), mapError_bind]
    rfl
  | _ =>
    rw [ofMembersFrom, ofMembers]
    · exact congrArg Except.error (Rejection.located_here path _).symm
    all_goals
      intro _ hitems
      cases hitems

theorem Group.buildFrom_eq_of_below (path : String) {v : Json}
    (h : ∀ label items, v = .array [.string label, .array items] → ∀ m ∈ items, (Part.node m).Carried) :
    buildFrom path v = (build v).mapError (Rejection.located path) := by
  unfold buildFrom
  split
  · rename_i label members
    rw [build]
    refine ofMembersFrom_eq_of_below path label ?_
    rintro items rfl
    exact h label items rfl
  all_goals
    rw [build]
    · exact congrArg Except.error (Rejection.located_here path _).symm
    all_goals assumption

/-- The parts below have longer paths, so the induction is for all paths at once. -/
theorem Part.carried (p : Part) : p.Carried := by
  induction p using induction_below with
  | part p ih =>
    cases p with
    | node v =>
      intro path
      rw [Spec.buildFrom_eq_bind, Spec.build_eq_bind]
      cases hd : Declaration.ofJson v with
      | error e => exact congrArg Except.error (Rejection.located_here path (.malformed e)).symm
      | ok d =>
        obtain ⟨-, rfl⟩ := Declaration.ofJson_eq_ok_iff.mp hd
        refine Declaration.buildFrom_eq_of_below path ?_ ?_
        · intro c hc
          obtain ⟨i, hi⟩ := List.mem_iff_getElem?.mp hc
          exact ih (.child i) (.node c) (mem_below_node.mpr (Or.inl ⟨i, c, hi, rfl, rfl⟩))
        · intro g hg
          obtain ⟨i, hi⟩ := List.mem_iff_getElem?.mp hg
          exact ih (.group i) (.group g) (mem_below_node.mpr (Or.inr ⟨i, g, hi, rfl, rfl⟩))
    | group v =>
      intro path
      refine Group.buildFrom_eq_of_below path ?_
      intro label items hv m hm
      obtain ⟨i, hi⟩ := List.mem_iff_getElem?.mp hm
      exact ih (.member label i) (.node m) (mem_below_group.mpr ⟨label, items, hv, i, m, hi, rfl, rfl⟩)

/-- The path carried down gives what the base set before the steps gives. -/
theorem Declaration.buildFrom_eq (path : String) (d : Declaration) :
    d.buildFrom path = d.build.mapError (Rejection.located path) :=
  buildFrom_eq_of_below path (fun v _ => Part.carried (.node v)) fun v _ => Part.carried (.group v)

theorem Declaration.buildFrom_eq_under {path : String} (h : path ≠ "") (d : Declaration) :
    d.buildFrom path = (d.buildFrom "").mapError (Located.under path) := by
  rw [buildFrom_eq, buildFrom_eq, mapError_mapError]
  exact congrArg d.build.mapError (funext (Rejection.located_eq_under h))

/-! ## From the root -/

theorem Spec.ofJsonLocated_eq (v : Json) : ofJsonLocated v = (ofJson v).mapError (Rejection.located "") := by
  rw [ofJsonLocated, ofJson, map_mapError, Part.carried (.node v)]

theorem Group.ofJsonLocated_eq (label : String) (members : Json) :
    ofJsonLocated label members = (ofJson label members).mapError (Rejection.located "") := by
  rw [ofJsonLocated, ofJson, map_mapError,
    Group.ofMembersFrom_eq_of_below "" label fun _ _ v _ => Part.carried (.node v)]

/-- The description of a root with nothing but one group. -/
def Json.soleGroup (label : String) (members : Json) : Json :=
  .object [("groups", .array [.array [.string label, members]])]

theorem Declaration.build_of_group (label : String) (members : Json) :
    ({ groups := [.array [.string label, members]] } : Declaration).build =
      ((Group.ofMembers label members).mapError (.under (.group 0))).map fun g => { groups := [g] } := by
  have htype : .untyped = TypeTag.ofText (Text.trim "") := by decide +kernel
  have hdeclares : ({ groups := [.array [.string label, members]] } : Declaration).Declares {} :=
    { type := htype, absent := nofun, label := rfl, stack := rfl, process := rfl, included := rfl, excluded := rfl,
      ordinal := rfl, terminal := rfl }
  rw [build, hdeclares.rule_eq, Spec.buildAll, Spec.buildGroups, Spec.buildGroups, Group.build]
  cases Group.ofMembers label members <;> rfl

theorem Spec.ofJson_soleGroup (label : String) (members : Json) :
    ofJson (.soleGroup label members) =
      ((Group.ofJson label members).mapError (.under (.group 0))).map fun g => { groups := [g] } := by
  have hd : Declaration.ofJson (.soleGroup label members) = .ok { groups := [.array [.string label, members]] } := rfl
  have hbuild : build (.soleGroup label members) =
      ({ groups := [.array [.string label, members]] } : Declaration).build := by
    rw [build_eq_bind, hd]
    rfl
  rw [ofJson, hbuild, Declaration.build_of_group, Group.ofJson]
  cases Group.ofMembers label members with
  | error r => rfl
  | ok g =>
    show Except.ok (refresh _) = _
    rw [refresh_eq]
    rfl

/-- The group's own path is behind the step to it. -/
theorem Spec.ofJsonLocated_soleGroup (label : String) (members : Json) :
    ofJsonLocated (.soleGroup label members) =
      ((Group.ofJsonLocated label members).mapError (.under "groups[0]")).map fun g => { groups := [g] } := by
  have hstep : ∀ r : Rejection, (r.under (.group 0)).located "" = (r.located "").under "groups[0]" := by
    intro r
    rw [Rejection.located_under, ← Rejection.located_eq_under (by decide)]
    rfl
  rw [ofJsonLocated_eq, ofJson_soleGroup, map_mapError, mapError_mapError, Group.ofJsonLocated_eq, mapError_mapError,
    funext hstep]

/-- The path carried down gives for nodes, whole descriptions and groups what the base set
    before the steps gives. A translation from a path accepts what the one from none does,
    with the same tree, and tells the same problem, one without a path at that path and any
    other at the path with its own behind a dot. A group described by itself is judged like
    the only group of a root, whose problems have `groups[0]` for that path. -/
theorem rejections_compose :
    ((∀ (d : Declaration) path, d.buildFrom path = d.build.mapError (Rejection.located path)) ∧
      (∀ v, Spec.ofJsonLocated v = (Spec.ofJson v).mapError (Rejection.located "")) ∧
      ∀ label members,
        Group.ofJsonLocated label members = (Group.ofJson label members).mapError (Rejection.located "")) ∧
    (∀ (d : Declaration) path, path ≠ "" →
      (∀ s, d.buildFrom path = .ok s ↔ d.buildFrom "" = .ok s) ∧
      (∀ problem, d.buildFrom "" = .error ⟨none, problem⟩ → d.buildFrom path = .error ⟨some path, problem⟩) ∧
      ∀ inner problem, d.buildFrom "" = .error ⟨some inner, problem⟩ →
        d.buildFrom path = .error ⟨some (path ++ "." ++ inner), problem⟩) ∧
    ∀ label members,
      (∀ g, Group.ofJsonLocated label members = .ok g →
        ∃ s, Spec.ofJsonLocated (.soleGroup label members) = .ok s ∧ s.groups = [g]) ∧
      (∀ s, Spec.ofJsonLocated (.soleGroup label members) = .ok s →
        ∃ g, Group.ofJsonLocated label members = .ok g ∧ s.groups = [g]) ∧
      (∀ problem, Group.ofJsonLocated label members = .error ⟨none, problem⟩ →
        Spec.ofJsonLocated (.soleGroup label members) = .error ⟨some "groups[0]", problem⟩) ∧
      ∀ inner problem, Group.ofJsonLocated label members = .error ⟨some inner, problem⟩ →
        Spec.ofJsonLocated (.soleGroup label members) = .error ⟨some ("groups[0]." ++ inner), problem⟩ := by
  refine ⟨⟨fun d path => d.buildFrom_eq path, Spec.ofJsonLocated_eq, Group.ofJsonLocated_eq⟩, ?_, ?_⟩
  · intro d path hp
    rw [d.buildFrom_eq_under hp]
    refine ⟨fun s => mapError_eq_ok_iff, ?_, ?_⟩
    · intro problem h
      rw [h]
      rfl
    · intro inner problem h
      rw [h]
      rfl
  · intro label members
    have hsole := Spec.ofJsonLocated_soleGroup label members
    rw [hsole]
    refine ⟨?_, ?_, ?_, ?_⟩
    · intro g h
      rw [h]
      exact ⟨_, rfl, rfl⟩
    · intro s h
      obtain ⟨g, hg, rfl⟩ := map_eq_ok_iff.mp h
      exact ⟨g, mapError_eq_ok_iff.mp hg, rfl⟩
    · intro problem h
      rw [h]
      rfl
    · intro inner problem h
      rw [h]
      rfl

/-- The path of a member goes behind any other with its dots and all. A group without a name
    whose members are no list has no path of its own. -/
theorem rejections_compose_in_a_dotted_group :
    let d : Declaration := { groups := [.array [.string "a.b", .array [.null]]] }
    let problem : Problem := .malformed (.wrongType .null .node)
    d.buildFrom "" = .error ⟨some "groups[0].a.b[0]", problem⟩ ∧
      d.buildFrom "in.json" = .error ⟨some "in.json.groups[0].a.b[0]", problem⟩ ∧
      Group.ofJsonLocated "" .null = .error ⟨none, .groupMembers ""⟩ ∧
      Spec.ofJsonLocated (.soleGroup "" .null) = .error ⟨some "groups[0]", .groupMembers ""⟩ := by
  intro d problem
  obtain ⟨⟨hsteps, -, -⟩, hpaths, hgroups⟩ := rejections_compose
  have hbuild : d.build = .error ⟨[.group 0, .member "a.b" 0], problem⟩ := by
    rw [Declaration.build_of_group, Group.ofMembers, Spec.buildAll, Spec.build_eq_bind]
    rfl
  have hd : d.buildFrom "" = .error ⟨some "groups[0].a.b[0]", problem⟩ := by
    rw [hsteps, hbuild]
    with_unfolding_all rfl
  have hgroup : Group.ofJsonLocated "" .null = .error ⟨none, .groupMembers ""⟩ := by
    rw [Group.ofJsonLocated, Group.ofMembersFrom]
    · rfl
    · intro _ hitems
      cases hitems
  obtain ⟨-, -, hinner⟩ := hpaths d "in.json" (by decide)
  obtain ⟨-, -, hbare, -⟩ := hgroups "" .null
  exact ⟨hd, hinner _ _ hd, hgroup, hbare _ hgroup⟩

end Harvest
