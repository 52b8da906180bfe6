/-
  Harvest.Proofs.Checks — the checks that a description passes, part by part.

  The parts of a description are its nodes and its declarations of groups. A part has
  checks of its own, one after the other (`Part.checks`), and parts below it, one after the
  other (`Part.below`): a node its children and then its groups, a group its members. A
  translation refuses a part for the first of its own checks that fails, or else for what
  it refuses first below the part (`Part.refusal?_eq`). Nothing else is refused.
-/

import Harvest.Proofs.Fields
import Mathlib.Algebra.Group.Int.Defs
import Mathlib.Data.List.DropRight

namespace Harvest

/-! ## What a result fails with -/

section

variable {ε ε' α β : Type}

def errorOf? : Except ε α → Option ε
  | .ok _ => none
  | .error e => some e

theorem errorOf?_eq_none_iff {x : Except ε α} : errorOf? x = none ↔ ∃ a, x = .ok a := by
  cases x <;> simp [errorOf?]

theorem errorOf?_mapError (f : ε → ε') (x : Except ε α) : errorOf? (x.mapError f) = (errorOf? x).map f := by
  cases x <;> rfl

theorem errorOf?_map (f : α → β) (x : Except ε α) : errorOf? (x.map f) = errorOf? x := by cases x <;> rfl

/-- What comes second can fail only where what comes first does not. -/
theorem errorOf?_bind {x : Except ε α} {f : α → Except ε β} {o : Option ε} (h : ∀ a, errorOf? (f a) = o) :
    errorOf? (x >>= f) = (errorOf? x).or o := by
  cases x with
  | error e => rfl
  | ok a => exact h a

theorem errorOf?_elim (o : Option β) (a : α) (f : β → Except ε α) :
    errorOf? (o.elim (.ok a) f) = o.bind fun b => errorOf? (f b) := by
  cases o <;> rfl

/-- A list made one by one fails where the first of its items does. -/
theorem errorOf?_cons (x : Except ε α) (rest : Except ε (List α)) :
    errorOf? (do let a ← x; let l ← rest; pure (a :: l)) = (errorOf? x).or (errorOf? rest) := by
  have hrest : ∀ a, errorOf? (do let l ← rest; pure (a :: l)) = errorOf? rest := by
    intro a
    cases rest <;> rfl
  exact errorOf?_bind hrest

theorem findSome?_cons_or (f : α → Option β) (a : α) (l : List α) :
    (a :: l).findSome? f = (f a).or (l.findSome? f) := by
  rw [List.findSome?_cons]
  cases f a <;> rfl

theorem errorOf?_mapM (f : α → Except ε β) (l : List α) :
    errorOf? (l.mapM f) = l.findSome? fun a => errorOf? (f a) := by
  induction l with
  | nil => rfl
  | cons a l ih => rw [List.mapM_cons, errorOf?_cons, ih, findSome?_cons_or]

end

/-! ## Words -/

/-- Nothing is left to trim at either end. -/
theorem Text.trimChars_trimChars (cs : List Char) : trimChars (trimChars cs) = trimChars cs := by
  have htrim : ∀ l, trimChars l = (l.dropWhile isBlank).rdropWhile isBlank := fun _ => rfl
  have hstart : (trimChars cs).dropWhile isBlank = trimChars cs := by
    cases hr : trimChars cs with
    | nil => rfl
    | cons c rest =>
      have hprefix : trimChars cs <+: cs.dropWhile isBlank := List.rdropWhile_prefix isBlank _
      rw [hr] at hprefix
      obtain ⟨after, ha⟩ := hprefix
      have hc := List.head?_dropWhile_not isBlank cs
      rw [← ha] at hc
      have hc : isBlank c = false := hc
      simp [hc]
  rw [htrim (trimChars cs), hstart, htrim cs, List.rdropWhile_idempotent]

theorem Text.trim_trim (s : String) : trim (trim s) = trim s := by
  simp [trim, trimChars_trimChars]

theorem Text.word_empty : word "" = "" := by decide +kernel

/-- Blanks and case apart, only one word names the absent node. -/
theorem TypeTag.ofText_trim_eq_nil_iff (s : String) : ofText (Text.trim s) = .nil ↔ Text.word s = "nil" := by
  have hw : Text.word (Text.trim s) = Text.word s := by rw [Text.word, Text.trim_trim, Text.word]
  unfold ofText
  rw [Text.trim_trim, hw]
  by_cases he : Text.trim s = ""
  · have hword : Text.word s = "" := by rw [← hw, he, Text.word_empty]
    have hne : Text.word s ≠ "nil" := by simp [hword]
    simp [he, hne]
  · by_cases hn : Text.word s = "nil" <;> simp [he, hn]

/-! ## Keywords -/

section

variable {α : Type} {words : List (String × α)} {unknown : String → Problem} {s : String}

theorem readKeyword_eq_ok_iff {a : α} :
    readKeyword words unknown s = .ok a ↔ words.lookup (Text.word s) = some a := by
  unfold readKeyword
  cases words.lookup (Text.word s) <;> simp

theorem errorOf?_readKeyword :
    errorOf? (readKeyword words unknown s) = if Text.word s ∈ words.map (·.1) then none else some (unknown s) := by
  unfold readKeyword
  cases hw : words.lookup (Text.word s) with
  | none =>
    rw [if_neg (lookup_eq_none_iff_notMem.mp hw)]
    rfl
  | some a =>
    rw [if_pos (List.mem_map_of_mem (mem_of_lookup_eq_some hw))]
    rfl

end

/-! ## The checks of a node -/

namespace Json

/-- Whether a filter may have the document for a key: a text, or a position of 64 bits. -/
def isKey : Json → Bool
  | .string _ => true
  | .int n => 0 ≤ n && n < 2 ^ 64
  | _ => false

def shapeProblem? (v : Json) : Option Problem := (errorOf? (Declaration.ofJson v)).map .malformed

/-- Content at an absent node. -/
def nilProblem? (v : Json) : Option Problem :=
  if Text.word ((v.wordAt? .type).getD "") = "nil" then v.declared.nilContent?.map .nilContent else none

/-- A field whose word, case and blanks apart, is none of those it may be. -/
def wordProblem? (f : Field) (words : List String) (problem : String → Problem) (v : Json) : Option Problem :=
  (v.wordAt? f).bind fun s => if Text.word s ∈ words then none else some (problem s)

def stackWords : List String := ["stack", "spread", "auto"]

def processWords : List String := ["asis", "paste", "none"]

/-- The first entry of a filter that is no key. -/
def keyProblem? (axis : Axis) (entries : List Json) : Option Problem :=
  entries.findSome? fun x => if x.isKey then none else some (.badKey axis x)

end Json

theorem Key.errorOf?_ofJson (axis : Axis) (x : Json) :
    errorOf? (ofJson axis x) = if x.isKey then none else some (.badKey axis x) := by
  cases x with
  | string s => rfl
  | int n =>
    have hn : (0 ≤ n ∧ n.toNat < UInt64.size) ↔ (Json.int n).isKey := by
      have hsize : UInt64.size = 2 ^ 64 := rfl
      simp only [Json.isKey, Bool.and_eq_true, decide_eq_true_eq, hsize]
      omega
    simp only [ofJson, ← hn]
    split <;> rfl
  | _ => rfl

theorem Keys.errorOf?_ofJson (axis : Axis) (entries : List Json) :
    errorOf? (ofJson axis entries) = Json.keyProblem? axis entries := by
  unfold ofJson Json.keyProblem?
  rw [errorOf?_bind (o := none) fun keys => rfl, Option.or_none, errorOf?_mapM]
  simp only [Key.errorOf?_ofJson]

/-- A rule is refused for what stands first in this order. -/
theorem Declaration.errorOf?_rule (v : Json) :
    errorOf? v.declared.rule =
      v.nilProblem?.or ((v.wordProblem? .stack Json.stackWords .unknownStack).or
        ((v.wordProblem? .process Json.processWords .unknownProcess).or
          ((Json.keyProblem? .included (v.listAt .included)).or (Json.keyProblem? .excluded (v.listAt .excluded))))) := by
  have hstack : errorOf? (v.declared.stack.elim (.ok .auto) Stack.ofKeyword) =
      v.wordProblem? .stack Json.stackWords .unknownStack := by
    simp only [errorOf?_elim, Stack.ofKeyword, errorOf?_readKeyword]
    rfl
  have hprocess : errorOf? (v.declared.process.elim (.ok .none) Treatment.ofKeyword) =
      v.wordProblem? .process Json.processWords .unknownProcess := by
    simp only [errorOf?_elim, Treatment.ofKeyword, errorOf?_readKeyword]
    rfl
  have hrest : errorOf? (do
      let layout ← v.declared.stack.elim (.ok .auto) Stack.ofKeyword
      let process ← v.declared.process.elim (.ok .none) Treatment.ofKeyword
      let included ← Keys.ofJson .included v.declared.included
      let excluded ← Keys.ofJson .excluded v.declared.excluded
      return ({ type := .ofText (Text.trim (v.declared.type.getD "")), label := v.declared.label, stack := layout,
                process, filter := ⟨included, excluded⟩, ordinal := v.declared.ordinal } : Rule)) = _ :=
    errorOf?_bind fun _ => errorOf?_bind fun _ => errorOf?_bind fun _ => errorOf?_bind (o := none) fun _ => rfl
  rw [hstack, hprocess, Keys.errorOf?_ofJson, Keys.errorOf?_ofJson, Option.or_none] at hrest
  have hnil : TypeTag.ofText (Text.trim (v.declared.type.getD "")) = .nil ↔
      Text.word ((v.wordAt? .type).getD "") = "nil" := TypeTag.ofText_trim_eq_nil_iff _
  unfold Declaration.rule Json.nilProblem?
  by_cases hn : Text.word ((v.wordAt? .type).getD "") = "nil"
  · cases hc : v.declared.nilContent? with
    | some content =>
      simp only [hnil.mpr hn, hn, if_true]
      rfl
    | none =>
      simp only [hn, if_true, hnil.mpr hn] at hrest ⊢
      exact hrest
  · simp only [hn, if_false, hnil]
    exact hrest

/-! ## The checks of a group -/

namespace Json

def listProblem? : Json → Option Problem
  | .array _ => none
  | v => some (.groupShape v)

def arityProblem? : Json → Option Problem
  | .array items => if items.length = 2 then none else some (.groupArity items.length)
  | _ => none

def labelProblem? : Json → Option Problem
  | .array [.string _, _] => none
  | .array [x, _] => some (.groupLabel x)
  | _ => none

def membersProblem? : Json → Option Problem
  | .array [.string _, .array _] => none
  | .array [.string label, _] => some (.groupMembers label)
  | _ => none

end Json

/-! ## Parts -/

inductive Part where
  | node (v : Json)
  | group (v : Json)

namespace Part

/-- The checks of the part itself, in their order. -/
def checks : Part → List (Option Problem)
  | node v =>
    [v.shapeProblem?, v.nilProblem?, v.wordProblem? .stack Json.stackWords .unknownStack,
      v.wordProblem? .process Json.processWords .unknownProcess, Json.keyProblem? .included (v.listAt .included),
      Json.keyProblem? .excluded (v.listAt .excluded)]
  | group v => [v.listProblem?, v.arityProblem?, v.labelProblem?, v.membersProblem?]

/-- What is wrong with the part itself: the first of its checks that fails. -/
def problem? (p : Part) : Option Problem := p.checks.findSome? id

/-- The parts directly below a part, each with the step to it. -/
def below : Part → List (Step × Part)
  | node v =>
    (v.listAt .children).zipIdx.map (fun c => (.child c.2, .node c.1)) ++
      (v.listAt .groups).zipIdx.map fun g => (.group g.2, .group g.1)
  | group (.array [.string label, .array members]) => members.zipIdx.map fun m => (.member label m.2, .node m.1)
  | group _ => []

/-- How many values the part holds. -/
def size : Part → Nat
  | node v => v.size
  | group v => v.size

/-- What a translation refuses the part for. -/
def refusal? : Part → Option Rejection
  | node v => errorOf? (Spec.build v)
  | group v => errorOf? (Group.build v)

/-- What is refused at a part below, seen from the part. -/
def refusalBelow? (b : Step × Part) : Option Rejection := b.2.refusal?.map (.under b.1)

theorem mem_below_node {v : Json} {step : Step} {q : Part} :
    (step, q) ∈ (node v).below ↔
      (∃ i c, (v.listAt .children)[i]? = some c ∧ step = .child i ∧ q = node c) ∨
        ∃ i g, (v.listAt .groups)[i]? = some g ∧ step = .group i ∧ q = group g := by
  simp only [below, List.mem_append, List.mem_map, Prod.exists, Prod.mk.injEq, List.mk_mem_zipIdx_iff_getElem?]
  constructor
  · rintro (⟨c, i, hc, rfl, rfl⟩ | ⟨g, i, hg, rfl, rfl⟩)
    · exact Or.inl ⟨i, c, hc, rfl, rfl⟩
    · exact Or.inr ⟨i, g, hg, rfl, rfl⟩
  · rintro (⟨i, c, hc, rfl, rfl⟩ | ⟨i, g, hg, rfl, rfl⟩)
    · exact Or.inl ⟨c, i, hc, rfl, rfl⟩
    · exact Or.inr ⟨g, i, hg, rfl, rfl⟩

theorem mem_below_group {v : Json} {step : Step} {q : Part} :
    (step, q) ∈ (group v).below ↔
      ∃ label members, v = .array [.string label, .array members] ∧
        ∃ i m, members[i]? = some m ∧ step = .member label i ∧ q = node m := by
  constructor
  · intro h
    unfold below at h
    split at h
    · rename_i hv
      cases hv
    · rename_i label members hv
      cases hv
      obtain ⟨⟨m, i⟩, hm, he⟩ := List.mem_map.mp h
      cases he
      exact ⟨label, members, rfl, i, m, List.mk_mem_zipIdx_iff_getElem?.mp hm, rfl, rfl⟩
    · cases h
  · rintro ⟨label, members, rfl, i, m, hm, rfl, rfl⟩
    exact List.mem_map.mpr ⟨(m, i), List.mk_mem_zipIdx_iff_getElem?.mpr hm, rfl⟩

/-- A part below holds fewer values. -/
theorem size_lt_of_mem_below {p q : Part} {step : Step} (h : (step, q) ∈ p.below) : q.size < p.size := by
  cases p with
  | node v =>
    rcases mem_below_node.mp h with ⟨i, c, hc, -, rfl⟩ | ⟨i, g, hg, -, rfl⟩
    · exact Json.size_lt_of_mem_listAt (List.mem_of_getElem? hc)
    · exact Json.size_lt_of_mem_listAt (List.mem_of_getElem? hg)
  | group v =>
    obtain ⟨label, members, rfl, i, m, hm, -, rfl⟩ := mem_below_group.mp h
    have hsize := Json.size_le_sizeAll (List.mem_of_getElem? hm)
    simp only [size, Json.size, Json.sizeAll]
    omega

@[elab_as_elim]
theorem induction_below {motive : Part → Prop} (part : ∀ p, (∀ step q, (step, q) ∈ p.below → motive q) → motive p)
    (p : Part) : motive p :=
  part p fun _ q h =>
    have := size_lt_of_mem_below h
    induction_below part q
termination_by p.size

end Part

/-! ## A translation, part by part -/

theorem Spec.errorOf?_buildAll (step : Nat → Step) (i : Nat) (l : List Json) :
    errorOf? (buildAll step i l) =
      ((l.zipIdx i).map fun c => (step c.2, Part.node c.1)).findSome? Part.refusalBelow? := by
  induction l generalizing i with
  | nil => rw [buildAll]; rfl
  | cons v l ih =>
    rw [buildAll, errorOf?_cons, errorOf?_mapError, ih, List.zipIdx_cons, List.map_cons, findSome?_cons_or]
    rfl

theorem Spec.errorOf?_buildGroups (i : Nat) (l : List Json) :
    errorOf? (buildGroups i l) =
      ((l.zipIdx i).map fun g => (Step.group g.2, Part.group g.1)).findSome? Part.refusalBelow? := by
  induction l generalizing i with
  | nil => rw [buildGroups]; rfl
  | cons v l ih =>
    rw [buildGroups, errorOf?_cons, errorOf?_mapError, ih, List.zipIdx_cons, List.map_cons, findSome?_cons_or]
    rfl

theorem Spec.errorOf?_build (v : Json) :
    errorOf? (build v) = ((Part.node v).problem?.map .here).or ((Part.node v).below.findSome? Part.refusalBelow?) := by
  rw [build]
  split
  · rename_i e hd
    have hp : (Part.node v).problem? = some (.malformed e) := by
      simp [Part.problem?, Part.checks, Json.shapeProblem?, hd, errorOf?]
    rw [hp]
    rfl
  · rename_i d hd
    obtain ⟨-, rfl⟩ := Declaration.ofJson_eq_ok_iff.mp hd
    have hp : (Part.node v).problem? = errorOf? v.declared.rule := by
      rw [Declaration.errorOf?_rule, Part.problem?, Part.checks]
      simp only [findSome?_cons_or, List.findSome?_nil, Option.or_none, Json.shapeProblem?, hd]
      rfl
    have hbuild : errorOf? v.declared.build = (errorOf? (v.declared.rule.mapError Rejection.here)).or
        ((errorOf? (buildAll .child 0 v.declared.children)).or (errorOf? (buildGroups 0 v.declared.groups))) := by
      rw [Declaration.build, ← Option.or_none (o := errorOf? (buildGroups 0 v.declared.groups))]
      exact errorOf?_bind fun _ => errorOf?_bind fun _ => errorOf?_bind fun _ => rfl
    rw [hbuild, errorOf?_mapError, hp, errorOf?_buildAll, errorOf?_buildGroups, Part.below, List.findSome?_append]
    rfl

theorem Group.errorOf?_build (v : Json) :
    errorOf? (build v) = ((Part.group v).problem?.map .here).or ((Part.group v).below.findSome? Part.refusalBelow?) := by
  unfold build
  split
  · rename_i label members
    unfold ofMembers
    split
    · rename_i items
      rw [errorOf?_bind (o := none) fun _ => rfl, Option.or_none, Spec.errorOf?_buildAll]
      rfl
    · rename_i hne
      have hp : (Part.group (.array [.string label, members])).problem? = some (.groupMembers label) := by
        have hm : Json.membersProblem? (.array [.string label, members]) = some (.groupMembers label) := by
          cases members with
          | array items => exact absurd rfl (hne items)
          | _ => rfl
        simp [Part.problem?, Part.checks, Json.listProblem?, Json.arityProblem?, Json.labelProblem?, hm]
      rw [hp]
      rfl
  · rename_i x members hne
    have hp : (Part.group (.array [x, members])).problem? = some (.groupLabel x) := by
      have hl : Json.labelProblem? (.array [x, members]) = some (.groupLabel x) := by
        cases x with
        | string label => exact absurd rfl (hne label)
        | _ => rfl
      simp [Part.problem?, Part.checks, Json.listProblem?, Json.arityProblem?, hl]
    rw [hp]
    rfl
  · rename_i items _ hne
    have hlen : items.length ≠ 2 := by
      intro h
      obtain ⟨x, members, rfl⟩ := List.length_eq_two.mp h
      exact hne x members rfl
    have hp : (Part.group (.array items)).problem? = some (.groupArity items.length) := by
      simp [Part.problem?, Part.checks, Json.listProblem?, Json.arityProblem?, hlen]
    rw [hp]
    rfl
  · rename_i _ _ hne
    have hp : (Part.group v).problem? = some (.groupShape v) := by
      have hl : v.listProblem? = some (.groupShape v) := by
        cases v with
        | array items => exact absurd rfl (hne items)
        | _ => rfl
      simp [Part.problem?, Part.checks, hl]
    rw [hp]
    rfl

/-- A part is refused for its own first problem, or else for what is refused first of the
    parts below it. -/
theorem Part.refusal?_eq (p : Part) :
    p.refusal? = (p.problem?.map .here).or (p.below.findSome? refusalBelow?) := by
  cases p with
  | node v => exact Spec.errorOf?_build v
  | group v => exact Group.errorOf?_build v

theorem Part.refusal?_eq_none_iff {p : Part} :
    p.refusal? = none ↔ p.problem? = none ∧ ∀ step q, (step, q) ∈ p.below → q.refusal? = none := by
  simp [refusal?_eq p, refusalBelow?]

end Harvest
