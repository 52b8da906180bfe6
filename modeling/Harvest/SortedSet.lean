/-
  Harvest.SortedSet — finite sets as their elements in ascending order.

  A set is a strictly ascending list, so two sets with the same elements are equal
  (`SortedSet.ext`) and a listing of a set needs no sorting.
-/

namespace Harvest

structure SortedSet (α : Type) [LT α] where
  toList : List α
  ascending : toList.Pairwise (· < ·)

namespace SortedSet

variable {α : Type} [LT α]

def empty : SortedSet α := ⟨[], .nil⟩

instance : Inhabited (SortedSet α) := ⟨empty⟩

instance [DecidableEq α] : DecidableEq (SortedSet α) := fun a b =>
  decidable_of_iff (a.toList = b.toList) ⟨fun h => by cases a; cases b; cases h; rfl, fun h => by rw [h]⟩

instance : Membership α (SortedSet α) := ⟨fun s a => a ∈ s.toList⟩

instance [DecidableEq α] (a : α) (s : SortedSet α) : Decidable (a ∈ s) := inferInstanceAs (Decidable (a ∈ s.toList))

def isEmpty (s : SortedSet α) : Bool := s.toList.isEmpty

/-! ## Insertion -/

variable [DecidableLT α]

def insertInto (a : α) : List α → List α
  | [] => [a]
  | b :: rest => if a < b then a :: b :: rest else if b < a then b :: insertInto a rest else b :: rest

variable [LE α] [Std.IsLinearOrder α] [Std.LawfulOrderLT α]

theorem mem_insertInto {a c : α} {l : List α} : c ∈ insertInto a l ↔ c = a ∨ c ∈ l := by
  induction l with
  | nil => simp [insertInto]
  | cons b rest ih =>
    unfold insertInto
    split
    · simp
    · split
      · simp only [List.mem_cons, ih]; grind
      · have : a = b := by grind
        subst this; simp

theorem ascending_insertInto {a : α} {l : List α} (h : l.Pairwise (· < ·)) : (insertInto a l).Pairwise (· < ·) := by
  induction l with
  | nil => simp [insertInto]
  | cons b rest ih =>
    unfold insertInto
    have ⟨hb, hr⟩ := List.pairwise_cons.mp h
    split
    · refine List.pairwise_cons.mpr ⟨fun c hc => ?_, h⟩
      rcases List.mem_cons.mp hc with rfl | hc
      · assumption
      · have := hb c hc; grind
    · split
      · refine List.pairwise_cons.mpr ⟨fun c hc => ?_, ih hr⟩
        rcases mem_insertInto.mp hc with rfl | hc
        · assumption
        · exact hb c hc
      · exact h

def insert (s : SortedSet α) (a : α) : SortedSet α := ⟨insertInto a s.toList, ascending_insertInto s.ascending⟩

theorem mem_insert {s : SortedSet α} {a c : α} : c ∈ s.insert a ↔ c = a ∨ c ∈ s := mem_insertInto

omit [DecidableLT α] in
theorem eq_of_ascending {l m : List α} (hl : l.Pairwise (· < ·)) (hm : m.Pairwise (· < ·))
    (h : ∀ c, c ∈ l ↔ c ∈ m) : l = m := by
  induction l generalizing m with
  | nil => exact (List.eq_nil_iff_forall_not_mem.mpr fun c hc => List.not_mem_nil ((h c).mpr hc)).symm
  | cons a l ih =>
    cases m with
    | nil => exact absurd ((h a).mp (List.mem_cons_self ..)) List.not_mem_nil
    | cons b m =>
      have ⟨ha, hl'⟩ := List.pairwise_cons.mp hl
      have ⟨hb, hm'⟩ := List.pairwise_cons.mp hm
      simp only [List.mem_cons] at h
      have e : a = b := by
        rcases (h a).mp (.inl rfl) with e | hma
        · exact e
        rcases (h b).mpr (.inl rfl) with e | hlb
        · exact e.symm
        have := hb a hma
        have := ha b hlb
        grind
      subst e
      refine congrArg (a :: ·) (ih hl' hm' fun c => ⟨fun hc => ?_, fun hc => ?_⟩)
      · have := ha c hc
        rcases (h c).mp (.inr hc) with rfl | hc
        · grind
        · exact hc
      · have := hb c hc
        rcases (h c).mpr (.inr hc) with rfl | hc
        · grind
        · exact hc

omit [DecidableLT α] in
/-- Sets with the same elements are equal. -/
theorem ext {s t : SortedSet α} (h : ∀ c, c ∈ s ↔ c ∈ t) : s = t := by
  obtain ⟨l, hl⟩ := s
  obtain ⟨m, hm⟩ := t
  have e : l = m := eq_of_ascending hl hm h
  subst e; rfl

end SortedSet

end Harvest
