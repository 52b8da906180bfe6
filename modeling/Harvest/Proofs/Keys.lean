/-
  Harvest.Proofs.Keys — sets of keys, key by key.

  A set of keys is known by the keys in it (`Keys.ext`), and the keys that a filter has come
  down to which entries each of them fits (`Keys.covers_iff`). So a filter accepts an entry
  if no excluded key fits it and, unless there are no included keys at all, one of these
  does (`Filter.accepts_iff`).
-/

import Harvest.Filter

namespace Harvest

/-- Whether the key names the entry at a position with or without a name. -/
def Key.Fits (key : Key) (position : Nat) (name : Option String) : Prop :=
  match key with
  | .position p => p.toNat = position
  | .name s => name = some s

namespace Keys

instance : Membership Key Keys where
  mem k key := match key with
    | .position p => p ∈ k.positions
    | .name s => s ∈ k.names

theorem position_mem_iff {k : Keys} {p : UInt64} : .position p ∈ k ↔ p ∈ k.positions.toList := Iff.rfl

theorem name_mem_iff {k : Keys} {s : String} : .name s ∈ k ↔ s ∈ k.names.toList := Iff.rfl

/-- Sets of the same keys are equal. -/
theorem ext {k k' : Keys} (h : ∀ key, key ∈ k ↔ key ∈ k') : k = k' := by
  obtain ⟨positions, names⟩ := k
  obtain ⟨positions', names'⟩ := k'
  have hp : positions = positions' := SortedSet.ext fun p => h (.position p)
  have hn : names = names' := SortedSet.ext fun s => h (.name s)
  rw [hp, hn]

theorem isEmpty_iff {k : Keys} : k.isEmpty ↔ ∀ key, key ∉ k := by
  simp only [isEmpty, SortedSet.isEmpty, Bool.and_eq_true, List.isEmpty_iff, List.eq_nil_iff_forall_not_mem]
  constructor
  · rintro ⟨hp, hn⟩ (p | s)
    · exact hp p
    · exact hn s
  · intro h
    exact ⟨fun p => h (.position p), fun s => h (.name s)⟩

theorem mem_insert {k : Keys} {key other : Key} : other ∈ k.insert key ↔ other = key ∨ other ∈ k := by
  cases key with
  | position p =>
    cases other with
    | position q =>
      rw [Key.position.injEq]
      exact SortedSet.mem_insert
    | name s => simp [insert, name_mem_iff]
  | name s =>
    cases other with
    | position q => simp [insert, position_mem_iff]
    | name t =>
      rw [Key.name.injEq]
      exact SortedSet.mem_insert

theorem mem_foldl_insert {l : List Key} {k : Keys} {key : Key} : key ∈ l.foldl insert k ↔ key ∈ l ∨ key ∈ k := by
  induction l generalizing k with
  | nil => simp
  | cons a l ih => rw [List.foldl_cons, ih, mem_insert, List.mem_cons, or_left_comm, or_assoc]

theorem covers_iff {k : Keys} {position : Nat} {name : Option String} :
    k.covers position name ↔ ∃ key ∈ k, key.Fits position name := by
  simp only [covers, Bool.or_eq_true, List.any_eq_true, beq_iff_eq, Option.any_eq_true, List.contains_iff_mem]
  constructor
  · rintro (⟨p, hp, hf⟩ | ⟨s, rfl, hs⟩)
    · exact ⟨.position p, hp, hf⟩
    · exact ⟨.name s, hs, rfl⟩
  · rintro ⟨p | s, hk, hf⟩
    · exact Or.inl ⟨p, hk, hf⟩
    · exact Or.inr ⟨s, hf, hk⟩

end Keys

theorem Filter.accepts_iff {f : Filter} {position : Nat} {name : Option String} :
    f.accepts position name ↔ ((∀ key, key ∉ f.included) ∨ ∃ key ∈ f.included, key.Fits position name) ∧
      ∀ key ∈ f.excluded, ¬ key.Fits position name := by
  have hex : f.excluded.covers position name = false ↔ ∀ key ∈ f.excluded, ¬ key.Fits position name := by
    rw [← Bool.not_eq_true, Keys.covers_iff]
    simp only [not_exists, not_and]
  simp only [accepts, Bool.and_eq_true, Bool.or_eq_true, Bool.not_eq_true', Keys.isEmpty_iff, Keys.covers_iff, hex]

end Harvest
