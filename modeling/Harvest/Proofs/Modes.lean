/-
  Harvest.Proofs.Modes — strict and lenient matches.

  A strict match and a lenient one do the same up to the first mismatch, which is where
  they part: so a strict match gives what the lenient one turns into when its first
  mismatch counts as a failure.
-/

import Harvest.NamedList
import Harvest.Proofs.Trace

namespace Harvest.Spec

open Event

variable {V : Type}

/-- Where nothing halts a strict walk, it does what a lenient one does. -/
theorem replay_strict {l : List (Event V)} (h : l.findSome? (halt? .strict) = none) (p : Progress V) :
    replay .strict l p = replay .lenient l p := by
  induction l generalizing p with
  | nil => rfl
  | cons e l ih =>
    rw [List.findSome?_cons] at h
    cases he : e.halt? .strict with
    | some halt => rw [he] at h; cases h
    | none =>
      rw [he] at h
      have hlenient : e.halt? .lenient = none := by
        rw [halt?_lenient, (halt?_strict_eq_none_iff.mp he).1]
        rfl
      rw [replay, replay, he, hlenient]
      exact ih h _

variable [Nesting V]

theorem gather_lenient (s : Spec) (v : V) : s.gather .lenient v = (s.gatherLenient v).mapError .stale := by
  rw [gather_eq, gatherLenient_eq, findSome?_halt?_lenient]
  cases (s.trace v).findSome? stale? <;> rfl

theorem gatherStrict_of_gatherLenient {s : Spec} {v : V} {y : Yield V} (h : s.gatherLenient v = .ok y) :
    s.gatherStrict v = y.toExcept.mapError .mismatch := by
  obtain ⟨hs, rfl⟩ := gatherLenient_eq_ok_iff.mp h
  exact gatherStrict_of_no_stale hs

/-- A strict walk that comes to its end met no stale mark and no mismatch. -/
theorem gather_strict_eq_ok {s : Spec} {v : V} {y : Yield V} (h : s.gather .strict v = .ok y) :
    y.mismatches = [] ∧ s.gatherLenient v = .ok y := by
  rw [gather_eq] at h
  cases hl : (s.trace v).findSome? (halt? .strict) with
  | some _ => rw [hl] at h; cases h
  | none =>
    rw [hl] at h
    cases h
    obtain ⟨hs, hm⟩ := of_findSome?_halt?_strict_eq_none hl
    exact ⟨hm, gatherLenient_eq_ok_iff.mpr ⟨hs, rfl⟩⟩

theorem explore_strict_of_complete {s : Spec} {v : V} {y : Yield V} (h : s.gatherLenient v = .ok y)
    (hm : y.mismatches = []) : s.explore .strict v = s.explore .lenient v := by
  obtain ⟨hs, rfl⟩ := gatherLenient_eq_ok_iff.mp h
  rw [explore_eq_replay, explore_eq_replay]
  exact replay_strict (by rw [findSome?_halt?_strict hs, hm]; rfl) {}

theorem gather_strict_of_mismatch {s : Spec} {v : V} {y : Yield V} (h : s.gatherLenient v = .ok y) {m : Mismatch V}
    {rest : List (Mismatch V)} (hm : y.mismatches = m :: rest) : s.gather .strict v = .error (.mismatch m) := by
  obtain ⟨hs, rfl⟩ := gatherLenient_eq_ok_iff.mp h
  rw [gather_eq, findSome?_halt?_strict hs, hm]
  rfl

/-- Where the lenient match comes to a result, the strict one gives its records if
    nothing was skipped and fails with the first mismatch otherwise. A walk that may
    skip never fails with a mismatch; one that may not skipped nothing if it succeeds. -/
theorem strict_agrees_with_lenient (s : Spec) (v : V) :
    (∀ y, s.gatherLenient v = .ok y → s.gatherStrict v = y.toExcept.mapError .mismatch) ∧
      s.gather .lenient v = (s.gatherLenient v).mapError .stale ∧
      (∀ y, s.gather .strict v = .ok y →
        y.mismatches = [] ∧ s.gatherStrict v = .ok y.records ∧ s.gatherLenient v = .ok y) := by
  refine ⟨fun y h => gatherStrict_of_gatherLenient h, gather_lenient s v, ?_⟩
  intro y h
  obtain ⟨hm, hl⟩ := gather_strict_eq_ok h
  exact ⟨hm, by rw [gatherStrict, h]; rfl, hl⟩

/-- The scalar is skipped: strictly the match fails there, and leniently what comes after
    it is put out all the same. -/
theorem strict_agrees_with_lenient_at_a_scalar :
    let leaf : Spec := { label := some "x" }
    let spec : Spec := { children := [{ children := [leaf] }] }
    let v : NamedList := .list [(none, .leaf .null), (some "a", .list [(none, .leaf .null)])]
    ∃ y, spec.gatherLenient v = .ok y ∧ y.records.map (·.entry.hop) = [⟨0, none⟩] ∧
      y.mismatches.map (·.path) = [[⟨0, none⟩]] ∧ spec.gatherStrict v = y.toExcept.mapError .mismatch := by
  intro leaf spec v
  exact ⟨_, rfl, rfl, rfl, (strict_agrees_with_lenient spec v).1 _ rfl⟩

end Harvest.Spec
