/-
  Harvest.Proofs.Unhalted — no match of a refreshed tree ends at a mark.

  A match comes to nothing only at a mark that denies a filter, and refreshing leaves none
  anywhere in the tree: it goes into the groups too, although these do not count for the
  marks above them. So a match of a refreshed tree ends as it should, whatever the value,
  in either mode (`Fresh.unhalted`). Trees that come from descriptions are refreshed, alone
  and as members of a group. The program matches no others, so a run of it never ends
  because a check on itself did not hold, whatever its files answer (`status_run`).
-/

import Harvest.Command.Run
import Harvest.Proofs.Expressible
import Harvest.Proofs.Modes
import Harvest.Proofs.Reach

namespace Harvest

/-! ## Matches -/

namespace Spec

/-- No match of the tree with the value comes upon a mark that denies a filter. -/
structure Unhalted {V : Type} [Nesting V] (s : Spec) (v : V) : Prop where
  reached : ∀ a node, s.Reaches v a node → node.isStale = false
  lenient : ∃ y, s.gatherLenient v = .ok y
  strict : ∀ node, s.gatherStrict v ≠ .error (.stale node)
  either : ∀ mode node, s.gather mode v ≠ .error (.stale node)

theorem Fresh.unhalted {V : Type} [Nesting V] {s : Spec} (h : s.Fresh) (v : V) : s.Unhalted v where
  reached _ _ hr := (hr.fresh h).isStale_eq_false
  lenient := ⟨_, h.gatherLenient_eq v⟩
  strict := h.gatherStrict_ne_stale v
  either := by
    intro mode node hg
    cases mode with
    | lenient =>
      rw [gather_lenient, h.gatherLenient_eq v] at hg
      cases hg
    | strict => exact h.gatherStrict_ne_stale v node (by rw [gatherStrict, hg]; rfl)

theorem fresh_of_ofJson {d : Json} {s : Spec} (h : ofJson d = .ok s) : s.Fresh := by
  obtain ⟨t, -, rfl⟩ := ofJson_eq_ok_iff.mp h
  exact fresh_refresh t

theorem fresh_of_group {label : String} {d : Json} {g : Group Spec} (h : Group.ofJson label d = .ok g) :
    ∀ s ∈ g.members, s.Fresh := by
  obtain ⟨built, -, rfl⟩ := map_eq_ok_iff.mp h
  intro s hs
  obtain ⟨t, -, rfl⟩ := List.mem_map.mp hs
  exact fresh_refresh t

end Spec

/-! ## Runs -/

theorem status_documentOf {path : String} {content : Except FileError ByteArray} {f : Failure}
    (h : documentOf path content = .error f) : f.status = 1 := by
  unfold documentOf at h
  split at h
  · cases h; rfl
  · split at h
    · cases h; rfl
    · split at h
      · cases h; rfl
      · cases h

theorem specOf_eq (path : String) (d : Json) :
    (specOf path d).2 = (Spec.ofJson d).mapError fun r => .attempt ("invalid spec in " ++ path) r.causes := by
  unfold specOf
  cases Spec.ofJson d <;> rfl

theorem status_specOf {path : String} {d : Json} {f : Failure} (h : (specOf path d).2 = .error f) : f.status = 1 := by
  rw [specOf_eq] at h
  cases hs : Spec.ofJson d with
  | ok s => rw [hs] at h; cases h
  | error r => rw [hs] at h; cases h; rfl

theorem fresh_of_specOf {path : String} {d : Json} {s : Spec} (h : (specOf path d).2 = .ok s) : s.Fresh := by
  rw [specOf_eq, mapError_eq_ok_iff] at h
  exact Spec.fresh_of_ofJson h

/-- A fresh tree is reported on or fails for a mismatch. -/
theorem status_reportOf {a : MatchArguments} {s : Spec} (hs : s.Fresh) {d : Json} {f : Failure}
    (h : (reportOf a s d).2 = .error f) : f.status = 1 := by
  unfold reportOf at h
  cases hg : s.gather a.mode d with
  | ok y => rw [hg] at h; cases h
  | error halt =>
    cases halt with
    | stale node => exact absurd hg ((hs.unhalted d).either a.mode node)
    | mismatch m => rw [hg] at h; cases h; rfl

section

variable {σ α β : Type}

/-- Whatever the state, the computation gives what `P` says. -/
def Gives (P : α → Prop) (x : StateM σ α) : Prop := ∀ st, P (x.run st).1

theorem Gives.of_pure {P : α → Prop} {a : α} (h : P a) : Gives P (pure a : StateM σ α) := fun _ => h

theorem Gives.bind {P : β → Prop} {Q : α → Prop} {x : StateM σ α} {f : α → StateM σ β} (h : Gives Q x)
    (hf : ∀ a, Q a → Gives P (f a)) : Gives P (x >>= f) := by
  intro st
  exact hf _ (h st) (x.run st).2

theorem Gives.bind_any {P : β → Prop} {x : StateM σ α} {f : α → StateM σ β} (hf : ∀ a, Gives P (f a)) :
    Gives P (x >>= f) := fun st => hf _ (x.run st).2

end

/-- Any failure is that of an attempt. -/
def Sound {α : Type} (result : List LogLine × Except Failure α) : Prop := ∀ f, result.2 = .error f → f.status = 1

theorem Sound.of_error {α : Type} {log : List LogLine} {f : Failure} (h : f.status = 1) :
    Sound ((log, .error f) : List LogLine × Except Failure α) := by
  intro f' hf
  cases hf
  exact h

theorem Sound.of_ok {α : Type} {log : List LogLine} {a : α} :
    Sound ((log, .ok a) : List LogLine × Except Failure α) := by
  intro f hf
  cases hf

variable {σ : Type} (files : Files (StateM σ))

theorem loadSpec_sound (path : String) :
    Gives (fun result => Sound result ∧ ∀ s, result.2 = .ok s → s.Fresh) (loadSpec files path) := by
  refine Gives.bind_any fun content => ?_
  cases hd : documentOf path content with
  | error f =>
    refine Gives.of_pure ⟨.of_error (status_documentOf hd), ?_⟩
    intro s hs
    cases hs
  | ok d => exact Gives.of_pure ⟨fun f => status_specOf, fun s => fresh_of_specOf⟩

theorem runMatch_sound (a : MatchArguments) : Gives Sound (runMatch files a) := by
  refine Gives.bind (loadSpec_sound files a.spec) fun loaded h => ?_
  obtain ⟨log, result⟩ := loaded
  cases result with
  | error f => exact Gives.of_pure (.of_error (h.1 f rfl))
  | ok s =>
    refine Gives.bind_any fun content => ?_
    cases hd : documentOf a.input content with
    | error f => exact Gives.of_pure (.of_error (status_documentOf hd))
    | ok d =>
      dsimp only
      have hreport := @status_reportOf a s (h.2 s rfl) d
      generalize reportOf a s d = reported at hreport ⊢
      obtain ⟨log', report⟩ := reported
      cases report with
      | error f => exact Gives.of_pure (.of_error (hreport rfl))
      | ok text =>
        cases a.out with
        | none => exact Gives.of_pure .of_ok
        | some path =>
          refine Gives.bind_any fun written => ?_
          cases written with
          | error e => exact Gives.of_pure (.of_error rfl)
          | ok _ => exact Gives.of_pure .of_ok

theorem runCommand_sound (command : Command) : Gives Sound (runCommand files command) := by
  cases command with
  | gather a => exact runMatch_sound files a
  | describe path =>
    refine Gives.bind (loadSpec_sound files path) fun loaded h => ?_
    obtain ⟨log, result⟩ := loaded
    cases result with
    | error f => exact Gives.of_pure (.of_error (h.1 f rfl))
    | ok s => exact Gives.of_pure .of_ok

/-- A run ends well, for a failed attempt or for a line that no command can be read off. -/
theorem status_run (args : List String) : Gives (fun answer => answer.status ∈ [0, 1, 2]) (run files args) := by
  unfold run
  split
  · rename_i r _
    cases r <;> exact Gives.of_pure (by decide)
  · rename_i i _
    refine Gives.bind (runCommand_sound files i.command) fun done h => Gives.of_pure ?_
    obtain ⟨log, result⟩ := done
    cases result with
    | ok text => simp [Answer.ofResult]
    | error f => simp [Answer.ofResult, h f rfl]

/-! ## Refreshed trees -/

/-- Refresh any tree: no match of it ends at a mark. So no match of a described tree does,
    nor of a described member of a group, nor a run of the program on any files. -/
theorem refreshed_trees_never_halt :
    (∀ (s : Spec) {V : Type} [Nesting V] (v : V), s.refresh.Unhalted v) ∧
      (∀ d s, Spec.ofJson d = .ok s → ∀ {V : Type} [Nesting V] (v : V), s.Unhalted v) ∧
      (∀ label d g, Group.ofJson label d = .ok g → ∀ s ∈ g.members, ∀ {V : Type} [Nesting V] (v : V), s.Unhalted v) ∧
      ∀ {σ : Type} (files : Files (StateM σ)) args st, ((run files args).run st).1.status ∈ [0, 1, 2] := by
  refine ⟨fun s _ _ v => (Spec.fresh_refresh s).unhalted v, ?_, ?_, fun files args st => status_run files args st⟩
  · intro d s h V _ v
    exact (Spec.fresh_of_ofJson h).unhalted v
  · intro label d g h s hs V _ v
    exact (Spec.fresh_of_group h s hs).unhalted v

/-- The mark of the member denies its filter, so a match ends at it; not once the tree is
    refreshed, nor if the tree or the group comes from a description. -/
theorem refreshed_trees_never_halt_at_a_member :
    let member : Spec := { filter := ({} : Filter).includeKey (.position 0) }
    let spec : Spec := { groups := [⟨"g", [member]⟩] }
    let v : Json := .array [.array [.null]]
    spec.gatherLenient v = .error member ∧ spec.refresh.Unhalted v ∧
      Spec.ofJson spec.describe = .ok spec.refresh ∧ spec.refresh.Unhalted v ∧
      Group.ofJson "g" (.array [member.describe]) = .ok ⟨"g", [member.refresh]⟩ ∧ member.refresh.Unhalted v ∧
      ((run Directory.operations ["describe", "--spec", "spec.json"]).run ⟨[]⟩).1.status ∈ [0, 1, 2] := by
  intro member spec v
  have hmember : ∀ t, member.Holds t → t.type.Plain ∧ t.AbsentBare := by
    refine Spec.forall_holds_iff.mpr ⟨⟨?_, ?_⟩, ?_⟩
    · intro name h
      cases h
    · intro h
      cases h
    · intro edge c hc
      cases hc
  have hspec : ∀ t, spec.Holds t → t.type.Plain ∧ t.AbsentBare := by
    refine Spec.forall_holds_iff.mpr ⟨⟨?_, ?_⟩, ?_⟩
    · intro name h
      cases h
    · intro h
      cases h
    · intro edge c hc
      obtain ⟨-, rfl⟩ := Prod.mk.inj (List.mem_singleton.mp hc)
      exact hmember
  have hd := Spec.ofJson_describe hspec
  have hg : Group.ofJson "g" (.array [member.describe]) = .ok ⟨"g", [member.refresh]⟩ := by
    refine map_eq_ok_iff.mpr ⟨⟨"g", [member.unmarked]⟩, ?_, by rw [← Spec.refresh_unmarked member]; rfl⟩
    exact Group.ofMembers_eq_ok_iff.mpr ⟨_, rfl, rfl, .cons (Spec.build_describe hmember) .nil⟩
  obtain ⟨hrefresh, hdescribed, hgroup, hrun⟩ := refreshed_trees_never_halt
  exact ⟨rfl, hrefresh spec v, hd, hdescribed _ _ hd v, hg, hgroup _ _ _ hg _ (List.mem_singleton_self _) v,
    hrun Directory.operations _ _⟩

end Harvest
