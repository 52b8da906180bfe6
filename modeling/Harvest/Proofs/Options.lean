/-
  Harvest.Proofs.Options — the options of a line.

  A line is scanned option by option: each takes its value out of its own argument, from
  the next, or takes none (`Settings.Given`). The scan ends at the first plain argument, at
  a lone escape or at the end of the line (`Settings.scan_eq_ok_iff`). What follows the
  options has no part in them, and an option more changes nothing about the others, unless
  one of them repeats it. So `--strict` can be given to every line of `match` that does not
  have it, and asks for the same but for the mode (`Invocation.ofArguments_strict`).
-/

import Harvest.Command.Arguments
import Harvest.Proofs.Translation

namespace Harvest

/-! ## Settings -/

namespace Settings

variable {s t : Settings} {switch : Switch} {value : String}

theorem get?_append (s t : Settings) (switch : Switch) :
    get? (s ++ t) switch = (s.get? switch).or (t.get? switch) := by
  unfold get?
  rw [List.find?_append, Option.map_or]

theorem get?_cons_self (s : Settings) (switch : Switch) (value : String) :
    get? ((switch, value) :: s) switch = some value := by
  simp [get?]

theorem set_eq_ok_iff : s.set switch value = .ok t ↔
    s.get? switch = none ∧ switch.allows value ∧ t = (switch, value) :: s := by
  unfold set
  cases s.get? switch <;> cases switch.allows value <;> simp [eq_comm]

/-! ## The options before a command or after it -/

/-- The arguments are options, each of them allowed, and add up to the second settings. -/
inductive Given (allowed : List Switch) : Settings → List String → Settings → Prop
  | nil {s : Settings} : Given allowed s [] s
  /-- The value is part of the argument. -/
  | within {s s' t : Settings} {arg value : String} {rest : List String} {switch : Switch} :
      (Argument.ofString arg).switch? allowed = .ok (switch, some value) → s.set switch value = .ok s' →
        Given allowed s' rest t → Given allowed s (arg :: rest) t
  | flag {s s' t : Settings} {arg : String} {rest : List String} {switch : Switch} :
      (Argument.ofString arg).switch? allowed = .ok (switch, none) → switch.takesValue = false →
        s.set switch "" = .ok s' → Given allowed s' rest t → Given allowed s (arg :: rest) t
  /-- The value is the next argument. -/
  | next {s s' t : Settings} {arg value : String} {rest : List String} {switch : Switch} :
      (Argument.ofString arg).switch? allowed = .ok (switch, none) → switch.takesValue →
        (Argument.ofString value).isValue → s.set switch value = .ok s' →
          Given allowed s' rest t → Given allowed s (arg :: value :: rest) t

/-- What the options of a line end at, and what is left of the line there. -/
inductive Ends : List String → List String → Prop
  | line : Ends [] []
  | plain {arg name : String} {rest : List String} : Argument.ofString arg = .plain name →
      Ends (arg :: rest) (arg :: rest)
  | escape {arg : String} : Argument.ofString arg = .escape → Ends [arg] []

theorem given_of_scan {allowed : List Switch} {args rest : List String} (h : scan allowed s args = .ok (t, rest)) :
    ∃ options tail, args = options ++ tail ∧ Given allowed s options t ∧ Ends tail rest := by
  fun_induction scan allowed s args with
  | case1 s => cases h; exact ⟨[], [], rfl, .nil, .line⟩
  | case2 s arg rest' name harg => cases h; exact ⟨[], _, rfl, .nil, .plain harg⟩
  | case3 s arg rest' harg hrest =>
    cases h
    obtain rfl := List.isEmpty_iff.mp hrest
    exact ⟨[], _, rfl, .nil, .escape harg⟩
  | case4 | case5 | case9 | case10 => cases h
  | case6 s arg rest' hplain hescape switch value hswitch ih =>
    obtain ⟨s', hs, h⟩ := bind_eq_ok_iff.mp h
    obtain ⟨options, tail, rfl, hg, he⟩ := ih s' h
    exact ⟨arg :: options, tail, rfl, .within hswitch hs hg, he⟩
  | case7 s arg rest' switch hvalue hplain hescape hswitch ih =>
    obtain ⟨s', hs, h⟩ := bind_eq_ok_iff.mp h
    obtain ⟨options, tail, rfl, hg, he⟩ := ih s' h
    exact ⟨arg :: options, tail, rfl, .flag hswitch (by simpa using hvalue) hs hg, he⟩
  | case8 s arg switch hvalue value rest' hnext _ _ hswitch ih =>
    obtain ⟨s', hs, h⟩ := bind_eq_ok_iff.mp h
    obtain ⟨options, tail, rfl, hg, he⟩ := ih s' h
    exact ⟨arg :: value :: options, tail, rfl, .next hswitch (by simpa using hvalue) hnext hs hg, he⟩

/-- What an option stands for and its value inside the argument decide how the scan goes on. -/
theorem scan_option (allowed : List Switch) (s : Settings) (arg : String) (rest : List String) (switch : Switch)
    (value : Option String) : (Argument.ofString arg).switch? allowed = .ok (switch, value) →
      scan allowed s (arg :: rest) =
        match value, rest with
        | some value, rest => do scan allowed (← s.set switch value) rest
        | none, rest =>
          if !switch.takesValue then do scan allowed (← s.set switch "") rest
          else match rest with
            | value :: rest =>
              if (Argument.ofString value).isValue then do scan allowed (← s.set switch value) rest
              else .error .usage
            | [] => .error .usage := by
  intro h
  rw [scan]
  split
  · rename_i harg
    rw [harg] at h
    cases h
  · rename_i harg
    rw [harg] at h
    cases h
  · rw [h]
    cases value with
    | some value => rfl
    | none => rfl

theorem scan_of_given {allowed : List Switch} {options tail rest : List String} (hg : Given allowed s options t)
    (he : Ends tail rest) : scan allowed s (options ++ tail) = .ok (t, rest) := by
  induction hg with
  | nil =>
    cases he with
    | line => rfl
    | plain harg => rw [List.nil_append, scan, harg]
    | escape harg => rw [List.nil_append, scan, harg]; rfl
  | within hswitch hs _ ih =>
    rw [List.cons_append, scan_option _ _ _ _ _ _ hswitch]
    exact bind_eq_ok_iff.mpr ⟨_, hs, ih⟩
  | flag hswitch hvalue hs _ ih =>
    rw [List.cons_append, scan_option _ _ _ _ _ _ hswitch]
    dsimp only
    rw [if_pos (by simp [hvalue])]
    exact bind_eq_ok_iff.mpr ⟨_, hs, ih⟩
  | next hswitch hvalue hnext hs _ ih =>
    rw [List.cons_append, List.cons_append, scan_option _ _ _ _ _ _ hswitch]
    dsimp only
    rw [if_neg (by simp [hvalue]), if_pos hnext]
    exact bind_eq_ok_iff.mpr ⟨_, hs, ih⟩

theorem scan_eq_ok_iff {allowed : List Switch} {args rest : List String} : scan allowed s args = .ok (t, rest) ↔
    ∃ options tail, args = options ++ tail ∧ Given allowed s options t ∧ Ends tail rest := by
  constructor
  · exact given_of_scan
  · intro h
    obtain ⟨options, tail, rfl, hg, he⟩ := h
    exact scan_of_given hg he

/-! ## One option more -/

theorem get?_of_set {s' : Settings} {other : Switch} (h : s.set switch value = .ok s') (ho : s'.get? other = none) :
    other ≠ switch ∧ s.get? other = none := by
  obtain ⟨-, -, rfl⟩ := set_eq_ok_iff.mp h
  have hne : other ≠ switch := by
    intro he
    rw [he, get?_cons_self] at ho
    cases ho
  refine ⟨hne, ?_⟩
  simpa [get?, Ne.symm hne] using ho

theorem set_append {s' : Settings} {other : Switch} (h : s.set switch value = .ok s') (ho : s'.get? other = none)
    (given : String) : set (s ++ [(other, given)]) switch value = .ok (s' ++ [(other, given)]) := by
  obtain ⟨hne, -⟩ := get?_of_set h ho
  obtain ⟨hnone, hallows, rfl⟩ := set_eq_ok_iff.mp h
  refine set_eq_ok_iff.mpr ⟨?_, hallows, rfl⟩
  rw [get?_append, hnone]
  simp [get?, hne]

namespace Given

variable {allowed : List Switch} {args : List String} {other : Switch}

theorem get?_eq_none (h : Given allowed s args t) (ho : t.get? other = none) : s.get? other = none := by
  induction h with
  | nil => exact ho
  | within _ hs _ ih => exact (get?_of_set hs (ih ho)).2
  | flag _ _ hs _ ih => exact (get?_of_set hs (ih ho)).2
  | next _ _ _ hs _ ih => exact (get?_of_set hs (ih ho)).2

/-- An option given before is in nobody's way if it is not given again. -/
theorem append (h : Given allowed s args t) (ho : t.get? other = none) (given : String) :
    Given allowed (s ++ [(other, given)]) args (t ++ [(other, given)]) := by
  induction h with
  | nil => exact .nil
  | within hswitch hs hrest ih => exact .within hswitch (set_append hs (hrest.get?_eq_none ho) given) (ih ho)
  | flag hswitch hvalue hs hrest ih => exact .flag hswitch hvalue (set_append hs (hrest.get?_eq_none ho) given) (ih ho)
  | next hswitch hvalue hnext hs hrest ih =>
    exact .next hswitch hvalue hnext (set_append hs (hrest.get?_eq_none ho) given) (ih ho)

end Given

end Settings

/-! ## The option of a strict match -/

theorem Settings.get?_strict (s : Settings) {switch : Switch} (h : switch ≠ .strict) :
    Settings.get? (s ++ [(.strict, "")]) switch = s.get? switch := by
  have hnone : Settings.get? [(.strict, "")] switch = none := by simp [Settings.get?, Ne.symm h]
  rw [get?_append, hnone, Option.or_none]

theorem MatchArguments.ofSettings_strict {s : Settings} {a : MatchArguments} (h : ofSettings s = .ok a)
    (ha : a.mode = .lenient) :
    s.get? .strict = none ∧ ofSettings (s ++ [(.strict, "")]) = .ok { a with mode := .strict } := by
  unfold ofSettings Settings.require at h ⊢
  obtain ⟨spec, hspec, h⟩ := bind_eq_ok_iff.mp h
  obtain ⟨input, hinput, h⟩ := bind_eq_ok_iff.mp h
  cases h
  have hnone : s.get? .strict = none := by
    cases hs : s.get? .strict with
    | none => rfl
    | some value => simp [hs] at ha
  refine ⟨hnone, ?_⟩
  rw [Settings.get?_strict s (by decide), Settings.get?_strict s (by decide), Settings.get?_strict s (by decide),
    Settings.get?_strict s (by decide), Settings.get?_append, hnone]
  exact bind_eq_ok_iff.mpr ⟨spec, hspec, bind_eq_ok_iff.mpr ⟨input, hinput, rfl⟩⟩

theorem commandSettings_eq_ok_iff {allowed : List Switch} {args : List String} {s : Settings} :
    commandSettings allowed args = .ok s ↔ Settings.scan allowed [] args = .ok (s, []) := by
  unfold commandSettings
  rw [bind_eq_ok_iff]
  constructor
  · intro h
    obtain ⟨⟨t, rest⟩, hscan, h⟩ := h
    cases rest with
    | nil => cases h; exact hscan
    | cons => cases h
  · intro h
    exact ⟨_, h, rfl⟩

namespace Invocation

variable {args : List String} {threshold : Option Level} {a : MatchArguments}

theorem ofArguments_eq_gather_iff : ofArguments args = .ok ⟨threshold, .gather a⟩ ↔
    ∃ outer after inner, Settings.scan [.logLevel] [] args = .ok (outer, "match" :: after) ∧
      commandSettings Switch.all after = .ok inner ∧ MatchArguments.ofSettings inner = .ok a ∧
        Settings.threshold outer inner = threshold := by
  unfold ofArguments
  rw [bind_eq_ok_iff]
  constructor
  · intro h
    obtain ⟨⟨outer, rest⟩, hscan, h⟩ := h
    split at h
    case h_1 heq =>
      cases heq
      obtain ⟨inner, hinner, h⟩ := bind_eq_ok_iff.mp h
      obtain ⟨a', ha, h⟩ := bind_eq_ok_iff.mp h
      cases h
      exact ⟨outer, _, inner, hscan, hinner, ha, rfl⟩
    case h_2 =>
      obtain ⟨inner, -, h⟩ := bind_eq_ok_iff.mp h
      obtain ⟨spec, -, h⟩ := bind_eq_ok_iff.mp h
      cases h
    all_goals cases h
  · intro h
    obtain ⟨outer, after, inner, hscan, hinner, ha, rfl⟩ := h
    exact ⟨_, hscan, bind_eq_ok_iff.mpr ⟨inner, hinner, bind_eq_ok_iff.mpr ⟨a, ha, rfl⟩⟩⟩

/-- To a line that asks for a lenient match `--strict` can be added, after the command's name. -/
theorem ofArguments_strict (h : ofArguments args = .ok ⟨threshold, .gather a⟩) (ha : a.mode = .lenient) :
    ∃ before after, args = before ++ "match" :: after ∧
      ofArguments (before ++ "match" :: "--strict" :: after) =
        .ok ⟨threshold, .gather { a with mode := .strict }⟩ := by
  obtain ⟨outer, after, inner, hscan, hinner, hsettings, rfl⟩ := ofArguments_eq_gather_iff.mp h
  obtain ⟨hnone, hstrict⟩ := MatchArguments.ofSettings_strict hsettings ha
  obtain ⟨before, tail, rfl, hbefore, hends⟩ := Settings.scan_eq_ok_iff.mp hscan
  obtain ⟨options, tail', rfl, hgiven, hends'⟩ := Settings.scan_eq_ok_iff.mp (commandSettings_eq_ok_iff.mp hinner)
  cases hends with
  | plain hname =>
    refine ⟨before, _, rfl, ofArguments_eq_gather_iff.mpr
      ⟨outer, "--strict" :: (options ++ tail'), _, ?_, ?_, hstrict, ?_⟩⟩
    · exact Settings.scan_of_given hbefore (.plain hname)
    · have hflag : Settings.Given Switch.all [] ("--strict" :: options) (inner ++ [(.strict, "")]) :=
        .flag rfl rfl rfl (hgiven.append hnone "")
      exact commandSettings_eq_ok_iff.mpr (Settings.scan_of_given hflag hends')
    · rw [Settings.threshold, Settings.threshold, Settings.get?_strict inner (by decide)]

end Invocation

end Harvest
