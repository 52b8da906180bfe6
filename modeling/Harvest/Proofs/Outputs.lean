/-
  Harvest.Proofs.Outputs — what a run of `match` leaves behind.

  A run reads its two files, makes a report of what they hold and only then writes
  (`runMatch_run`). So whatever fails before, and a write that fails itself, leaves the
  files as they were and the output empty (`run_allOrNothing`); where everything can be
  read, matched and written, the report is put out (`run_completes`).

  What a run makes of its files before it writes does not hang on the mode, except for the
  match itself (`prepare_of_loads`). A strict match that meets no mismatch is the lenient
  one, down to what it tells on its way, and else it fails for the first (`run_onlyFails`).
-/

import Harvest.Proofs.Directories
import Harvest.Proofs.Options
import Harvest.Proofs.Unhalted

namespace Harvest

/-! ## Runs -/

variable {σ : Type} {files : Files (StateM σ)} {a : MatchArguments} {st : σ} {spec : Spec} {v : Json}

/-- The files of the description and of the input can be read, and hold the tree and the value. -/
structure Loads (files : Files (StateM σ)) (a : MatchArguments) (st : σ) (spec : Spec) (v : Json) : Prop where
  tree : ∃ d, documentOf a.spec ((files.read a.spec).run st).1 = .ok d ∧ Spec.ofJson d = .ok spec
  input : documentOf a.input ((files.read a.input).run st).1 = .ok v

/-- The text is in the file and the output only says so, or without a file it is the output. -/
def PutsOut (files : Files (StateM σ)) (out : Option String) (text : String) (st : σ) (stdout : String) (st' : σ) :
    Prop :=
  match out with
  | none => stdout = text ∧ st' = st
  | some path => stdout = "Wrote " ++ path ++ "\n" ∧ (files.write path text.toUTF8).run st = (.ok (), st')

/-- A run that fails changes and shows nothing, any other puts out the report on what it read. -/
structure AllOrNothing (files : Files (StateM σ)) (a : MatchArguments) (st : σ) (outcome : Answer × σ) : Prop where
  status : outcome.1.status = 0 ∨ outcome.1.status = 1
  nothing : outcome.1.status = 1 → outcome.1.stdout = "" ∧ outcome.2 = st
  all : outcome.1.status = 0 → ∃ spec v y, Loads files a st spec v ∧ spec.gather a.mode v = .ok y ∧
    PutsOut files a.out ((Report.ofYield spec y).render a.format) st outcome.1.stdout outcome.2

theorem run_eq {threshold : Option Level} {command : Command} {args : List String}
    (h : Invocation.ofArguments args = .ok ⟨threshold, command⟩) :
    (run files args).run st =
      let done := (runCommand files command).run st
      (Answer.ofResult threshold done.1.1 done.1.2, done.2) := by
  rw [run, h]
  rfl

theorem run_bind_eq {α β : Type} {x : StateM σ α} {f : α → StateM σ β} {st st' : σ} {b : α}
    (h : x.run st = (b, st')) : (x >>= f).run st = (f b).run st' := by
  show (f (x.run st).1).run (x.run st).2 = _
  rw [h]

/-- The report that `match` puts out if the files of the description and of the input have these contents. -/
def prepare (a : MatchArguments) (description input : Except FileError ByteArray) :
    List LogLine × Except Failure String :=
  match documentOf a.spec description with
  | .error f => ([], .error f)
  | .ok d =>
    match specOf a.spec d with
    | (log, .error f) => (log, .error f)
    | (log, .ok spec) =>
      match documentOf a.input input with
      | .error f => (log, .error f)
      | .ok v => (log ++ (reportOf a spec v).1, (reportOf a spec v).2)

/-- Both files are read first, and a write comes last. -/
theorem runMatch_run (h : files.Atomic) (a : MatchArguments) (st : σ) :
    (runMatch files a).run st =
      match prepare a ((files.read a.spec).run st).1 ((files.read a.input).run st).1, a.out with
      | (log, .error f), _ => ((log, .error f), st)
      | (log, .ok text), none => ((log, .ok text), st)
      | (log, .ok text), some path =>
        match (files.write path text.toUTF8).run st with
        | (.error e, st') => ((log, .error (.attempt ("write " ++ path) [e.message])), st')
        | (.ok (), st') => ((log, .ok (Text.line ("Wrote " ++ path))), st') := by
  have hspec : (files.read a.spec).run st = (((files.read a.spec).run st).1, st) := Prod.ext rfl (h.read a.spec st)
  have hinput : (files.read a.input).run st = (((files.read a.input).run st).1, st) :=
    Prod.ext rfl (h.read a.input st)
  generalize ((files.read a.spec).run st).1 = description at hspec ⊢
  generalize ((files.read a.input).run st).1 = input at hinput ⊢
  have hloaded : (loadSpec files a.spec).run st =
      (match documentOf a.spec description with
        | .error f => ([], .error f)
        | .ok d => specOf a.spec d, st) := by
    rw [loadSpec, run_bind_eq hspec]
    cases documentOf a.spec description <;> rfl
  rw [runMatch, run_bind_eq hloaded, prepare]
  cases documentOf a.spec description with
  | error f => rfl
  | ok d =>
    dsimp only
    obtain ⟨log, _ | spec⟩ := specOf a.spec d
    · rfl
    · dsimp only
      rw [run_bind_eq hinput]
      cases documentOf a.input input with
      | error f => rfl
      | ok v =>
        dsimp only
        obtain ⟨log', _ | text⟩ := reportOf a spec v
        · rfl
        · cases a.out with
          | none => rfl
          | some path =>
            dsimp only
            generalize hwrite : (files.write path text.toUTF8).run st = written
            obtain ⟨_ | _, st'⟩ := written <;> rw [run_bind_eq hwrite] <;> rfl

/-! ## What can go wrong before a write -/

theorem specOf_of_ofJson {path : String} {d : Json} (h : Spec.ofJson d = .ok spec) :
    ∃ log, specOf path d = (log, .ok spec) := by
  refine ⟨(specOf path d).1, Prod.ext rfl ?_⟩
  rw [specOf_eq, h]
  rfl

theorem documentOf_toUTF8 {path text : String} {v : Json} (h : Json.parse text = .ok v) :
    documentOf path (.ok text.toUTF8) = .ok v := by
  have hread : String.fromUTF8? text.toUTF8 = some text := dif_pos text.isValidUTF8
  simp only [documentOf, hread, h]

theorem reportOf_eq_ok_iff {text : String} : (reportOf a spec v).2 = .ok text ↔
    ∃ y, spec.gather a.mode v = .ok y ∧ text = (Report.ofYield spec y).render a.format := by
  unfold reportOf
  cases spec.gather a.mode v with
  | ok y => simp [eq_comm]
  | error halt => cases halt <;> simp

/-- Every stage before the report may fail, and then for a fault in the attempt. -/
theorem prepare_cases (files : Files (StateM σ)) (a : MatchArguments) (st : σ) :
    (∃ log f, prepare a ((files.read a.spec).run st).1 ((files.read a.input).run st).1 = (log, .error f) ∧
      f.status = 1) ∨
    ∃ log spec v y, Loads files a st spec v ∧ spec.gather a.mode v = .ok y ∧
      prepare a ((files.read a.spec).run st).1 ((files.read a.input).run st).1 =
        (log, .ok ((Report.ofYield spec y).render a.format)) := by
  cases hd : documentOf a.spec ((files.read a.spec).run st).1 with
  | error f => exact .inl ⟨[], f, by simp only [prepare, hd], status_documentOf hd⟩
  | ok d =>
    generalize hs : specOf a.spec d = loaded
    obtain ⟨log, f | spec⟩ := loaded
    · exact .inl ⟨log, f, by simp only [prepare, hd, hs], status_specOf (congrArg Prod.snd hs)⟩
    · cases hv : documentOf a.input ((files.read a.input).run st).1 with
      | error f => exact .inl ⟨log, f, by simp only [prepare, hd, hs, hv], status_documentOf hv⟩
      | ok v =>
        have hspec : Spec.ofJson d = .ok spec := by rw [← mapError_eq_ok_iff, ← specOf_eq, hs]
        cases hr : (reportOf a spec v).2 with
        | error f =>
          exact .inl ⟨log ++ (reportOf a spec v).1, f, by simp only [prepare, hd, hs, hv, hr],
            status_reportOf (Spec.fresh_of_ofJson hspec) hr⟩
        | ok text =>
          obtain ⟨y, hy, rfl⟩ := reportOf_eq_ok_iff.mp hr
          exact .inr ⟨log ++ (reportOf a spec v).1, spec, v, y, ⟨⟨d, hd, hspec⟩, hv⟩, hy,
            by simp only [prepare, hd, hs, hv, hr]⟩

theorem prepare_of_loads (hl : Loads files a st spec v) : ∃ log, ∀ mode,
    prepare { a with mode } ((files.read a.spec).run st).1 ((files.read a.input).run st).1 =
      (log ++ (reportOf { a with mode } spec v).1, (reportOf { a with mode } spec v).2) := by
  obtain ⟨⟨d, hd, hs⟩, hv⟩ := hl
  obtain ⟨log, hlog⟩ := @specOf_of_ofJson spec a.spec d hs
  exact ⟨log, fun mode => by simp only [prepare, hd, hlog, hv]⟩

/-! ## A run by itself -/

theorem AllOrNothing.of_error {threshold : Option Level} {log : List LogLine} {f : Failure} (hf : f.status = 1) :
    AllOrNothing files a st (Answer.ofResult threshold log (.error f), st) where
  status := .inr hf
  nothing _ := ⟨rfl, rfl⟩
  all h0 := absurd (h0.symm.trans hf) (by decide)

theorem AllOrNothing.of_ok {threshold : Option Level} {log : List LogLine} {y : Yield Json} {shown : String} {st' : σ}
    (hl : Loads files a st spec v) (hy : spec.gather a.mode v = .ok y)
    (hp : PutsOut files a.out ((Report.ofYield spec y).render a.format) st shown st') :
    AllOrNothing files a st (Answer.ofResult threshold log (.ok shown), st') where
  status := .inl rfl
  nothing h1 := absurd (show 0 = 1 from h1) (by decide)
  all _ := ⟨spec, v, y, hl, hy, hp⟩

theorem run_allOrNothing (h : files.Atomic) {threshold : Option Level} {args : List String}
    (hargs : Invocation.ofArguments args = .ok ⟨threshold, .gather a⟩) (st : σ) :
    AllOrNothing files a st ((run files args).run st) := by
  rw [run_eq hargs, runCommand, runMatch_run h]
  obtain ⟨log, f, hprep, hf⟩ | ⟨log, spec, v, y, hl, hy, hprep⟩ := prepare_cases files a st
  · rw [hprep]
    exact .of_error hf
  · rw [hprep]
    cases ho : a.out with
    | none => exact .of_ok hl hy (by rw [ho]; exact ⟨rfl, rfl⟩)
    | some path =>
      dsimp only
      generalize hwrite : (files.write path ((Report.ofYield spec y).render a.format).toUTF8).run st = written
      obtain ⟨e | _, st'⟩ := written
      · obtain rfl := h.write _ _ _ _ _ hwrite
        exact .of_error rfl
      · exact .of_ok hl hy (by rw [ho]; exact ⟨rfl, hwrite⟩)

/-- Where everything can be read, matched and written, the report is put out. -/
theorem run_completes (h : files.Atomic) {threshold : Option Level} {args : List String}
    (hargs : Invocation.ofArguments args = .ok ⟨threshold, .gather a⟩) (hl : Loads files a st spec v) {y : Yield Json}
    (hy : spec.gather a.mode v = .ok y) {shown : String} {st' : σ}
    (hp : PutsOut files a.out ((Report.ofYield spec y).render a.format) st shown st') :
    ∃ log, (run files args).run st = (⟨0, shown, log⟩, st') := by
  obtain ⟨log, hlog⟩ := prepare_of_loads hl
  rw [run_eq hargs, runCommand, runMatch_run h, hlog a.mode, reportOf_eq_ok_iff.mpr ⟨y, hy, rfl⟩]
  unfold PutsOut at hp
  cases ho : a.out with
  | none =>
    rw [ho] at hp
    obtain ⟨rfl, rfl⟩ := hp
    exact ⟨_, rfl⟩
  | some path =>
    rw [ho] at hp
    obtain ⟨rfl, hwrite⟩ := hp
    dsimp only
    rw [hwrite]
    exact ⟨_, rfl⟩

/-! ## Both modes -/

theorem reportOf_strict_of_complete {y : Yield Json} (h : spec.gatherLenient v = .ok y) (hm : y.mismatches = []) :
    reportOf { a with mode := .strict } spec v = reportOf { a with mode := .lenient } spec v := by
  have hexplore := Spec.explore_strict_of_complete h hm
  have hgather : spec.gather .strict v = spec.gather .lenient v := by rw [Spec.gather, Spec.gather, hexplore]
  unfold reportOf
  rw [hexplore, hgather]

theorem reportOf_strict_of_mismatch {y : Yield Json} (h : spec.gatherLenient v = .ok y) {m : Mismatch Json}
    {rest : List (Mismatch Json)} (hm : y.mismatches = m :: rest) :
    (reportOf { a with mode := .strict } spec v).2 =
      .error (.attempt ("match " ++ a.spec ++ " against " ++ a.input) [m.message]) := by
  unfold reportOf
  rw [Spec.gather_strict_of_mismatch h hm]

/-- What `--strict` adds to a run: nothing if no branch is skipped, and else a failure for the first skipped
    one, which is the first that the report lists. -/
structure OnlyFails (a : MatchArguments) (st : σ) (spec : Spec) (y : Yield Json) (lenient strict : Answer × σ) :
    Prop where
  same : y.mismatches = [] → strict = lenient
  fails : ∀ m rest, y.mismatches = m :: rest →
    (Report.ofYield spec y).mismatches = m.message :: rest.map (·.message) ∧ ∃ log, strict =
      (⟨1, "", log ++ (Failure.attempt ("match " ++ a.spec ++ " against " ++ a.input) [m.message]).text⟩, st)

theorem run_onlyFails (h : files.Atomic) {threshold : Option Level} {lenient strict : List String}
    (hlenient : Invocation.ofArguments lenient = .ok ⟨threshold, .gather { a with mode := .lenient }⟩)
    (hstrict : Invocation.ofArguments strict = .ok ⟨threshold, .gather { a with mode := .strict }⟩)
    (hl : Loads files a st spec v) {y : Yield Json} (hy : spec.gatherLenient v = .ok y) :
    OnlyFails a st spec y ((run files lenient).run st) ((run files strict).run st) := by
  obtain ⟨log, hlog⟩ := prepare_of_loads hl
  rw [run_eq hlenient, run_eq hstrict, runCommand, runCommand, runMatch_run h, runMatch_run h]
  dsimp only
  rw [hlog, hlog]
  constructor
  · intro hm
    rw [reportOf_strict_of_complete hy hm]
  · intro m rest hm
    rw [reportOf_strict_of_mismatch hy hm]
    refine ⟨?_, _, rfl⟩
    rw [Report.ofYield, hm, List.map_cons]

/-- A run of `match` puts out the report and succeeds, or fails and leaves no trace. Where both documents can
    be read and the tree be built, a strict run does what the lenient one does if nothing is skipped, and else
    fails for the first mismatch in its report. A directory changes by a write in one place only. -/
theorem match_is_all_or_nothing :
    (∀ {σ : Type} (files : Files (StateM σ)) (st : σ), files.Atomic →
      (∀ args threshold a, Invocation.ofArguments args = .ok ⟨threshold, .gather a⟩ →
        AllOrNothing files a st ((run files args).run st) ∧
          ∀ spec v y shown st', Loads files a st spec v → spec.gather a.mode v = .ok y →
            PutsOut files a.out ((Report.ofYield spec y).render a.format) st shown st' →
              ∃ log, (run files args).run st = (⟨0, shown, log⟩, st')) ∧
      ∀ lenient strict threshold a,
        Invocation.ofArguments lenient = .ok ⟨threshold, .gather { a with mode := .lenient }⟩ →
          Invocation.ofArguments strict = .ok ⟨threshold, .gather { a with mode := .strict }⟩ →
            ∀ spec v, Loads files a st spec v → ∃ y, spec.gather .lenient v = .ok y ∧
              OnlyFails a st spec y ((run files lenient).run st) ((run files strict).run st)) ∧
    (∀ args threshold a, Invocation.ofArguments args = .ok ⟨threshold, .gather a⟩ → a.mode = .lenient →
      ∃ before after, args = before ++ "match" :: after ∧
        Invocation.ofArguments (before ++ "match" :: "--strict" :: after) =
          .ok ⟨threshold, .gather { a with mode := .strict }⟩) ∧
    Directory.operations.Atomic ∧
    ∀ d d' path content, (Directory.operations.write path content).run d = (.ok (), d') →
      d'.read path = .ok content ∧ ∃ place, ∀ q, d'.look q = if q = place then .file content else d.look q := by
  refine ⟨fun files st h => ⟨?_, ?_⟩, fun args threshold a => Invocation.ofArguments_strict,
    Directory.operations_atomic, ?_⟩
  · intro args threshold a hargs
    exact ⟨run_allOrNothing h hargs st, fun spec v y shown st' hl hy hp => run_completes h hargs hl hy hp⟩
  · intro lenient strict threshold a hlenient hstrict spec v hl
    obtain ⟨d, -, hs⟩ := hl.tree
    have hy := (Spec.fresh_of_ofJson hs).gatherLenient_eq v
    refine ⟨_, ?_, run_onlyFails h hlenient hstrict hl hy⟩
    rw [Spec.gather_lenient, hy]
    rfl
  · intro d d' path content hw
    have hw' := Directory.write_of_run hw
    obtain ⟨place, -, hlook⟩ := Directory.look_write hw'
    exact ⟨Directory.read_write hw', place, hlook⟩

/-- The input is a scalar that the tree cannot enter: the report of the lenient run goes to a file, and the
    strict run fails and leaves none. -/
theorem match_is_all_or_nothing_at_a_scalar :
    let d : Directory := .ofList [("s", "[]".toUTF8), ("i", "0".toUTF8)]
    let lenient := ["match", "--spec=s", "--input=i", "-oo"]
    let strict := ["match", "--strict", "--spec=s", "--input=i", "-oo"]
    let spec : Spec := Spec.refresh {}
    let m : Mismatch Json := ⟨spec, [], .nat 0⟩
    ∃ log log' d', (run Directory.operations lenient).run d = (⟨0, "Wrote o\n", log⟩, d') ∧
      d'.read "o" = .ok (Report.ofYield spec ⟨[], [m]⟩).jsonText.toUTF8 ∧
      (run Directory.operations strict).run d =
        (⟨1, "", log' ++ (Failure.attempt "match s against i" [m.message]).text⟩, d) := by
  intro d lenient strict spec m
  obtain ⟨hruns, -, hatomic, hwrites⟩ := match_is_all_or_nothing
  obtain ⟨hrun, hboth⟩ := hruns Directory.operations d hatomic
  let a : MatchArguments := ⟨"s", "i", some "o", .json, .lenient⟩
  have hlenient : Invocation.ofArguments lenient = .ok ⟨some .warn, .gather a⟩ := by with_unfolding_all rfl
  have hstrict : Invocation.ofArguments strict = .ok ⟨some .warn, .gather { a with mode := .strict }⟩ := by
    with_unfolding_all rfl
  -- the contents stay variables, so that no bytes are computed
  have hfiles : ∀ x y content, let files := Directory.ofList [("s", x), ("i", y)]
      files.read "s" = .ok x ∧ files.read "i" = .ok y ∧ ∃ d', files.write "o" content = .ok d' := by
    intro x y content
    refine ⟨?_, ?_, ⟨[(⟨.above 0, ["s"]⟩, x), (⟨.above 0, ["i"]⟩, y), (⟨.above 0, ["o"]⟩, content)]⟩, ?_⟩
    all_goals with_unfolding_all rfl
  obtain ⟨hspec, hinput, d', hd'⟩ := hfiles "[]".toUTF8 "0".toUTF8 (Report.ofYield spec ⟨[], [m]⟩).jsonText.toUTF8
  have hput : (Directory.operations.write "o" (Report.ofYield spec ⟨[], [m]⟩).jsonText.toUTF8).run d =
      (.ok (), d') := by
    rw [Directory.run_write]
    simp only [d, hd']
  have hbuild : Spec.build (.array []) = .ok {} :=
    Spec.build_eq_ok_iff.mpr ⟨{}, rfl, Declaration.declares_of_rule rfl, .nil, .nil⟩
  have hl : Loads Directory.operations a d spec (.nat 0) := by
    refine ⟨⟨.array [], ?_, Spec.ofJson_eq_ok_iff.mpr ⟨{}, hbuild, rfl⟩⟩, ?_⟩
    · show documentOf "s" (d.read "s") = _
      simp only [d, hspec]
      exact documentOf_toUTF8 rfl
    · show documentOf "i" (d.read "i") = _
      simp only [d, hinput]
      exact documentOf_toUTF8 rfl
  have hy : spec.gather .lenient (.nat 0) = .ok ⟨[], [m]⟩ := rfl
  obtain ⟨log, hlog⟩ := (hrun lenient _ a hlenient).2 spec _ _ _ d' hl hy ⟨rfl, hput⟩
  obtain ⟨y, hy', hfails⟩ := hboth lenient strict _ a hlenient hstrict spec _ hl
  obtain rfl := Except.ok.inj (hy'.symm.trans hy)
  obtain ⟨-, log', hlog'⟩ := hfails.fails m [] rfl
  exact ⟨log, log', d', hlog, (hwrites d d' "o" _ hput).1, hlog'⟩

end Harvest
