/-
  Harvest.Proofs.Directories — what a write changes in a directory.

  A write gives a directory in which one place is a file with the content and every other
  place is what it was (`look_write`). A file in a new place makes no new directory: what
  is on the way to it has been walked through. So every path leads where it did, and the
  path written to reads back the content (`read_write`). A write that fails gives no
  directory at all, so a computation goes on with the one it had (`operations_atomic`).
-/

import Harvest.Command.Files
import Harvest.Proofs.Translation

namespace Harvest

/-- Reading changes nothing, nor does a write that fails. -/
structure Files.Atomic {σ : Type} (files : Files (StateM σ)) : Prop where
  read : ∀ path st, ((files.read path).run st).2 = st
  write : ∀ path content st e st', (files.write path content).run st = (.error e, st') → st' = st

namespace Directory

variable {d d' : Directory} {p q place base : Place} {name path : String} {content old : ByteArray}

/-! ## Directories on the way -/

theorem isDirectory_iff : d.isDirectory p ↔
    p.names = [] ∨ ∃ q ∈ d.files.map (·.1), q.origin = p.origin ∧ p.names <+: q.names ∧ p ≠ q := by
  simp [isDirectory, List.isPrefixOf_iff_prefix, and_assoc]

theorem isDirectory_origin (d : Directory) (origin : Origin) : d.isDirectory ⟨origin, []⟩ := rfl

/-- What is above a directory is one. -/
theorem isDirectory_of_isPrefix {origin : Origin} {above names : List String} (h : above <+: names)
    (hd : d.isDirectory ⟨origin, names⟩) : d.isDirectory ⟨origin, above⟩ := by
  obtain hn | ⟨q, hq, ho, hp, hne⟩ := isDirectory_iff.mp hd
  · exact isDirectory_iff.mpr (.inl (List.prefix_nil.mp (hn ▸ h)))
  · refine isDirectory_iff.mpr (.inr ⟨q, hq, ho, h.trans hp, fun he => hne ?_⟩)
    have hnames : above = q.names := congrArg Place.names he
    rw [← he, h.eq_of_length_le (hnames ▸ hp.length_le)]

theorem isDirectory_parent (h : d.isDirectory p) : d.isDirectory p.parent := by
  obtain ⟨origin, names⟩ := p
  have hup : d.isDirectory ⟨origin, names.dropLast⟩ := isDirectory_of_isPrefix (List.dropLast_prefix names) h
  cases origin with
  | root => exact hup
  | above levels =>
    cases names with
    | nil => exact isDirectory_origin d _
    | cons => exact hup

theorem find?_of_look (h : d.look p = .file content) : ∃ f, d.files.find? (·.1 == p) = some f := by
  unfold look at h
  split at h
  · exact ⟨_, ‹_›⟩
  · split at h <;> cases h

theorem isDirectory_of_look (h : d.look p = .directory) : d.isDirectory p := by
  unfold look at h
  split at h
  · cases h
  · split at h
    · assumption
    · cases h

/-- A name stands for the same in all directories, or for a child of the place, whatever that is. -/
theorem step_cases (p : Place) (name : String) :
    (∀ d : Directory, d.step p name = .ok (p.child name, d.look (p.child name))) ∨
      (∀ d : Directory, d.step p name = .error .nameTooLong) ∨
      ∃ q, (q = p ∨ q = p.parent) ∧ ∀ d : Directory, d.step p name = .ok (q, .directory) := by
  by_cases hd : name = "."
  · exact .inr (.inr ⟨p, .inl rfl, fun d => by rw [step, if_pos hd]⟩)
  by_cases hu : name = ".."
  · exact .inr (.inr ⟨p.parent, .inr rfl, fun d => by rw [step, if_neg hd, if_pos hu]⟩)
  by_cases hl : Path.nameLimit < name.utf8ByteSize
  · exact .inr (.inl fun d => by rw [step, if_neg hd, if_neg hu, if_pos hl])
  · exact .inl fun d => by rw [step, if_neg hd, if_neg hu, if_neg hl]

theorem enter_eq_ok_iff : d.enter p name = .ok q ↔ d.step p name = .ok (q, .directory) := by
  unfold enter
  cases d.step p name with
  | error e => simp
  | ok r => obtain ⟨q', _ | _ | _⟩ := r <;> simp

theorem isDirectory_enter (hp : d.isDirectory p) (h : d.enter p name = .ok q) : d.isDirectory q := by
  rw [enter_eq_ok_iff] at h
  obtain hs | hs | ⟨q', hq, hs⟩ := step_cases p name
  · obtain ⟨rfl, hl⟩ := Prod.mk.inj (Except.ok.inj ((hs d).symm.trans h))
    exact isDirectory_of_look hl
  · cases (hs d).symm.trans h
  · obtain ⟨rfl, -⟩ := Prod.mk.inj (Except.ok.inj ((hs d).symm.trans h))
    obtain rfl | rfl := hq
    · exact hp
    · exact isDirectory_parent hp

/-- A way leads from directories to directories. -/
theorem isDirectory_way {way : List String} (hp : d.isDirectory p) (h : way.foldlM d.enter p = .ok base) :
    d.isDirectory base := by
  induction way generalizing p with
  | nil => cases h; exact hp
  | cons name way ih =>
    rw [List.foldlM_cons, bind_eq_ok_iff] at h
    obtain ⟨q, hq, hway⟩ := h
    exact ih (isDirectory_enter hp hq) hway

theorem isDirectory_walk {parsed : Path} (h : d.walk parsed = .ok base) : d.isDirectory base :=
  isDirectory_way (isDirectory_origin d parsed.origin) h

/-- As far as directories stay what they are, a walk leads where it did. -/
theorem walk_of_same (hsame : ∀ q, d.look q = .directory → d'.look q = .directory) {parsed : Path}
    (h : d.walk parsed = .ok base) : d'.walk parsed = .ok base := by
  unfold walk at h ⊢
  generalize parsed.way = way, (⟨parsed.origin, []⟩ : Place) = p at h ⊢
  induction way generalizing p with
  | nil => exact h
  | cons name way ih =>
    rw [List.foldlM_cons, bind_eq_ok_iff] at h ⊢
    obtain ⟨q, hq, hway⟩ := h
    refine ⟨q, ?_, ih q hway⟩
    rw [enter_eq_ok_iff] at hq ⊢
    obtain hs | hs | ⟨q', -, hs⟩ := step_cases p name
    · obtain ⟨rfl, hl⟩ := Prod.mk.inj (Except.ok.inj ((hs d).symm.trans hq))
      rw [hs, hsame _ hl]
    · rw [hs] at hq ⊢
      exact hq
    · rw [hs] at hq ⊢
      exact hq

/-! ## Writing -/

/-- The file at a place replaced, or the same file. -/
def replacing (place : Place) (content : ByteArray) (f : Place × ByteArray) : Place × ByteArray :=
  if f.1 = place then (place, content) else f

theorem replacing_fst (f : Place × ByteArray) : (replacing place content f).1 = f.1 := by
  unfold replacing
  split
  · rename_i hf
    exact hf.symm
  · rfl

/-- The place that a path which can be written to leads to. -/
structure Target (d : Directory) (path : String) (place : Place) : Prop where
  /-- The place is a child of the last directory walked to. -/
  child : ∃ parsed base, Path.ofString path = .ok parsed ∧ d.walk parsed = .ok base ∧ parsed.closed = false ∧
    place = base.child parsed.last ∧ ∀ d' : Directory, d'.step base parsed.last = .ok (place, d'.look place)
  free : d.look place ≠ .directory

theorem write_cases (h : d.write path content = .ok d') : ∃ place, d.Target path place ∧
    ((∃ old, d.look place = .file old) ∧ d' = ⟨d.files.map (replacing place content)⟩ ∨
      d.look place = .nothing ∧ d' = ⟨d.files ++ [(place, content)]⟩) := by
  unfold write at h
  obtain ⟨parsed, hparsed, h⟩ := bind_eq_ok_iff.mp h
  obtain ⟨base, hbase, h⟩ := bind_eq_ok_iff.mp h
  cases hclosed : parsed.closed with
  | true => rw [hclosed] at h; cases h
  | false =>
    rw [hclosed] at h
    obtain ⟨⟨place, found⟩, hstep, h⟩ := bind_eq_ok_iff.mp h
    have hne : found ≠ .directory := by
      intro he
      rw [he] at h
      cases h
    obtain hs | hs | ⟨q, -, hs⟩ := step_cases base parsed.last
    · obtain ⟨rfl, rfl⟩ := Prod.mk.inj (Except.ok.inj ((hs d).symm.trans hstep))
      refine ⟨_, ⟨⟨parsed, base, hparsed, hbase, hclosed, rfl, hs⟩, hne⟩, ?_⟩
      cases hl : d.look (base.child parsed.last) with
      | file old => rw [hl] at h; cases h; exact .inl ⟨⟨old, rfl⟩, rfl⟩
      | nothing => rw [hl] at h; cases h; exact .inr ⟨rfl, rfl⟩
      | directory => exact absurd hl hne
    · cases (hs d).symm.trans hstep
    · exact absurd (Prod.mk.inj (Except.ok.inj ((hs d).symm.trans hstep))).2.symm hne

/-- Replacing the content of a file leaves everything else. -/
theorem look_replacing (hfile : d.look place = .file old) (q : Place) :
    look ⟨d.files.map (replacing place content)⟩ q = if q = place then .file content else d.look q := by
  have hfind : (d.files.map (replacing place content)).find? (·.1 == q) =
      (d.files.find? (·.1 == q)).map (replacing place content) := by
    rw [List.find?_map]
    congr 2
    funext f
    exact congrArg (· == q) (replacing_fst f)
  have hdir : isDirectory ⟨d.files.map (replacing place content)⟩ q = d.isDirectory q := by
    have hkeys : (·.1) ∘ replacing place content = (·.1) := funext replacing_fst
    rw [Bool.eq_iff_iff, isDirectory_iff, isDirectory_iff, List.map_map, hkeys]
  unfold look
  rw [hfind, hdir]
  cases hf : d.files.find? (·.1 == q) with
  | none =>
    have hq : q ≠ place := by
      intro he
      obtain ⟨f, hf'⟩ := find?_of_look hfile
      rw [← he, hf] at hf'
      cases hf'
    rw [if_neg hq]
    rfl
  | some f =>
    have hq : f.1 = q := by simpa using List.find?_some hf
    subst hq
    show Found.file (replacing place content f).2 = _
    unfold replacing
    split <;> rfl

/-- What leads to a child of a directory is one. -/
theorem isDirectory_above_child (hbase : d.isDirectory base) (ho : base.origin = q.origin)
    (hp : q.names <+: base.names ++ [name]) (hne : q ≠ base.child name) : d.isDirectory q := by
  obtain ⟨origin, names⟩ := q
  dsimp only at ho hp
  subst ho
  obtain rfl | hp := List.prefix_concat_iff.mp hp
  · exact absurd rfl hne
  · exact isDirectory_of_isPrefix hp hbase

/-- A new file in a directory leaves everything else: what leads to it was a directory. -/
theorem look_appending (hbase : d.isDirectory base) (hnew : d.look (base.child name) = .nothing) (q : Place) :
    look ⟨d.files ++ [(base.child name, content)]⟩ q = if q = base.child name then .file content else d.look q := by
  have hfind : (d.files ++ [(base.child name, content)]).find? (·.1 == q) =
      (d.files.find? (·.1 == q)).or (if q = base.child name then some (base.child name, content) else none) := by
    rw [List.find?_append]
    by_cases hq : q = base.child name
    · simp [hq]
    · simp [hq, Ne.symm hq]
  unfold look at hnew ⊢
  rw [hfind]
  by_cases hq : q = base.child name
  · subst hq
    cases hf : d.files.find? (·.1 == base.child name) with
    | some f => rw [hf] at hnew; cases hnew
    | none => simp
  · have hdir : isDirectory ⟨d.files ++ [(base.child name, content)]⟩ q = d.isDirectory q := by
      rw [Bool.eq_iff_iff, isDirectory_iff, isDirectory_iff]
      simp only [List.map_append, List.mem_append, or_and_right, exists_or]
      constructor
      · intro h
        obtain hn | hold | ⟨r, hr, ho, hp, hne⟩ := h
        · exact .inl hn
        · exact .inr hold
        · obtain rfl : r = base.child name := by simpa using hr
          exact isDirectory_iff.mp (isDirectory_above_child hbase ho hp hne)
      · intro h
        obtain hn | hold := h
        · exact .inl hn
        · exact .inr (.inl hold)
    rw [if_neg hq, if_neg hq, Option.or_none, hdir]

theorem look_write (h : d.write path content = .ok d') : ∃ place, d.Target path place ∧
    ∀ q, d'.look q = if q = place then .file content else d.look q := by
  obtain ⟨place, ht, ⟨⟨old, hold⟩, rfl⟩ | ⟨hnew, rfl⟩⟩ := write_cases h
  · exact ⟨place, ht, look_replacing hold⟩
  · obtain ⟨parsed, base, -, hwalk, -, rfl, -⟩ := ht.child
    exact ⟨_, ht, look_appending (isDirectory_walk hwalk) hnew⟩

theorem read_write (h : d.write path content = .ok d') : d'.read path = .ok content := by
  obtain ⟨place, ht, hlook⟩ := look_write h
  obtain ⟨parsed, base, hparsed, hwalk, hclosed, -, hstep⟩ := ht.child
  have hsame : ∀ q, d.look q = .directory → d'.look q = .directory := by
    intro q hq
    have hne : q ≠ place := by
      intro he
      exact ht.free (he ▸ hq)
    rw [hlook, if_neg hne, hq]
  have hfound : d'.look place = .file content := by rw [hlook, if_pos rfl]
  unfold read
  refine bind_eq_ok_iff.mpr ⟨parsed, hparsed, bind_eq_ok_iff.mpr ⟨base, walk_of_same hsame hwalk, ?_⟩⟩
  refine bind_eq_ok_iff.mpr ⟨(place, .file content), by rw [hstep, hfound], ?_⟩
  rw [hclosed]
  rfl

theorem run_write (d : Directory) (path : String) (content : ByteArray) :
    (operations.write path content).run d =
      match d.write path content with
      | .ok d' => (.ok (), d')
      | .error e => (.error e, d) := by
  show (match d.write path content with
    | .ok d' => (do set d'; return .ok () : StateM Directory (Except FileError Unit))
    | .error e => return .error e).run d = _
  cases d.write path content <;> rfl

theorem operations_atomic : operations.Atomic where
  read _ _ := rfl
  write path content d e d' h := by
    rw [run_write] at h
    cases hw : d.write path content with
    | ok d'' => rw [hw] at h; cases h
    | error e' => rw [hw] at h; exact (Prod.mk.inj h).2.symm

theorem write_of_run (h : (operations.write path content).run d = (.ok (), d')) : d.write path content = .ok d' := by
  rw [run_write] at h
  cases hw : d.write path content with
  | ok d'' => rw [hw] at h; exact congrArg _ (Prod.mk.inj h).2
  | error e => rw [hw] at h; cases h

end Directory

end Harvest
