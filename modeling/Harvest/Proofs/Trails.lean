/-
  Harvest.Proofs.Trails — the path that is written tells the value it leads to.

  A trail leads from a value to one inside it, through an entry after the other (`Leads`). The
  scalar that a match reports at a path is at the end of the trail with these hops
  (`Spec.leads_of_mem_mismatches`).

  In the text of a path a hop opens with a point or a bracket. Where no name holds one of
  these, the text falls apart into the texts of the hops in one way only, however the names
  and the positions look otherwise (`map_text_eq_of_pathText_eq`). In a document these texts
  tell the entries of a container apart: members have distinct names, and items have none
  but distinct positions. So two trails with one text are the same, from the first entry to
  the last (`Leads.unique`). A point or a bracket in a name can make one text of two trails.
-/

import Harvest.Proofs.Skips
import Harvest.Proofs.Written

namespace Harvest

/-! ## Trails into a value -/

section

variable {V : Type}

/-- The entries through which one comes to a value, each in what the one before it holds. -/
abbrev Trail (V : Type) := List (Entry V)

def Trail.hops (t : Trail V) : List Hop := t.map Entry.hop

/-- The entries of the legs of a route. -/
def Route.trail (r : Route V) : Trail V := r.map (·.entry)

theorem Route.hops_trail (r : Route V) : r.trail.hops = r.hops := List.map_map

variable [Nesting V]

/-- The trail goes from a value to one inside it. -/
inductive Leads : V → Trail V → V → Prop
  | here (v : V) : Leads v [] v
  | into {v w : V} {entries : List (Entry V)} {e : Entry V} {t : Trail V} :
      Nesting.entries v = some entries → e ∈ entries → Leads e.value t w → Leads v (e :: t) w

theorem Enters.leads {node last : Spec} {entries inside : List (Entry V)} {r : Route V}
    (h : Enters node entries r last inside) {v : V} {all : List (Entry V)} (hv : Nesting.entries v = some all)
    (hsub : ∀ e ∈ entries, e ∈ all) {e : Entry V} (he : e ∈ inside) : Leads v (r.trail ++ [e]) e.value := by
  induction h generalizing v all with
  | here => exact .into hv (hsub e he) (.here e.value)
  | further hfits _ hinside _ ih =>
    exact .into hv (hsub _ (List.mem_of_getElem? hfits.entry)) (ih hinside (fun _ hmem => hmem) he)

namespace Spec

variable {root : Spec} {v : V}

theorem IsRoute.leads {entered : Route V} {leg : Leg V} (h : root.IsRoute v (entered ++ [leg])) :
    Leads v (Route.trail (entered ++ [leg])) leg.entry.value := by
  generalize hr : entered ++ [leg] = r at h
  cases h with
  | leaf _ hv _ hplace _ =>
    obtain ⟨-, hleg⟩ := List.append_inj' (hr.trans (List.nil_append _).symm) rfl
    cases hleg
    exact .into hv (List.mem_of_getElem? hplace) (.here _)
  | inner _ hv _ henters hfits =>
    obtain ⟨rfl, hleg⟩ := List.append_inj' hr rfl
    cases hleg
    rw [Route.trail, List.map_append]
    exact henters.leads hv (fun e he => List.mem_of_mem_filter he) (List.mem_of_getElem? hfits.entry)

/-- What is reported of a skipped branch is the scalar that a trail with its path leads to. -/
theorem leads_of_mem_mismatches {m : Mismatch V} (h : m ∈ (Event.yieldOf (root.trace v)).mismatches) :
    ∃ t, Leads v t m.found ∧ m.path = t.hops ∧ Nesting.entries m.found = none := by
  rw [mismatches_trace] at h
  obtain ⟨stop, hs, hm⟩ := List.mem_filterMap.mp h
  obtain ⟨a, hmisses⟩ : ∃ a, root.Misses v a m := ⟨_, misses_iff.mpr ⟨stop, hs, rfl, hm⟩⟩
  cases hmisses with
  | root _ hv => exact ⟨[], .here v, rfl, hv⟩
  | below hr _ he => exact ⟨_, hr.leads, (Route.hops_trail _).symm, he⟩

end Spec

end

/-! ## Words with an opening letter -/

section

variable {α : Type} {p : α → Bool}

/-- The word begins with a letter of some kind and has no other further on. -/
def Opens (p : α → Bool) (word : List α) : Prop :=
  ∃ a rest, word = a :: rest ∧ p a = true ∧ ∀ b ∈ rest, p b = false

/-- A word ends where the next one opens, if there is a next one. -/
theorem takeWhile_append_flatten {rest : List α} {l : List (List α)} (hrest : ∀ b ∈ rest, p b = false)
    (hl : ∀ w ∈ l, Opens p w) : (rest ++ l.flatten).takeWhile (!p ·) = rest := by
  rw [List.takeWhile_append_of_pos fun b hb => by rw [hrest b hb]; rfl]
  cases l with
  | nil => exact List.append_nil rest
  | cons w l =>
    obtain ⟨a, t, rfl, ha, -⟩ := hl w (List.mem_cons_self ..)
    rw [List.flatten_cons, List.cons_append, List.takeWhile_cons_of_neg (by simp [ha]), List.append_nil]

/-- Such words can be told from what they are when written one after the other. -/
theorem eq_of_flatten_eq {l m : List (List α)} (hl : ∀ w ∈ l, Opens p w) (hm : ∀ w ∈ m, Opens p w)
    (h : l.flatten = m.flatten) : l = m := by
  induction l generalizing m with
  | nil =>
    cases m with
    | nil => rfl
    | cons w m =>
      obtain ⟨a, t, rfl, -⟩ := hm w (List.mem_cons_self ..)
      cases h
  | cons w l ih =>
    cases m with
    | nil =>
      obtain ⟨a, t, rfl, -⟩ := hl w (List.mem_cons_self ..)
      cases h
    | cons w' m =>
      rw [List.forall_mem_cons] at hl hm
      obtain ⟨⟨a, t, rfl, -, ht⟩, hl⟩ := hl
      obtain ⟨⟨a', t', rfl, -, ht'⟩, hm⟩ := hm
      simp only [List.flatten_cons, List.cons_append, List.cons.injEq] at h
      obtain ⟨rfl, hrest⟩ := h
      have htail : t = t' := by rw [← takeWhile_append_flatten ht hl, hrest, takeWhile_append_flatten ht' hm]
      subst htail
      rw [ih hl hm (List.append_cancel_left hrest)]

end

/-! ## The text of a path -/

/-- The letters that a hop opens with in the text of a path. -/
def opensHop (c : Char) : Bool := c == '.' || c == '['

/-- The name of the hop, if it has one, holds no letter that a hop opens with. -/
def Hop.Clear (h : Hop) : Prop := ∀ name, h.name = some name → '.' ∉ name.toList ∧ '[' ∉ name.toList

theorem opensHop_eq_false_iff {c : Char} : opensHop c = false ↔ c ≠ '.' ∧ c ≠ '[' := by
  simp [opensHop]

namespace Hop

theorem Clear.opens_text {h : Hop} (hc : h.Clear) : Opens opensHop h.text.toList := by
  obtain ⟨position, _ | name⟩ := h
  · refine ⟨'[', (toString position).toList ++ [']'], ?_, rfl, ?_⟩
    · simp [text]
    · intro c hmem
      rw [opensHop_eq_false_iff]
      rcases List.mem_append.mp hmem with hmem | hmem
      · rw [Nat.toString_eq_ofList_toDigits, String.toList_ofList] at hmem
        have hdigit : c.isDigit := Nat.isDigit_of_mem_toDigits (by decide) (by decide) hmem
        constructor <;> rintro rfl <;> exact absurd hdigit (by decide)
      · rw [List.mem_singleton.mp hmem]
        decide
  · obtain ⟨hpoint, hbracket⟩ := hc name rfl
    refine ⟨'.', name.toList, by simp [text], rfl, ?_⟩
    intro c hmem
    rw [opensHop_eq_false_iff]
    exact ⟨fun h => hpoint (h ▸ hmem), fun h => hbracket (h ▸ hmem)⟩

/-- The text tells the name, and the position where there is none. -/
theorem text_inj {h h' : Hop} (ht : h.text = h'.text) :
    h.name = h'.name ∧ (h.name = none → h.position = h'.position) := by
  obtain ⟨position, _ | name⟩ := h <;> obtain ⟨position', _ | name'⟩ := h'
  · have ht : "[" ++ toString position ++ "]" = "[" ++ toString position' ++ "]" := ht
    have hdigits := (String.append_right_inj _).mp ((String.append_left_inj _).mp ht)
    have hnumber := congrArg (fun s => Nat.ofDigitChars 10 s.toList 0) hdigits
    exact ⟨rfl, fun _ => by simpa [Nat.toString_eq_ofList_toDigits] using hnumber⟩
  · have hlist := congrArg String.toList ht
    simp [text] at hlist
  · have hlist := congrArg String.toList ht
    simp [text] at hlist
  · have ht : "." ++ name = "." ++ name' := ht
    exact ⟨congrArg some ((String.append_right_inj _).mp ht), nofun⟩

end Hop

/-- The text of a path is that of its hops in one way only. -/
theorem map_text_eq_of_pathText_eq {l m : List Hop} (hl : ∀ h ∈ l, h.Clear) (hm : ∀ h ∈ m, h.Clear)
    (h : pathText l = pathText m) : l.map Hop.text = m.map Hop.text := by
  have hflatten : ((l.map Hop.text).map String.toList).flatten = ((m.map Hop.text).map String.toList).flatten := by
    have hjoin := congrArg String.toList ((String.append_right_inj _).mp h)
    rwa [String.toList_join, String.toList_join] at hjoin
  have hopens : ∀ {l : List Hop}, (∀ h ∈ l, h.Clear) →
      ∀ w ∈ (l.map Hop.text).map String.toList, Opens opensHop w := by
    intro l hl
    simp only [List.forall_mem_map]
    exact fun h hmem => (hl h hmem).opens_text
  exact (List.map_inj_right fun _ _ => String.toList_inj.mp).mp
    (eq_of_flatten_eq (hopens hl) (hopens hm) hflatten)

/-! ## Documents -/

namespace Json

/-- Hops tell the entries of a container apart by their texts. -/
theorem IsDocument.entry_eq {v : Json} (hv : v.IsDocument) {entries : List (Entry Json)}
    (hentries : Nesting.entries v = some entries) {e e' : Entry Json} (he : e ∈ entries) (he' : e' ∈ entries)
    (ht : e.hop.text = e'.hop.text) : e = e' := by
  obtain ⟨hname, hposition⟩ := Hop.text_inj ht
  cases hv with
  | array _ =>
    cases hentries
    obtain ⟨i, hi, rfl⟩ := List.mem_mapIdx.mp he
    obtain ⟨j, hj, rfl⟩ := List.mem_mapIdx.mp he'
    have hij : i = j := hposition rfl
    subst hij
    rfl
  | @object members hnames _ =>
    cases hentries
    obtain ⟨i, hi, rfl⟩ := List.mem_mapIdx.mp he
    obtain ⟨j, hj, rfl⟩ := List.mem_mapIdx.mp he'
    have hij : i = j :=
      (@List.Nodup.getElem_inj_iff _ _ hnames i (by simpa using hi) j (by simpa using hj)).mp
        (by simpa [Entry.hop] using hname)
    subst hij
    rfl
  | _ => cases hentries

mutual

/-- The names of the members in a document, at any depth. -/
def memberNames : Json → List String
  | .array items => memberNamesItems items
  | .object members => memberNamesMembers members
  | _ => []

def memberNamesItems : List Json → List String
  | [] => []
  | v :: rest => memberNames v ++ memberNamesItems rest

def memberNamesMembers : List (String × Json) → List String
  | [] => []
  | (name, v) :: rest => name :: memberNames v ++ memberNamesMembers rest

end

theorem memberNamesItems_eq_flatMap (l : List Json) : memberNamesItems l = l.flatMap memberNames := by
  induction l with
  | nil => rfl
  | cons v l ih => rw [memberNamesItems, ih, List.flatMap_cons]

theorem memberNamesMembers_eq_flatMap (l : List (String × Json)) :
    memberNamesMembers l = l.flatMap fun m => m.1 :: m.2.memberNames := by
  induction l with
  | nil => rfl
  | cons m l ih => rw [memberNamesMembers, ih, List.flatMap_cons]

/-- The names at an entry and inside it are among those of the document. -/
theorem memberNames_of_entry {v : Json} {entries : List (Entry Json)} (hentries : Nesting.entries v = some entries)
    {e : Entry Json} (he : e ∈ entries) : e.name.toList ++ e.value.memberNames ⊆ v.memberNames := by
  cases v with
  | array items =>
    cases hentries
    obtain ⟨i, hi, rfl⟩ := List.mem_mapIdx.mp he
    rw [memberNames, memberNamesItems_eq_flatMap]
    exact fun _ hname => List.mem_flatMap.mpr ⟨_, List.getElem_mem hi, hname⟩
  | object members =>
    cases hentries
    obtain ⟨i, hi, rfl⟩ := List.mem_mapIdx.mp he
    rw [memberNames, memberNamesMembers_eq_flatMap]
    exact fun _ hname => List.mem_flatMap.mpr ⟨_, List.getElem_mem hi, hname⟩
  | _ => cases hentries

end Json

namespace Leads

variable {v w w' : Json} {t t' : Trail Json}

theorem name_mem (h : Leads v t w) {e : Entry Json} (hmem : e ∈ t) {name : String} (hn : e.name = some name) :
    name ∈ v.memberNames := by
  induction h with
  | here => cases hmem
  | into hentries he _ ih =>
    have hnames := Json.memberNames_of_entry hentries he
    rcases List.mem_cons.mp hmem with rfl | hmem
    · exact hnames (List.mem_append_left _ (Option.mem_toList.mpr hn))
    · exact hnames (List.mem_append_right _ (ih hmem))

/-- In a document trails whose hops have the same texts are the same, and lead to the same value. -/
theorem unique (hv : v.IsDocument) (h : Leads v t w) (h' : Leads v t' w')
    (ht : t.hops.map Hop.text = t'.hops.map Hop.text) : t = t' ∧ w = w' := by
  induction h generalizing t' with
  | here =>
    cases List.map_eq_nil_iff.mp (List.map_eq_nil_iff.mp ht.symm)
    cases h'
    exact ⟨rfl, rfl⟩
  | into hentries he _ ih =>
    cases h' with
    | here => cases ht
    | into hentries' he' h' =>
      cases hentries.symm.trans hentries'
      obtain ⟨hhop, hrest⟩ := List.cons.inj ht
      cases hv.entry_eq hentries he he' hhop
      obtain ⟨rfl, rfl⟩ := ih (hv.of_entry hentries he) h' hrest
      exact ⟨rfl, rfl⟩

/-- So are trails whose path is written in the same way, where no name on them holds what opens a hop. -/
theorem unique_of_pathText_eq (hv : v.IsDocument) (h : Leads v t w) (h' : Leads v t' w')
    (hc : ∀ e ∈ t, e.hop.Clear) (hc' : ∀ e ∈ t', e.hop.Clear) (ht : pathText t.hops = pathText t'.hops) :
    t = t' ∧ w = w' :=
  h.unique hv h' (map_text_eq_of_pathText_eq (List.forall_mem_map.mpr hc) (List.forall_mem_map.mpr hc') ht)

theorem clear (h : Leads v t w) (hnames : ∀ name ∈ v.memberNames, '.' ∉ name.toList ∧ '[' ∉ name.toList) :
    ∀ e ∈ t, e.hop.Clear :=
  fun _ hmem name hn => hnames name (h.name_mem hmem hn)

end Leads

/-- The mismatch is about the scalar at the end of the trail, and tells its kind. -/
structure Mismatch.IsAt (m : Mismatch Json) (t : Trail Json) (scalar : Json) : Prop where
  path : m.path = t.hops
  found : m.found = scalar
  kind : m.kind = Nesting.kind scalar

/-- Two trails into a document have paths that are written alike only if a name on one of them holds
    a point or an opening bracket. So if no member of a document has such a name, two mismatches
    with one path are about one scalar in it. -/
theorem one_path_one_value {v : Json} (hv : v.IsDocument) :
    (∀ {t t' : Trail Json} {w w' : Json}, Leads v t w → Leads v t' w' → t ≠ t' → pathText t.hops = pathText t'.hops →
      ∃ e ∈ t ++ t', ∃ name, e.name = some name ∧ ('.' ∈ name.toList ∨ '[' ∈ name.toList)) ∧
    ∀ {s : Spec} {y : Yield Json}, s.gatherLenient v = .ok y →
      (∀ name ∈ v.memberNames, '.' ∉ name.toList ∧ '[' ∉ name.toList) →
        ∀ m ∈ y.mismatches, ∀ m' ∈ y.mismatches, pathText m.path = pathText m'.path →
          ∃ t scalar, Leads v t scalar ∧ Nesting.entries scalar = none ∧ m.IsAt t scalar ∧ m'.IsAt t scalar := by
  constructor
  · intro t t' w w' h h' hne ht
    by_contra hnone
    have hclear : ∀ e ∈ t ++ t', e.hop.Clear := by
      intro e hmem name hn
      rw [← not_or]
      exact fun hopens => hnone ⟨e, hmem, name, hn, hopens⟩
    rw [List.forall_mem_append] at hclear
    exact hne (h.unique_of_pathText_eq hv h' hclear.1 hclear.2 ht).1
  · intro s y hy hnames m hm m' hm' ht
    obtain ⟨-, rfl⟩ := Spec.gatherLenient_eq_ok_iff.mp hy
    obtain ⟨t, h, hpath, hscalar⟩ := Spec.leads_of_mem_mismatches hm
    obtain ⟨t', h', hpath', -⟩ := Spec.leads_of_mem_mismatches hm'
    rw [hpath, hpath'] at ht
    obtain ⟨rfl, hfound⟩ := h.unique_of_pathText_eq hv h' (h.clear hnames) (h'.clear hnames) ht
    exact ⟨t, m.found, h, hscalar, ⟨hpath, rfl, rfl⟩, hpath', hfound.symm, congrArg Nesting.kind hfound.symm⟩

/-- A name with a point looks like two hops. In the second document an empty name, a digit for a
    name and a name that closes a bracket are told from the position they look like; two nodes
    skip each of its scalars. -/
theorem one_path_one_value_behind_odd_names :
    (let inner : Json := .object [("b", .null)]
     let v : Json := .object [("a", inner), ("a.b", .bool true)]
     let t : Trail Json := [⟨0, some "a", inner⟩, ⟨0, some "b", .null⟩]
     let t' : Trail Json := [⟨1, some "a.b", .bool true⟩]
     v.IsDocument ∧ Leads v t .null ∧ Leads v t' (.bool true) ∧ t ≠ t' ∧ pathText t.hops = pathText t'.hops ∧
       ∃ e ∈ t ++ t', ∃ name, e.name = some name ∧ ('.' ∈ name.toList ∨ '[' ∈ name.toList)) ∧
    (let inner : Spec := { children := [{ children := [{}] }] }
     let s : Spec := .refresh { children := [inner, inner] }
     let v : Json := .object [("", .object [("0]", .null)]), ("0", .array [.bool true])]
     v.IsDocument ∧ (∀ name ∈ v.memberNames, '.' ∉ name.toList ∧ '[' ∉ name.toList) ∧
       ∃ y, s.gatherLenient v = .ok y ∧
         y.mismatches.map (fun m => (pathText m.path, m.kind)) =
           [("$..0]", "null"), ("$.0[0]", "bool"), ("$..0]", "null"), ("$.0[0]", "bool")] ∧
         ∀ m ∈ y.mismatches, ∀ m' ∈ y.mismatches, pathText m.path = pathText m'.path →
           ∃ t scalar, Leads v t scalar ∧ Nesting.entries scalar = none ∧ m.IsAt t scalar ∧ m'.IsAt t scalar) := by
  constructor
  · intro inner v t t'
    have hinner : inner.IsDocument := .object (by decide) (List.forall_mem_singleton.mpr Json.IsDocument.null)
    have hbool : Json.IsDocument (.bool true) := .bool true
    have hv : v.IsDocument :=
      .object (by decide) (List.forall_mem_cons.mpr ⟨hinner, List.forall_mem_singleton.mpr hbool⟩)
    have h : Leads v t .null :=
      .into rfl (List.mem_cons_self ..) (.into rfl (List.mem_singleton_self _) (.here _))
    have h' : Leads v t' (.bool true) := .into rfl (List.mem_cons_of_mem _ (List.mem_singleton_self _)) (.here _)
    have hne : t ≠ t' := fun heq => absurd (congrArg List.length heq) (by decide)
    have ht : pathText t.hops = pathText t'.hops := by decide +kernel
    exact ⟨hv, h, h', hne, ht, (one_path_one_value hv).1 h h' hne ht⟩
  · intro inner s v
    have hobject : Json.IsDocument (.object [("0]", .null)]) :=
      .object (by decide) (List.forall_mem_singleton.mpr Json.IsDocument.null)
    have harray : Json.IsDocument (.array [.bool true]) :=
      .array (List.forall_mem_singleton.mpr (Json.IsDocument.bool true))
    have hv : v.IsDocument :=
      .object (by decide) (List.forall_mem_cons.mpr ⟨hobject, List.forall_mem_singleton.mpr harray⟩)
    have hnames : ∀ name ∈ v.memberNames, '.' ∉ name.toList ∧ '[' ∉ name.toList := by decide +kernel
    have hy : s.gatherLenient v = .ok _ := rfl
    exact ⟨hv, hnames, _, hy, by decide +kernel, (one_path_one_value hv).2 hy hnames⟩

end Harvest
