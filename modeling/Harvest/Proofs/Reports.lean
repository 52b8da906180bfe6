/-
  Harvest.Proofs.Reports — what can be read out of a report that was put out as a document.

  Records hold entries of the input, however deep the walk went: what holds of the entries
  of a value, and passes on to the entries of what is in them, holds of whatever a match
  puts out (`Spec.forall_record`). An entry nests fewer containers than what it stands in.
  The document puts a surfaced value into three more, its row, the list of rows and the
  report; so with up to 125 in the input there are at most 127, and these can be read.

  A report on an input without doubles is then read as it was made, and has a row for each
  record in their order (`Json.IsRowOf`), the messages in theirs, and totals that count the
  rows as they are listed, each kind by itself, and the messages (`Json.IsTotalsOf`). Its
  numbers are counts and positions, which are read as whole numbers as long as they are
  machine words (`Report.Fits`).
-/

import Harvest.Report.Json
import Harvest.Proofs.Outputs
import Harvest.Proofs.ReadBack
import Harvest.Proofs.Routes

namespace Harvest

/-! ## What records hold -/

section

variable {V : Type} [Nesting V] {P : V → Prop}

theorem Enters.forall_inside (hP : ∀ c entries, P c → Nesting.entries c = some entries → ∀ e ∈ entries, P e.value)
    {node last : Spec} {entries inside : List (Entry V)} {r : Route V} (h : Enters node entries r last inside)
    (he : ∀ e ∈ entries, P e.value) : ∀ e ∈ inside, P e.value := by
  induction h with
  | here => exact he
  | further hfits _ hinside _ ih => exact ih (hP _ _ (he _ (List.mem_of_getElem? hfits.entry)) hinside)

namespace Spec

omit [Nesting V] in
theorem entry_of_mem_ordinals {node : Spec} {e : Entry V} {record : Record V} (h : record ∈ node.ordinals e) :
    record.entry = e := by
  unfold ordinals at h
  split at h
  · rw [List.mem_singleton.mp h]
  · cases h

theorem entry_of_mem_routeRecords {root : Spec} {r : Route V} {record : Record V} (h : record ∈ r.records root) :
    ∃ leg, r.getLast? = some leg ∧ record.entry = leg.entry := by
  unfold Route.records at h
  split at h
  · cases h
  · rename_i leg hl
    refine ⟨leg, hl, ?_⟩
    rcases List.mem_append.mp h with h | h
    · split at h
      · exact entry_of_mem_ordinals h
      · cases h
    · split at h
      · rw [List.mem_singleton.mp h]
      · cases h

/-- What holds of the entries of a value, and passes on to the entries of what is in them, holds of
    each entry that is put out. -/
theorem forall_record (hP : ∀ c entries, P c → Nesting.entries c = some entries → ∀ e ∈ entries, P e.value)
    {root : Spec} {v : V} (hv : ∀ entries, Nesting.entries v = some entries → ∀ e ∈ entries, P e.value)
    {record : Record V} (h : record ∈ (Event.yieldOf (root.trace v)).records) : P record.entry.value := by
  rw [records_trace] at h
  rcases List.mem_append.mp h with h | h
  · unfold rootOrdinals at h
    split at h
    · cases h
    · split at h
      · cases h
      · rename_i entries he
        obtain ⟨e, hmem, hr⟩ := List.mem_flatMap.mp h
        rw [entry_of_mem_ordinals hr]
        exact hv _ he e (List.mem_of_mem_filter hmem)
  · obtain ⟨r, hroute, hr⟩ := List.mem_flatMap.mp h
    obtain ⟨leg, hl, hentry⟩ := entry_of_mem_routeRecords hr
    rw [hentry]
    cases mem_routes.mp hroute with
    | leaf _ he _ hplace _ =>
      cases hl
      exact hv _ he _ (List.mem_of_getElem? hplace)
    | inner _ he _ henters hfits =>
      rw [List.getLast?_concat] at hl
      cases hl
      refine henters.forall_inside hP (fun e hmem => hv _ he e (List.mem_of_mem_filter hmem)) _ ?_
      exact List.mem_of_getElem? hfits.entry

end Spec

end

/-! ## Documents that are read back -/

namespace Json

/-- A document without doubles, with no more containers in one another than there is room for. -/
structure Plain (room : Nat) (v : Json) : Prop where
  document : v.IsDocument
  floatFree : v.FloatFree
  depth : v.depth ≤ room

namespace Plain

variable {room : Nat} {v : Json}

theorem null : Plain room .null := ⟨.null, .null, Nat.zero_le _⟩

theorem string (s : String) : Plain room (.string s) := ⟨.string s, .string s, Nat.zero_le _⟩

theorem text? (o : Option String) : Plain room (.text? o) := by
  cases o with
  | none => exact null
  | some s => exact string s

theorem nat {n : Nat} (h : n < 2 ^ 64) : Plain room (.nat n) :=
  ⟨.int (by omega) (by omega), .int n, Nat.zero_le _⟩

theorem array {items : List Json} (h : ∀ w ∈ items, Plain room w) : Plain (room + 1) (.array items) :=
  ⟨.array fun w hw => (h w hw).document, .array fun w hw => (h w hw).floatFree,
    Nat.succ_le_succ (depthAll_le_iff.mpr fun w hw => (h w hw).depth)⟩

theorem object {members : List (String × Json)} (hn : (members.map (·.1)).Nodup) (h : ∀ m ∈ members, Plain room m.2) :
    Plain (room + 1) (.object members) :=
  ⟨.object hn fun m hm => (h m hm).document, .object fun m hm => (h m hm).floatFree,
    Nat.succ_le_succ (depthMembers_le_iff.mpr fun m hm => (h m hm).depth)⟩

theorem mono {more : Nat} (h : Plain room v) (hle : room ≤ more) : Plain more v :=
  ⟨h.document, h.floatFree, h.depth.trans hle⟩

/-- There is room for one container less in an entry than in what it stands in. -/
theorem of_entry (h : Plain (room + 1) v) {entries : List (Entry Json)} (he : Nesting.entries v = some entries)
    {e : Entry Json} (hmem : e ∈ entries) : Plain room e.value :=
  ⟨h.document.of_entry he hmem, h.floatFree.of_entry he hmem,
    Nat.le_of_lt_succ ((depth_lt_of_entry he hmem).trans_le h.depth)⟩

end Plain

theorem Plain.of_record {room : Nat} {v : Json} (h : Plain (room + 1) v) {root : Spec} {record : Record Json}
    (hr : record ∈ (Event.yieldOf (root.trace v)).records) : Plain room record.entry.value :=
  Spec.forall_record (fun _ _ hc he _ hmem => (hc.mono (Nat.le_succ room)).of_entry he hmem)
    (fun _ he _ hmem => h.of_entry he hmem) hr

end Json

/-! ## The document of a report -/

/-- The counts and the positions in the report are machine words. -/
structure Report.Fits (r : Report) : Prop where
  rows : r.rows.length < 2 ^ 64
  mismatches : r.mismatches.length < 2 ^ 64
  positions : ∀ row ∈ r.rows, row.position < 2 ^ 64

theorem Row.plain_toJson {room : Nat} {record : Record Json} (hposition : record.entry.position < 2 ^ 64)
    (hvalue : Json.Plain room record.entry.value) : Json.Plain (room + 1) (Row.ofRecord record).toJson := by
  have hnames : ["ix", "kind", "spec_name", "elem_name", "stack", "process", "value"].Nodup := by decide
  have hsurface : Json.Plain room ((Row.ofRecord record).value.getD .null) := by
    unfold ofRecord
    cases record.kind with
    | ordinal => exact .nat hposition
    | value =>
      cases record.node.process with
      | asis => exact hvalue
      | paste => exact .string _
      | none => exact .null
  refine .object hnames ?_
  simp only [List.forall_mem_cons, List.not_mem_nil, false_implies, implies_true, and_true]
  exact ⟨.nat hposition, .string _, .text? _, .text? _, .string _, .string _, hsurface⟩

namespace Report

variable {r : Report}

theorem Fits.count_lt (h : r.Fits) (kind : RecordKind) : r.count kind < 2 ^ 64 :=
  List.countP_le_length.trans_lt h.rows

theorem plain_totals (h : r.Fits) {room : Nat} : Json.Plain (room + 1) r.totals := by
  have hnames : ["records", "values", "ordinals", "mismatches"].Nodup := by decide
  refine .object hnames ?_
  simp only [List.forall_mem_cons, List.not_mem_nil, false_implies, implies_true, and_true]
  exact ⟨.nat h.rows, .nat (h.count_lt .value), .nat (h.count_lt .ordinal), .nat h.mismatches⟩

/-- A surfaced value stands three containers deeper in the document than it did by itself. -/
theorem plain_toJson {s : Spec} {y : Yield Json} (h : (ofYield s y).Fits) {room : Nat}
    (hvalues : ∀ record ∈ y.records, Json.Plain room record.entry.value) :
    Json.Plain (room + 3) (ofYield s y).toJson := by
  have hnames : ["spec", "records", "mismatches", "totals"].Nodup := by decide
  have hrows : Json.Plain (room + 2) (.array ((ofYield s y).rows.map Row.toJson)) := by
    refine .array ?_
    simp only [ofYield, List.map_map, List.forall_mem_map]
    intro record hr
    exact Row.plain_toJson (h.positions _ (List.mem_map_of_mem hr)) (hvalues record hr)
  have hmismatches : Json.Plain (room + 2) (.array ((ofYield s y).mismatches.map .string)) := by
    refine .array ?_
    simp only [List.forall_mem_map]
    exact fun text _ => .string text
  refine .object hnames ?_
  simp only [List.forall_mem_cons, List.not_mem_nil, false_implies, implies_true, and_true]
  exact ⟨.string _, hrows, hmismatches, plain_totals h⟩

end Report

/-! ## What the document says -/

namespace Json

/-- The row says which record it stands for, and surfaces of it what its kind and its node ask for. -/
structure IsRowOf (record : Record Json) (row : Json) : Prop where
  position : row.member? "ix" = some (.int record.entry.position)
  kind : row.member? "kind" = some (.string (match record.kind with
    | .value => "value"
    | .ordinal => "ordinal"))
  specName : row.member? "spec_name" = some (record.specName.elim .null .string)
  elementName : row.member? "elem_name" = some (record.entry.name.elim .null .string)
  stack : row.member? "stack" = some (.string (match record.node.stack with
    | .stack => "STACK"
    | .spread => "SPREAD"
    | .auto => "AUTO"))
  process : row.member? "process" = some (.string (match record.node.process with
    | .asis => "ASIS"
    | .paste => "PASTE"
    | .none => "NONE"))
  ordinal : record.kind = .ordinal → row.member? "value" = some (.int record.entry.position)
  asis : record.kind = .value → record.node.process = .asis → row.member? "value" = some record.entry.value
  paste : record.kind = .value → record.node.process = .paste →
    row.member? "value" = some (.string record.entry.value.paste)
  none : record.kind = .value → record.node.process = .none → row.member? "value" = some .null

/-- Whether the row names the kind as its own. -/
def isOfKind (kind : String) (row : Json) : Bool :=
  match row.member? "kind" with
  | some (.string s) => s == kind
  | _ => false

/-- The totals count these rows, each kind by itself, and these messages. -/
structure IsTotalsOf (rows messages : List Json) (totals : Json) : Prop where
  records : totals.member? "records" = some (.int rows.length)
  values : totals.member? "values" = some (.int (rows.countP (isOfKind "value")))
  ordinals : totals.member? "ordinals" = some (.int (rows.countP (isOfKind "ordinal")))
  mismatches : totals.member? "mismatches" = some (.int messages.length)
  kinds : rows.length = rows.countP (isOfKind "value") + rows.countP (isOfKind "ordinal")

/-- The document has a row for each record and a text for each mismatch in their order, and totals that count
    what it lists. -/
structure IsReportOn (s : Spec) (y : Yield Json) (doc : Json) : Prop where
  spec : doc.member? "spec" = some (.string s.text)
  lists : ∃ rows messages totals, doc.member? "records" = some (.array rows) ∧
    doc.member? "mismatches" = some (.array messages) ∧ doc.member? "totals" = some totals ∧
    List.Forall₂ IsRowOf y.records rows ∧ messages = y.mismatches.map (fun m => .string m.message) ∧
    totals.IsTotalsOf rows messages

end Json

namespace Row

theorem isRowOf_toJson (record : Record Json) : Json.IsRowOf record (ofRecord record).toJson := by
  have hvalue : (ofRecord record).toJson.member? "value" = some ((ofRecord record).value.getD .null) := rfl
  have hordinal : record.kind = .ordinal → (ofRecord record).value = some (.nat record.entry.position) := by
    intro hk
    rw [ofRecord, hk]
  have hsurface : record.kind = .value → (ofRecord record).value = record.node.process.surface record.entry.value := by
    intro hk
    rw [ofRecord, hk]
  have htext : ∀ o : Option String, Json.text? o = o.elim .null .string := by
    intro o
    cases o <;> rfl
  exact {
    position := rfl
    kind := rfl
    specName := congrArg some (htext record.specName)
    elementName := congrArg some (htext record.entry.name)
    stack := rfl
    process := rfl
    ordinal := fun hk => by rw [hvalue, hordinal hk]; rfl
    asis := fun hk hp => by rw [hvalue, hsurface hk, hp]; rfl
    paste := fun hk hp => by rw [hvalue, hsurface hk, hp]; rfl
    none := fun hk hp => by rw [hvalue, hsurface hk, hp]; rfl }

theorem isOfKind_toJson (row : Row) (kind : RecordKind) : row.toJson.isOfKind kind.text = (row.kind == kind) := by
  have hkind : row.toJson.isOfKind kind.text = (row.kind.text == kind.text) := rfl
  rw [hkind]
  cases row.kind <;> cases kind <;> rfl

end Row

namespace Report

theorem length_rows_eq (r : Report) : r.rows.length = r.count .value + r.count .ordinal := by
  have hkinds : (fun row : Row => row.kind == .ordinal) = fun row => decide ¬(row.kind == .value) = true := by
    funext row
    cases row.kind <;> rfl
  rw [count, count, hkinds]
  exact List.length_eq_countP_add_countP _

theorem isTotalsOf_totals (r : Report) :
    r.totals.IsTotalsOf (r.rows.map Row.toJson) (r.mismatches.map .string) := by
  have hcount : ∀ kind : RecordKind, (r.rows.map Row.toJson).countP (Json.isOfKind kind.text) = r.count kind := by
    intro kind
    rw [List.countP_map, count]
    exact List.countP_congr fun row _ => by simp [Row.isOfKind_toJson]
  have hvalues : (r.rows.map Row.toJson).countP (Json.isOfKind "value") = r.count .value := hcount .value
  have hordinals : (r.rows.map Row.toJson).countP (Json.isOfKind "ordinal") = r.count .ordinal := hcount .ordinal
  exact {
    records := by rw [List.length_map]; rfl
    values := by rw [hvalues]; rfl
    ordinals := by rw [hordinals]; rfl
    mismatches := by rw [List.length_map]; rfl
    kinds := by rw [hvalues, hordinals, List.length_map, length_rows_eq] }

theorem isReportOn_toJson (s : Spec) (y : Yield Json) : Json.IsReportOn s y (ofYield s y).toJson := by
  refine ⟨rfl, _, _, _, rfl, rfl, rfl, ?_, ?_, isTotalsOf_totals (ofYield s y)⟩
  · simp only [ofYield, List.map_map, List.forall₂_map_right_iff, List.forall₂_same]
    exact fun record _ => Row.isRowOf_toJson record
  · simp only [ofYield, List.map_map, Function.comp_def]

end Report

/-- The document put out for a match of an input without doubles, which nests at most 125 containers,
    can be loaded, and says what the match found. -/
theorem report_is_loaded_as_it_was_made {s : Spec} (hs : s.Fresh) {v : Json} (hv : v.IsDocument) (hf : v.FloatFree)
    (hd : v.depth ≤ 125) :
    ∃ y, s.gatherLenient v = .ok y ∧ ((Report.ofYield s y).Fits →
      ∃ doc, (∀ path, documentOf path (.ok (Report.ofYield s y).jsonText.toUTF8) = .ok doc) ∧ doc.IsReportOn s y) := by
  refine ⟨_, hs.gatherLenient_eq v, fun hfits => ?_⟩
  have hplain : Json.Plain 125 v := ⟨hv, hf, hd⟩
  have hdoc := Report.plain_toJson hfits fun record hr => hplain.of_record hr
  exact ⟨_, fun path => documentOf_toUTF8 (Json.parse_line_pretty hdoc.document hdoc.floatFree hdoc.depth),
    Report.isReportOn_toJson s _⟩

theorem report_is_loaded_as_it_was_made_of_a_nested_value :
    let s : Spec := { process := .asis, ordinal := some "n" }
    let v : Json := .array [.array [.int (-7)], .string "a\nb"]
    ∃ y doc, s.gatherLenient v = .ok y ∧ y.records.length = 4 ∧
      documentOf "report.json" (.ok (Report.ofYield s y).jsonText.toUTF8) = .ok doc ∧ doc.IsReportOn s y := by
  intro s v
  have hitems : ∀ w ∈ [Json.array [.int (-7)], .string "a\nb"], w.IsDocument ∧ w.FloatFree := by
    simp only [List.forall_mem_cons, List.not_mem_nil, false_implies, implies_true, and_true]
    refine ⟨⟨.array ?_, .array ?_⟩, .string _, .string _⟩
    · simp only [List.mem_singleton, forall_eq]
      exact .int (by decide) (by decide)
    · simp only [List.mem_singleton, forall_eq]
      exact .int _
  obtain ⟨y, hy, h⟩ := report_is_loaded_as_it_was_made (by decide : s.Fresh) (.array fun w hw => (hitems w hw).1)
    (.array fun w hw => (hitems w hw).2) (by decide : v.depth ≤ 125)
  have hknown : s.gatherLenient v = .ok ⟨[⟨.ordinal, some "n", ⟨0, none, .array [.int (-7)]⟩, s⟩,
    ⟨.value, none, ⟨0, none, .array [.int (-7)]⟩, s⟩, ⟨.ordinal, some "n", ⟨1, none, .string "a\nb"⟩, s⟩,
    ⟨.value, none, ⟨1, none, .string "a\nb"⟩, s⟩], []⟩ := rfl
  cases Except.ok.inj (hy.symm.trans hknown)
  obtain ⟨doc, hdoc, hreport⟩ := h ⟨by decide, by decide, by decide⟩
  exact ⟨_, doc, hy, rfl, hdoc "report.json", hreport⟩

end Harvest
