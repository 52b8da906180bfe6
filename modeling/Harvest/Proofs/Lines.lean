/-
  Harvest.Proofs.Lines — the lines of the two listings.

  A listing is made of items, each ended by a line feed. It has one line an item if no item
  holds a line feed of its own. What a surfaced value, a number, a mode or a kind is written
  as holds none, whatever the value; names are written as they are. So the line feeds of a
  listing are one for each item and those in the names it writes, and the listing is its
  items, line by line, if and only if these names have none (`Text.Lists`).

  The items of a tree are its nodes and the headings of its groups (`length_entries`), and
  the names are types, included names, labels, ordinal names and labels of groups. The items
  of a report are its rows, its skipped branches and the totals, and the names are those of
  the records, of the hops to a skipped branch, and of the node that skipped it.
-/

import Harvest.Report.Text
import Harvest.Proofs.Unhalted
import Mathlib.Algebra.BigOperators.Group.List.Basic
import Mathlib.Algebra.GroupWithZero.Nat

namespace Harvest

/-! ## Lines -/

namespace Text

/-- How many line feeds a text holds. -/
def lineFeeds (s : String) : Nat := s.toList.count '\n'

/-- The text is these lines, each ended by a line feed, with nothing after the last. -/
def IsLines (s : String) (lines : List String) : Prop := s.toList.splitOn '\n' = lines.map String.toList ++ [[]]

/-- The text lists the items, one on each line, but for the line feeds in the names it writes. -/
structure Lists (s : String) (items names : List String) : Prop where
  lines : IsLines s items ↔ ∀ name ∈ names, '\n' ∉ name.toList
  feeds : lineFeeds s = items.length + (names.map lineFeeds).sum

theorem lineFeeds_eq_zero_iff {s : String} : lineFeeds s = 0 ↔ '\n' ∉ s.toList := List.count_eq_zero

/-- For the texts between the names, where it is decided. -/
theorem lineFeeds_of_notMem {s : String} (h : '\n' ∉ s.toList) : lineFeeds s = 0 := lineFeeds_eq_zero_iff.mpr h

theorem lineFeeds_append (s t : String) : lineFeeds (s ++ t) = lineFeeds s + lineFeeds t := by
  rw [lineFeeds, String.toList_append, List.count_append, lineFeeds, lineFeeds]

theorem lineFeeds_join (l : List String) : lineFeeds (String.join l) = (l.map lineFeeds).sum := by
  rw [lineFeeds, String.toList_join, List.count_flatMap]
  rfl

theorem sum_lineFeeds_eq_zero_iff {l : List String} :
    (l.map lineFeeds).sum = 0 ↔ ∀ s ∈ l, '\n' ∉ s.toList := by
  simp only [List.sum_eq_zero_iff_forall_eq_nat, List.forall_mem_map, lineFeeds_eq_zero_iff]

theorem lineFeeds_join_line (l : List String) :
    lineFeeds (String.join (l.map line)) = l.length + (l.map lineFeeds).sum := by
  induction l with
  | nil => rfl
  | cons s l ih =>
    rw [lineFeeds_join] at ih ⊢
    simp only [List.map_cons, List.sum_cons, List.length_cons, ih]
    have hs : lineFeeds (line s) = lineFeeds s + 1 := lineFeeds_append s "\n"
    omega

theorem length_splitOn (a : Char) (l : List Char) : (l.splitOn a).length = l.count a + 1 := by
  induction l with
  | nil => rfl
  | cons b l ih =>
    rw [List.splitOn_cons_eq_if_modifyHead]
    by_cases hb : b = a <;> simp [hb, ih]

theorem IsLines.lineFeeds_eq {s : String} {lines : List String} (h : IsLines s lines) : lineFeeds s = lines.length := by
  have hl := length_splitOn '\n' s.toList
  rw [h] at hl
  simpa [lineFeeds] using hl.symm

theorem isLines_join_line {l : List String} (h : ∀ s ∈ l, '\n' ∉ s.toList) : IsLines (String.join (l.map line)) l := by
  induction l with
  | nil => rfl
  | cons s l ih =>
    have hs : '\n' ∉ s.toList := h s (List.mem_cons_self ..)
    have hcons : (String.join ((s :: l).map line)).toList = s.toList ++ '\n' :: (String.join (l.map line)).toList := by
      simp [String.toList_join, line]
    rw [IsLines, hcons, List.splitOn_append_cons_self_of_not_mem hs, ih fun t ht => h t (List.mem_cons_of_mem _ ht)]
    rfl

/-- Items that hold the line feeds of the names and no others. -/
theorem lists_join_line {items names : List String} (h : (items.map lineFeeds).sum = (names.map lineFeeds).sum) :
    Lists (String.join (items.map line)) items names where
  lines := by
    rw [← sum_lineFeeds_eq_zero_iff, ← h]
    constructor
    · intro hl
      have hfeeds := lineFeeds_join_line items
      rw [hl.lineFeeds_eq] at hfeeds
      omega
    · intro hz
      exact isLines_join_line (sum_lineFeeds_eq_zero_iff.mp hz)
  feeds := by rw [lineFeeds_join_line, h]

/-! ## Texts on one line -/

theorem lineFeeds_ofList_replicate {c : Char} (hc : c ≠ '\n') (n : Nat) :
    lineFeeds (String.ofList (List.replicate n c)) = 0 := by
  rw [lineFeeds, String.toList_ofList, List.count_replicate, if_neg (by simpa using hc)]

theorem lineFeeds_padRight (width : Nat) (s : String) : lineFeeds (padRight width s) = lineFeeds s := by
  rw [padRight, lineFeeds_append, lineFeeds_ofList_replicate (by decide), Nat.add_zero]

theorem lineFeeds_indent_append (depth : Nat) (s : String) : lineFeeds (indent depth ++ s) = lineFeeds s := by
  rw [indent, lineFeeds_append, lineFeeds_ofList_replicate (by decide), Nat.zero_add]

theorem lineFeeds_of_digits {l : List Char} (h : ∀ c ∈ l, c.isDigit) : lineFeeds (String.ofList l) = 0 := by
  rw [lineFeeds_eq_zero_iff, String.toList_ofList]
  intro hm
  exact absurd (h _ hm) (by decide)

theorem lineFeeds_toString_nat (n : Nat) : lineFeeds (toString n) = 0 := by
  rw [Nat.toString_eq_ofList_toDigits]
  exact lineFeeds_of_digits fun _ => Nat.isDigit_of_mem_toDigits (by decide) (by decide)

theorem lineFeeds_toString_int (n : Int) : lineFeeds (toString n) = 0 := by
  cases n with
  | ofNat n => exact lineFeeds_toString_nat n
  | negSucc n =>
    show lineFeeds ("-" ++ toString (n + 1)) = 0
    rw [lineFeeds_append, lineFeeds_toString_nat]
    rfl

theorem lineFeeds_intercalate {separator : String} (h : lineFeeds separator = 0) (l : List String) :
    lineFeeds (separator.intercalate l) = (l.map lineFeeds).sum := by
  induction l with
  | nil => rfl
  | cons s l ih =>
    cases l with
    | nil => simp [String.intercalate_singleton]
    | cons t l => rw [String.intercalate_cons_cons, lineFeeds_append, lineFeeds_append, h, ih]; rfl

end Text

open Text (lineFeeds lineFeeds_append lineFeeds_of_digits)

namespace Decimal

theorem lineFeeds_zeros (n : Nat) : lineFeeds (zeros n) = 0 := Text.lineFeeds_ofList_replicate (by decide) n

section

variable {ds : List Char} (h : ∀ c ∈ ds, c.isDigit)
include h

theorem lineFeeds_plain (place : Int) : lineFeeds (plain ds place) = 0 := by
  have htake : ∀ n, lineFeeds (String.ofList (ds.take n)) = 0 := fun n =>
    lineFeeds_of_digits fun c hc => h c (List.mem_of_mem_take hc)
  have hdrop : ∀ n, lineFeeds (String.ofList (ds.drop n)) = 0 := fun n =>
    lineFeeds_of_digits fun c hc => h c (List.mem_of_mem_drop hc)
  simp only [plain, apply_ite lineFeeds, lineFeeds_append, lineFeeds_zeros, lineFeeds_of_digits h, htake, hdrop]
  simp [lineFeeds]

theorem lineFeeds_scientific (place : Int) : lineFeeds (scientific ds place) = 0 := by
  have htake : lineFeeds (String.ofList (ds.take 1)) = 0 :=
    lineFeeds_of_digits fun c hc => h c (List.mem_of_mem_take hc)
  have hdrop : lineFeeds (String.ofList (ds.drop 1)) = 0 :=
    lineFeeds_of_digits fun c hc => h c (List.mem_of_mem_drop hc)
  simp only [scientific, apply_ite lineFeeds, lineFeeds_append, Text.lineFeeds_toString_nat, htake, hdrop]
  simp [lineFeeds]

end

theorem lineFeeds_text (layout : Layout) (x : Float) : lineFeeds (layout.text x) = 0 := by
  have hdigits : ∀ c ∈ Nat.toDigits 10 (Binary.ofFloat x).shortest.digits, c.isDigit := fun _ =>
    Nat.isDigit_of_mem_toDigits (by decide) (by decide)
  simp only [Layout.text, apply_ite lineFeeds, lineFeeds_append, lineFeeds_plain hdigits, lineFeeds_scientific hdigits]
  simp [lineFeeds]

end Decimal

namespace Json

theorem not_mem_escapeChar (c : Char) : '\n' ∉ escapeChar c := by
  have hdigit : ∀ n, '\n' ≠ Nat.digitChar n := fun n => (Nat.digitChar_ne '\n' (by decide)).symm
  unfold escapeChar
  split_ifs with _ _ _ _ hc
  any_goals decide
  · simp [hdigit]
  · simpa using Ne.symm hc

theorem lineFeeds_stringText (s : String) : lineFeeds (stringText s) = 0 := by
  rw [Text.lineFeeds_eq_zero_iff, stringText]
  simp [not_mem_escapeChar]

mutual

/-- The compact text of a value is on one line, whatever names and texts stand in the value. -/
theorem lineFeeds_compact : (v : Json) → lineFeeds v.compact = 0
  | .null => by decide
  | .bool true => by decide
  | .bool false => by decide
  | .int n => by rw [compact, Text.lineFeeds_toString_int]
  | .float x => by rw [compact, Decimal.lineFeeds_text]
  | .string s => by rw [compact, lineFeeds_stringText]
  | .array items => by
    rw [compact, lineFeeds_append, lineFeeds_append, Text.lineFeeds_intercalate (by decide),
      sum_lineFeeds_compactItems items]
    decide
  | .object members => by
    rw [compact, lineFeeds_append, lineFeeds_append, Text.lineFeeds_intercalate (by decide),
      sum_lineFeeds_compactMembers members]
    decide

theorem sum_lineFeeds_compactItems : (l : List Json) → ((compactItems l).map lineFeeds).sum = 0
  | [] => rfl
  | v :: rest => by
    rw [compactItems, List.map_cons, List.sum_cons, lineFeeds_compact v, sum_lineFeeds_compactItems rest]

theorem sum_lineFeeds_compactMembers : (l : List (String × Json)) → ((compactMembers l).map lineFeeds).sum = 0
  | [] => rfl
  | (name, v) :: rest => by
    rw [compactMembers, List.map_cons, List.sum_cons, lineFeeds_append, lineFeeds_append, lineFeeds_stringText,
      lineFeeds_compact v, sum_lineFeeds_compactMembers rest]
    decide

end

end Json

/-! ## The names written in an item -/

open Text (lineFeeds_join)

/-- The names that a rule shows in its text. -/
def Rule.shownNames (r : Rule) : List String := r.type.text :: r.filter.included.names.toList

/-- The names written in the entry of a rule. -/
def Rule.names (r : Rule) : List String := r.shownNames ++ r.label.toList ++ r.ordinal.toList

namespace Rule

theorem lineFeeds_text (r : Rule) : lineFeeds r.text = (r.shownNames.map lineFeeds).sum := by
  have hstack : lineFeeds r.stack.text = 0 := by cases r.stack <;> decide
  have hprocess : lineFeeds r.process.text = 0 := by cases r.process <;> decide
  have hnames : (r.filter.included.names.toList.map (· ++ ",")).map lineFeeds =
      r.filter.included.names.toList.map lineFeeds := by
    rw [List.map_map]
    exact List.map_congr_left fun name _ => lineFeeds_append name ","
  unfold text shownNames
  simp (disch := decide) only [lineFeeds_append, lineFeeds_join, hnames, hstack, hprocess, apply_ite lineFeeds,
    Text.lineFeeds_of_notMem, ite_self, Nat.add_zero, Nat.zero_add, List.map_cons, List.sum_cons]

theorem lineFeeds_entry (r : Rule) : lineFeeds r.entry = (r.names.map lineFeeds).sum := by
  have hlabel : lineFeeds (r.label.elim "" (" as " ++ ·)) = (r.label.toList.map lineFeeds).sum := by
    cases r.label with
    | none => decide
    | some s => simp [lineFeeds]
  have hordinal : lineFeeds (r.ordinal.elim "" (" ix_name " ++ ·)) = (r.ordinal.toList.map lineFeeds).sum := by
    cases r.ordinal with
    | none => decide
    | some s => simp [lineFeeds]
  rw [entry, lineFeeds_append, lineFeeds_append, lineFeeds_text, hlabel, hordinal, names]
  simp only [List.map_append, List.sum_append]

end Rule

/-- The names written in the row of a record. -/
def Record.names {V : Type} (r : Record V) : List String := r.specName.toList ++ r.entry.name.toList

theorem Row.lineFeeds_line (r : Record Json) : lineFeeds (Row.ofRecord r).line = (r.names.map lineFeeds).sum := by
  have hkind : lineFeeds r.kind.text = 0 := by cases r.kind <;> decide
  have hname : ∀ o : Option String, lineFeeds (o.getD "NULL") = (o.toList.map lineFeeds).sum := by
    intro o
    cases o with
    | none => decide
    | some s => simp
  have hvalue : ∀ o : Option Json, lineFeeds (o.elim "-" Json.compact) = 0 := by
    intro o
    cases o with
    | none => decide
    | some v => exact Json.lineFeeds_compact v
  unfold line ofRecord
  simp (disch := decide) only [lineFeeds_append, Text.lineFeeds_padRight, Text.lineFeeds_toString_nat, hkind, hname,
    hvalue, Record.names, Text.lineFeeds_of_notMem, List.map_append, List.sum_append, Nat.add_zero, Nat.zero_add]

/-- The names written in the message on a skipped branch: those on the way to it and those of the node. -/
def Mismatch.names {V : Type} (m : Mismatch V) : List String := m.path.filterMap Hop.name ++ m.node.shownNames

theorem Hop.lineFeeds_text (h : Hop) : lineFeeds h.text = (h.name.toList.map lineFeeds).sum := by
  obtain ⟨position, _ | name⟩ := h
  · show lineFeeds ("[" ++ toString position ++ "]") = 0
    simp only [lineFeeds_append, Text.lineFeeds_toString_nat]
    simp [lineFeeds]
  · simp [text, lineFeeds]

theorem lineFeeds_pathText (hops : List Hop) :
    lineFeeds (pathText hops) = ((hops.filterMap Hop.name).map lineFeeds).sum := by
  rw [pathText, lineFeeds_append, lineFeeds_join]
  induction hops with
  | nil => decide
  | cons h hops ih =>
    rw [List.map_cons, List.map_cons, List.sum_cons, Nat.add_left_comm, ih, h.lineFeeds_text]
    obtain ⟨position, _ | name⟩ := h <;> simp

theorem Mismatch.lineFeeds_message (m : Mismatch Json) : lineFeeds m.message = (m.names.map lineFeeds).sum := by
  have hkind : lineFeeds m.kind = 0 := by
    show lineFeeds (Json.kind m.found) = 0
    unfold Json.kind
    split <;> decide
  unfold message names
  simp (disch := decide) only [lineFeeds_append, lineFeeds_pathText, Rule.lineFeeds_text, hkind,
    Text.lineFeeds_of_notMem, List.map_append, List.sum_append, Nat.add_zero, Nat.zero_add]

/-! ## Reports -/

/-- The names written in the listing of what a match yields. -/
def Yield.names {V : Type} (y : Yield V) : List String :=
  y.records.flatMap Record.names ++ y.mismatches.flatMap Mismatch.names

theorem Report.lineFeeds_totalsLine (r : Report) : lineFeeds r.totalsLine = 0 := by
  unfold totalsLine
  simp (disch := decide) only [lineFeeds_append, Text.lineFeeds_toString_nat, Text.lineFeeds_of_notMem]

theorem sum_map_flatMap {α β : Type} (l : List α) (f : α → List β) (n : β → Nat) :
    ((l.flatMap f).map n).sum = (l.map fun a => ((f a).map n).sum).sum := by
  induction l with
  | nil => rfl
  | cons a l ih => rw [List.flatMap_cons, List.map_append, List.sum_append, ih, List.map_cons, List.sum_cons]

/-- A row for each record, a line for each skipped branch, and the totals. -/
theorem Report.lines_ofYield (s : Spec) (y : Yield Json) :
    (Report.ofYield s y).lines = y.records.map (fun r => (Row.ofRecord r).line) ++
      y.mismatches.map (fun m => "skipped  " ++ m.message) ++ [(Report.ofYield s y).totalsLine] := by
  rw [Report.lines]
  simp only [Report.ofYield, List.map_map, Function.comp_def]

theorem Report.lists_text (s : Spec) (y : Yield Json) :
    Text.Lists (Report.ofYield s y).text (Report.ofYield s y).lines y.names := by
  refine Text.lists_join_line ?_
  have hskipped : ∀ m : Mismatch Json, lineFeeds ("skipped  " ++ m.message) = (m.names.map lineFeeds).sum := by
    intro m
    have hskipped : lineFeeds "skipped  " = 0 := by decide
    rw [lineFeeds_append, hskipped, m.lineFeeds_message, Nat.zero_add]
  simp only [lines_ofYield, List.map_append, List.sum_append, List.map_map, Function.comp_def, List.map_singleton,
    List.sum_singleton, lineFeeds_totalsLine, Row.lineFeeds_line, hskipped, Yield.names, sum_map_flatMap, Nat.add_zero]

/-! ## Trees -/

namespace Spec

mutual

/-- The nodes of a tree in the order in which they are listed. -/
def nodes : Spec → List Spec
  | ⟨rule, children, groups⟩ => ⟨rule, children, groups⟩ :: nodesAll children ++ nodesGroups groups

def nodesAll : List Spec → List Spec
  | [] => []
  | s :: rest => nodes s ++ nodesAll rest

def nodesGroups : List (Group Spec) → List Spec
  | [] => []
  | ⟨_, members⟩ :: rest => nodesAll members ++ nodesGroups rest

end

/-- The names written in the listing of a tree. -/
def names (s : Spec) : List String := s.nodes.flatMap fun t => t.toRule.names ++ t.groups.map Group.label

/-- What a node and the headings of its groups add up to. -/
def tally (f : String → Nat) (t : Spec) : Nat := f t.entry + (t.groups.map fun g => f (heading g.label)).sum

variable {f : String → Nat}

mutual

/-- What does not depend on indentation adds up over the entries as it does over the nodes. -/
theorem sum_entries (hf : ∀ depth entry, f (Text.indent depth ++ entry) = f entry) (depth : Nat) :
    (s : Spec) → ((s.entries depth).map f).sum = (s.nodes.map (tally f)).sum
  | ⟨rule, children, groups⟩ => by
    simp only [entries, nodes, List.map_append, List.map_cons, List.sum_append, List.sum_cons, hf,
      sum_entriesAll hf (depth + 1) children, sum_entriesGroups hf (depth + 1) groups, tally]
    omega

theorem sum_entriesAll (hf : ∀ depth entry, f (Text.indent depth ++ entry) = f entry) (depth : Nat) :
    (l : List Spec) → ((entriesAll depth l).map f).sum = ((nodesAll l).map (tally f)).sum
  | [] => rfl
  | s :: rest => by
    simp only [entriesAll, nodesAll, List.map_append, List.sum_append, sum_entries hf depth s,
      sum_entriesAll hf depth rest]

theorem sum_entriesGroups (hf : ∀ depth entry, f (Text.indent depth ++ entry) = f entry) (depth : Nat) :
    (l : List (Group Spec)) → ((entriesGroups depth l).map f).sum =
      (l.map fun g => f (heading g.label)).sum + ((nodesGroups l).map (tally f)).sum
  | [] => rfl
  | ⟨label, members⟩ :: rest => by
    simp only [entriesGroups, nodesGroups, List.map_append, List.map_cons, List.sum_append, List.sum_cons, hf,
      sum_entriesAll hf (depth + 1) members, sum_entriesGroups hf depth rest]
    omega

end

/-- An entry for each node, and one for each group. -/
theorem length_entries (s : Spec) (depth : Nat) :
    (s.entries depth).length = s.nodes.length + (s.nodes.map (·.groups.length)).sum := by
  have h := sum_entries (f := fun _ => 1) (fun _ _ => rfl) depth s
  have htally : s.nodes.map (tally fun _ => 1) = s.nodes.map fun t => 1 + t.groups.length := by
    simp [tally]
  rw [htally, List.sum_map_add] at h
  simpa using h

theorem lists_listing (s : Spec) : Text.Lists s.listing (s.entries 0) s.names := by
  refine Text.lists_join_line ?_
  have htally : s.nodes.map (tally lineFeeds) = s.nodes.map fun t =>
      ((t.toRule.names ++ t.groups.map Group.label).map lineFeeds).sum := by
    refine List.map_congr_left fun t _ => ?_
    have hheading : ∀ label, lineFeeds (heading label) = lineFeeds label := by
      intro label
      simp [heading, lineFeeds]
    simp only [tally, Rule.lineFeeds_entry, hheading, List.map_append, List.sum_append, List.map_map, Function.comp_def]
  rw [sum_entries Text.lineFeeds_indent_append, htally, names, sum_map_flatMap]

end Spec

/-! ## Both listings -/

/-- A match by a tree that comes from a description, and the listing of the tree, have one line an item
    but for the line feeds in the names they write. -/
theorem listings_have_one_line_an_item_but_for_names {d : Json} {s : Spec} (h : Spec.ofJson d = .ok s) (v : Json) :
    ∃ y, s.gatherLenient v = .ok y ∧
      (let report := Report.ofYield s y
       Text.Lists report.text report.lines y.names ∧
         report.lines = y.records.map (fun r => (Row.ofRecord r).line) ++
           y.mismatches.map (fun m => "skipped  " ++ m.message) ++ [report.totalsLine] ∧
         report.lines.length = report.rows.length + report.mismatches.length + 1) ∧
      Text.Lists s.listing (s.entries 0) s.names ∧
      (s.entries 0).length = s.nodes.length + (s.nodes.map (·.groups.length)).sum := by
  obtain ⟨y, hy⟩ := ((Spec.fresh_of_ofJson h).unhalted v).lenient
  refine ⟨y, hy, ⟨Report.lists_text s y, Report.lines_ofYield s y, ?_⟩, s.lists_listing, s.length_entries 0⟩
  simp only [Report.lines, List.length_append, List.length_map, List.length_singleton]

theorem listings_have_one_line_an_item_but_for_names_of_two :
    let d : Json := .object [("as", .string "x"), ("ix_name", .string "n")]
    let v : Json := .array [.string "a\nb"]
    let s : Spec := { label := some "x", ordinal := some "n" }
    Spec.ofJson d = .ok s ∧ ∃ y, s.gatherLenient v = .ok y ∧
      Text.IsLines (Report.ofYield s y).text (Report.ofYield s y).lines ∧ (Report.ofYield s y).lines.length = 3 ∧
      Text.IsLines s.listing (s.entries 0) := by
  intro d v s
  have hs : Spec.ofJson d = .ok s := by with_unfolding_all rfl
  obtain ⟨y, hy, ⟨hreport, -, -⟩, hlisting, -⟩ := listings_have_one_line_an_item_but_for_names hs v
  have hknown : s.gatherLenient v = .ok ⟨[⟨.ordinal, some "n", ⟨0, none, .string "a\nb"⟩, s⟩,
      ⟨.value, some "x", ⟨0, none, .string "a\nb"⟩, s⟩], []⟩ := rfl
  cases Except.ok.inj (hy.symm.trans hknown)
  exact ⟨hs, _, hy, hreport.lines.mpr (by decide +kernel), rfl, hlisting.lines.mpr (by decide +kernel)⟩

/-- A label is written as it is, so one with a line feed makes two lines of one. -/
theorem a_line_feed_in_a_label_breaks_both_listings :
    let s : Spec := { label := some "a\nb" }
    let y : Yield Json := ⟨[⟨.value, some "a\nb", ⟨0, none, .int 1⟩, s⟩], []⟩
    Spec.ofJson (.object [("as", .string "a\nb")]) = .ok s ∧ s.gatherLenient (.array [.int 1]) = .ok y ∧
      (y.records.length + y.mismatches.length + 1 = 2 ∧ Text.lineFeeds (Report.ofYield s y).text = 3) ∧
      s.nodes.length + (s.nodes.map (·.groups.length)).sum = 1 ∧ Text.lineFeeds s.listing = 2 := by
  refine ⟨by with_unfolding_all rfl, rfl, ⟨rfl, ?_⟩, rfl, ?_⟩
  · decide +kernel
  · decide +kernel

end Harvest
