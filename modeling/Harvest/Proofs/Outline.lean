/-
  Harvest.Proofs.Outline — a tree is told from its listing up to what its lines say.

  A node and the heading of a group among its siblings stand in the same column, and a
  member of the group stands where a child of the last of these nodes would. What tells them
  apart is how a line opens and what came before it. So lines are read by their inset
  (`inset`): the column, and in one column a heading before a node. After a node come the
  lines below it, which are set in further, and then a line which is not; so the lines of a
  node end where the inset falls back, and likewise those of children, of a group and of its
  members (`nodeByNode_of_entries`). That holds whatever follows.

  Names are written as they are, and may look like anything on a line but a line feed: a
  line opens as a node or as a heading does before the first name in it. Two trees whose
  names are free of line feeds and whose listings are the same have one shape, with the
  same entry at nodes in the same place.
-/

import Harvest.Proofs.Lines
import Harvest.Proofs.Shapes

namespace Harvest

/-! ## Insets -/

namespace Text

/-- How far a line is set in: by its column, and a node by one more than a heading. -/
def inset (line : String) : Nat :=
  2 * (line.toList.takeWhile (· == ' ')).length + if (line.toList.dropWhile (· == ' ')).head? = some 's' then 1 else 0

theorem inset_indent_append {s : String} {c : Char} {l : List Char} (h : s.toList = c :: l) (hc : c ≠ ' ')
    (depth : Nat) : inset (indent depth ++ s) = 4 * depth + if c = 's' then 1 else 0 := by
  have hline : (indent depth ++ s).toList = List.replicate (2 * depth) ' ' ++ c :: l := by
    rw [String.toList_append, h, indent, String.toList_ofList]
  have hspaces : ∀ a ∈ List.replicate (2 * depth) ' ', (a == ' ') = true := fun a ha => by
    rw [List.eq_of_mem_replicate ha]
    rfl
  have hfirst : (c == ' ') = false := by simpa using hc
  rw [inset, hline, List.takeWhile_append_of_pos hspaces, List.dropWhile_append_of_pos hspaces,
    List.takeWhile_cons_of_neg (by simp [hfirst]), List.dropWhile_cons_of_neg (by simp [hfirst]), List.append_nil,
    List.length_replicate, List.head?_cons]
  simp only [Option.some.injEq]
  omega

/-- The first of the lines, if there is one, is set in by less than `n`. -/
def Within (n : Nat) (lines : List String) : Prop := ∀ line ∈ lines.head?, inset line < n

theorem Within.nil (n : Nat) : Within n [] := by
  rintro _ ⟨⟩

theorem within_cons_iff {n : Nat} {line : String} {lines : List String} :
    Within n (line :: lines) ↔ inset line < n := by
  simp [Within]

theorem Within.mono {m n : Nat} {lines : List String} (h : Within m lines) (hmn : m ≤ n) : Within n lines :=
  fun line hline => (h line hline).trans_le hmn

end Text

open Text (indent inset Within)

namespace Spec

theorem inset_entry (r : Rule) (depth : Nat) : inset (indent depth ++ r.entry) = 4 * depth + 1 := by
  obtain ⟨l, hl⟩ : ∃ l, r.entry.toList = 's' :: l := by
    unfold Rule.entry Rule.text
    simp only [String.toList_append, List.append_assoc]
    exact ⟨_, rfl⟩
  exact Text.inset_indent_append hl (by decide) depth

theorem inset_heading (label : String) (depth : Nat) : inset (indent depth ++ heading label) = 4 * depth := by
  obtain ⟨l, hl⟩ : ∃ l, (heading label).toList = 'g' :: l := by
    unfold heading
    simp only [String.toList_append, List.append_assoc]
    exact ⟨_, rfl⟩
  exact Text.inset_indent_append hl (by decide) depth

theorem heading_inj {label label' : String} (h : heading label = heading label') : label = label' := by
  have hl := congrArg String.toList h
  simp only [heading, String.toList_append, List.append_cancel_left_eq, List.append_cancel_right_eq] at hl
  exact String.toList_inj.mp hl

theorem indent_append_inj {depth : Nat} {s t : String} (h : indent depth ++ s = indent depth ++ t) : s = t := by
  have hl := congrArg String.toList h
  rw [String.toList_append, String.toList_append] at hl
  exact String.toList_inj.mp (List.append_cancel_left hl)

/-! ## What follows the lines of a tree -/

theorem within_entries_iff {s : Spec} {n depth : Nat} {lines : List String} :
    Within n (s.entries depth ++ lines) ↔ 4 * depth + 1 < n := by
  obtain ⟨rule, children, groups⟩ := s
  rw [entries, List.cons_append, List.cons_append, Text.within_cons_iff, inset_entry]

theorem within_entriesGroups_cons_iff {g : Group Spec} {l : List (Group Spec)} {n depth : Nat} {lines : List String} :
    Within n (entriesGroups depth (g :: l) ++ lines) ↔ 4 * depth < n := by
  obtain ⟨label, members⟩ := g
  rw [entriesGroups, List.cons_append, List.cons_append, Text.within_cons_iff, inset_heading]

theorem within_entriesAll {n depth : Nat} {lines : List String} (h : Within n lines) (hn : 4 * depth + 1 < n)
    (l : List Spec) : Within n (entriesAll depth l ++ lines) := by
  cases l with
  | nil => exact h
  | cons s l =>
    rw [entriesAll, List.append_assoc]
    exact within_entries_iff.mpr hn

theorem within_entriesGroups {n depth : Nat} {lines : List String} (h : Within n lines) (hn : 4 * depth < n)
    (l : List (Group Spec)) : Within n (entriesGroups depth l ++ lines) := by
  cases l with
  | nil => exact h
  | cons g l => exact within_entriesGroups_cons_iff.mpr hn

/-! ## Reading a listing -/

/-- The rules are written as the same entry. -/
def SameEntry (r r' : Rule) : Prop := r.entry = r'.entry

mutual

/-- Where lines begin with those of a node, and go on with one that is set in no further, they
    tell the shape of the node and where it ends. -/
theorem nodeByNode_of_entries {depth : Nat} {k k' : List String} (hk : Within (4 * depth + 2) k)
    (hk' : Within (4 * depth + 2) k') : (s t : Spec) → s.entries depth ++ k = t.entries depth ++ k' →
      NodeByNode SameEntry s t ∧ k = k'
  | ⟨r, cs, gs⟩, ⟨r', cs', gs'⟩, h => by
    simp only [entries, List.cons_append, List.append_assoc, List.cons.injEq] at h
    obtain ⟨hentry, hbelow⟩ := h
    obtain ⟨hc, hrest⟩ := nodeByNode_of_entriesAll (within_entriesGroups (hk.mono (by omega)) (by omega) gs)
      (within_entriesGroups (hk'.mono (by omega)) (by omega) gs') cs cs' hbelow
    obtain ⟨hg, hend⟩ := nodeByNode_of_entriesGroups (hk.mono (by omega)) (hk'.mono (by omega)) gs gs' hrest
    exact ⟨nodeByNode_iff.mpr ⟨indent_append_inj hentry, hc, hg⟩, hend⟩

theorem nodeByNode_of_entriesAll {depth : Nat} {k k' : List String} (hk : Within (4 * depth + 1) k)
    (hk' : Within (4 * depth + 1) k') : (l m : List Spec) → entriesAll depth l ++ k = entriesAll depth m ++ k' →
      List.Forall₂ (NodeByNode SameEntry) l m ∧ k = k'
  | [], [], h => ⟨.nil, h⟩
  | [], t :: m, h => by
    change k = _ at h
    rw [entriesAll, List.append_assoc] at h
    exact absurd (within_entries_iff.mp (h ▸ hk)) (lt_irrefl _)
  | s :: l, [], h => by
    change _ = k' at h
    rw [entriesAll, List.append_assoc] at h
    exact absurd (within_entries_iff.mp (h ▸ hk')) (lt_irrefl _)
  | s :: l, t :: m, h => by
    simp only [entriesAll, List.append_assoc] at h
    obtain ⟨hs, hrest⟩ := nodeByNode_of_entries (within_entriesAll (hk.mono (by omega)) (by omega) l)
      (within_entriesAll (hk'.mono (by omega)) (by omega) m) s t h
    obtain ⟨hl, hend⟩ := nodeByNode_of_entriesAll hk hk' l m hrest
    exact ⟨.cons hs hl, hend⟩

theorem nodeByNode_of_entriesGroups {depth : Nat} {k k' : List String} (hk : Within (4 * depth) k)
    (hk' : Within (4 * depth) k') : (l m : List (Group Spec)) →
      entriesGroups depth l ++ k = entriesGroups depth m ++ k' →
        List.Forall₂ (fun g h => g.label = h.label ∧ List.Forall₂ (NodeByNode SameEntry) g.members h.members) l m ∧
          k = k'
  | [], [], h => ⟨.nil, h⟩
  | [], g :: m, h => by
    change k = _ at h
    exact absurd (within_entriesGroups_cons_iff.mp (h ▸ hk)) (lt_irrefl _)
  | g :: l, [], h => by
    change _ = k' at h
    exact absurd (within_entriesGroups_cons_iff.mp (h ▸ hk')) (lt_irrefl _)
  | ⟨label, members⟩ :: l, ⟨label', members'⟩ :: m, h => by
    simp only [entriesGroups, List.cons_append, List.append_assoc, List.cons.injEq] at h
    obtain ⟨hlabel, hbelow⟩ := h
    obtain ⟨hm, hrest⟩ := nodeByNode_of_entriesAll
      (within_entriesGroups (hk.mono (by omega)) (by omega) l) (within_entriesGroups (hk'.mono (by omega)) (by omega) m)
      members members' hbelow
    obtain ⟨hl, hend⟩ := nodeByNode_of_entriesGroups hk hk' l m hrest
    exact ⟨.cons ⟨heading_inj (indent_append_inj hlabel), hm⟩ hl, hend⟩

end

theorem entries_eq_of_listing_eq {s t : Spec} (hs : ∀ name ∈ s.names, '\n' ∉ name.toList)
    (ht : ∀ name ∈ t.names, '\n' ∉ name.toList) (h : s.listing = t.listing) : s.entries 0 = t.entries 0 := by
  have hl := s.lists_listing.lines.mpr hs
  rw [h, Text.IsLines, t.lists_listing.lines.mpr ht] at hl
  exact (List.map_inj_right fun _ _ => String.toList_inj.mp).mp (List.append_cancel_right hl).symm

/-- Trees without line feeds in their names that are listed alike have one shape, and what
    corresponds is listed alike. -/
theorem one_shape_of_listing_eq {s t : Spec} (hs : ∀ name ∈ s.names, '\n' ∉ name.toList)
    (ht : ∀ name ∈ t.names, '\n' ∉ name.toList) (h : s.listing = t.listing) :
    NodeByNode SameEntry s t :=
  (nodeByNode_of_entries (Within.nil _) (Within.nil _) s t
    (congrArg (· ++ []) (entries_eq_of_listing_eq hs ht h))).1

/-- One name with a comma is written as two names are, so the trees differ; their shape does not. -/
theorem one_shape_of_listing_eq_of_a_comma :
    let key (names : List String) : Spec := { filter := (names.map Key.name).foldl Filter.includeKey {} }
    let row (names : List String) : Spec :=
      { children := [key names, {}], groups := [⟨"spec[", [key names]⟩, ⟨"g:", []⟩] }
    (row ["a,b"]).listing = (row ["a", "b"]).listing ∧ row ["a,b"] ≠ row ["a", "b"] ∧
      NodeByNode SameEntry (row ["a,b"]) (row ["a", "b"]) := by
  intro key row
  have h : (row ["a,b"]).listing = (row ["a", "b"]).listing := by decide +kernel
  exact ⟨h, by decide +kernel, one_shape_of_listing_eq (by decide +kernel) (by decide +kernel) h⟩

end Spec

end Harvest
