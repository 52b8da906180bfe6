/-
  Harvest.Json.Reader — documents read from text.

  A `Reader` takes a text apart into what it read and the text after it, and always
  makes progress. Lists and objects are one form, parts between brackets with commas
  between them. The reader of values is built from the reader of the values one level
  deeper, so the room that is left for nesting is its recursion: `parse` gives 127
  levels, and a 128th is a fault. After the value only blanks may follow.
-/

import Harvest.Json.Characters
import Harvest.Json.Numeral

namespace Harvest.Json

structure Reader (α : Type) where
  read : List Char → Except Fault (α × List Char)
  progress : ∀ {s v r}, read s = .ok (v, r) → r.length < s.length

def isSpace (c : Char) : Bool := c = ' ' || c = '\n' || c = '\t' || c = '\r'

/-- The text after the blanks at its start. -/
def skip (s : List Char) : List Char := s.dropWhile isSpace

theorem length_skip_le (s : List Char) : (skip s).length ≤ s.length := (List.dropWhile_suffix isSpace).length_le

theorem length_of_skip {s t : List Char} {c : Char} (h : skip s = c :: t) : t.length < s.length := by
  have := length_skip_le s
  rw [h] at this
  exact this

/-! ## Lists and objects -/

/-- What tells lists and objects apart: the closing bracket and the faults for a text
    that ends too early and for a part followed by neither a comma nor the bracket. -/
structure Bracket where
  closing : Char
  unfinished : Cause
  unseparated : Cause

def listBracket : Bracket := ⟨']', .endInList, .listCommaOrEnd⟩

def objectBracket : Bracket := ⟨'\x7d', .endInObject, .objectCommaOrEnd⟩

variable {α : Type}

/-- The parts after a first one, added to those in `before`, the last one first. -/
def moreParts (b : Bracket) (part : Reader α) (before : List α) (s : List Char) :
    Except Fault (List α × List Char) :=
  match hs : skip s with
  | [] => fail b.unfinished []
  | c :: t =>
    if c = b.closing then .ok (before.reverse, t)
    else if c ≠ ',' then fail b.unseparated (c :: t)
    else match ht : skip t with
      | [] => fail .endInValue []
      | d :: u =>
        if d = b.closing then fail .trailingComma (d :: u)
        else match hp : part.read (d :: u) with
          | .error f => .error f
          | .ok (v, r) =>
            have := length_of_skip hs
            have := length_of_skip ht
            have := part.progress hp
            moreParts b part (v :: before) r
termination_by s.length
decreasing_by simp only [List.length_cons] at *; omega

/-- The parts up to the closing bracket, after the opening one. -/
def parts (b : Bracket) (part : Reader α) (s : List Char) : Except Fault (List α × List Char) :=
  match skip s with
  | [] => fail b.unfinished []
  | c :: t =>
    if c = b.closing then .ok ([], t)
    else match part.read (c :: t) with
      | .error f => .error f
      | .ok (v, r) => moreParts b part [v] r

theorem length_moreParts {b : Bracket} {part : Reader α} {before : List α} {s : List Char} {vs : List α}
    {r : List Char} (h : moreParts b part before s = .ok (vs, r)) : r.length < s.length := by
  fun_induction moreParts b part before s with
  | case1 => cases h
  | case2 before s t hs => cases h; exact length_of_skip hs
  | case3 => cases h
  | case4 => cases h
  | case5 => cases h
  | case6 => cases h
  | case7 before s c t hs _ _ d u ht _ v r' hp _ _ _ ih =>
    have := length_of_skip hs
    have := length_of_skip ht
    have := part.progress hp
    have := ih h
    simp only [List.length_cons] at *
    omega

theorem length_parts {b : Bracket} {part : Reader α} {s : List Char} {vs : List α} {r : List Char}
    (h : parts b part s = .ok (vs, r)) : r.length < s.length := by
  unfold parts at h
  split at h
  · cases h
  · rename_i c t hs
    have := length_of_skip hs
    split at h
    · cases h; exact this
    · split at h
      · cases h
      · rename_i v r' hp
        have := part.progress hp
        have := length_moreParts h
        simp only [List.length_cons] at *
        omega

/-! ## Members -/

def memberAfterQuote (value : Reader Json) (s : List Char) : Except Fault ((String × Json) × List Char) :=
  match characters [] s with
  | .error f => .error f
  | .ok (name, r) =>
    match skip r with
    | [] => fail .endInObject []
    | ':' :: t => (value.read t).map fun (v, r) => ((name, v), r)
    | c :: t => fail .colonExpected (c :: t)

/-- A name, a colon and a value. -/
def readMember (value : Reader Json) : List Char → Except Fault ((String × Json) × List Char)
  | '"' :: s => memberAfterQuote value s
  | s => fail .nameNotString s

theorem length_readMember {value : Reader Json} {s : List Char} {m : String × Json} {r : List Char}
    (h : readMember value s = .ok (m, r)) : r.length < s.length := by
  unfold readMember at h
  split at h
  · rename_i s
    unfold memberAfterQuote at h
    split at h
    · cases h
    rename_i name r' hc
    have hr := length_characters hc
    split at h
    · cases h
    · rename_i t hk
      have ht := length_of_skip hk
      obtain ⟨p, hv, e⟩ := of_map_ok h
      cases e
      have := value.progress hv
      simp only [List.length_cons]
      omega
    · cases h
  · cases h

def member (value : Reader Json) : Reader (String × Json) := ⟨readMember value, length_readMember⟩

/-! ## Values -/

/-- The text after the rest of a word, which has to be there letter for letter. -/
def afterWord : List Char → List Char → Except Fault (List Char)
  | [], s => .ok s
  | _ :: _, [] => fail .endInValue []
  | c :: w, d :: s => if c = d then afterWord w s else fail .wordExpected (d :: s)

theorem length_afterWord {w s r : List Char} (h : afterWord w s = .ok r) : r.length ≤ s.length := by
  fun_induction afterWord w s with
  | case1 => cases h; exact Nat.le_refl _
  | case2 => cases h
  | case3 c w s ih => exact Nat.le_succ_of_le (ih h)
  | case4 => cases h

/-- A value whose items and members are read by `inner`, if there is room for any. -/
def readValue (inner : Option (Reader Json)) (s : List Char) : Except Fault (Json × List Char) :=
  match skip s with
  | [] => fail .endInValue []
  | 'n' :: t => (afterWord ['u', 'l', 'l'] t).map (.null, ·)
  | 't' :: t => (afterWord ['r', 'u', 'e'] t).map (.bool true, ·)
  | 'f' :: t => (afterWord ['a', 'l', 's', 'e'] t).map (.bool false, ·)
  | '"' :: t => (characters [] t).map fun (s, r) => (.string s, r)
  | '[' :: t =>
    match inner with
    | none => fail .tooDeep ('[' :: t)
    | some value => (parts listBracket value t).map fun (vs, r) => (.array vs, r)
  | '\x7b' :: t =>
    match inner with
    | none => fail .tooDeep ('\x7b' :: t)
    | some value => (parts objectBracket (member value) t).map fun (ms, r) => (.ofMembers ms, r)
  | c :: t => if c = '-' || isDigit c then number (c :: t) else fail .valueExpected (c :: t)

theorem length_readValue {inner : Option (Reader Json)} {s : List Char} {v : Json} {r : List Char}
    (h : readValue inner s = .ok (v, r)) : r.length < s.length := by
  unfold readValue at h
  split at h
  · cases h
  all_goals
    rename_i hs
    refine Nat.lt_of_le_of_lt ?_ (length_of_skip hs)
  · obtain ⟨a, ha, e⟩ := of_map_ok h; cases e; exact length_afterWord ha
  · obtain ⟨a, ha, e⟩ := of_map_ok h; cases e; exact length_afterWord ha
  · obtain ⟨a, ha, e⟩ := of_map_ok h; cases e; exact length_afterWord ha
  · obtain ⟨a, ha, e⟩ := of_map_ok h; cases e; exact Nat.le_of_lt (length_characters ha)
  · split at h
    · cases h
    · obtain ⟨a, ha, e⟩ := of_map_ok h; cases e; exact Nat.le_of_lt (length_parts ha)
  · split at h
    · cases h
    · obtain ⟨a, ha, e⟩ := of_map_ok h; cases e; exact Nat.le_of_lt (length_parts ha)
  · split at h
    · exact Nat.le_of_lt_succ (length_number h)
    · cases h

/-- The reader of values with at most `room` containers around a scalar. -/
def value : Nat → Reader Json
  | 0 => ⟨readValue none, length_readValue⟩
  | room + 1 => ⟨readValue (some (value room)), length_readValue⟩

/-- The room for nesting in a document. -/
def room : Nat := 127

def parse (text : String) : Except SyntaxError Json :=
  match (value room).read text.toList with
  | .error f => .error (f.inText text)
  | .ok (v, r) =>
    match skip r with
    | [] => .ok v
    | c :: t => .error (Fault.inText (.at .trailingCharacters (c :: t)) text)

end Harvest.Json
