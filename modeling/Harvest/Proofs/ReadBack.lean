/-
  Harvest.Proofs.ReadBack — documents printed over several lines and read back.

  A document that is printed over several lines is read as the value it was, if no double
  stands in it and it nests no more containers than the reader has room for
  (`parse_line_pretty`). A double is read from its digits by one scaling, which need not
  give it back.

  Said of a part of a document: its reader takes the text of the part for its value
  whatever follows, be it a comma, a line feed or the end (`Reader.Reads`). So texts,
  numbers and words are read back one by one, and a block whose parts are read back is
  itself (`reads_block`), by an induction on its parts for what comes after the first.
-/

import Harvest.Json.Reader
import Harvest.Proofs.Written
import Mathlib.Algebra.Group.Nat.Defs
import Mathlib.Data.List.Forall2

namespace Harvest.Json

/-! ## Texts -/

theorem characters_escape {s r : List Char} {c : Char} (h : escaped s = .ok (c, r)) (before : List Char) :
    characters before ('\\' :: s) = characters (c :: before) r := by
  rw [characters]
  split
  · rename_i f hf
    rw [hf] at h
    cases h
  · rename_i c' r' hc
    rw [hc] at h
    cases h
    rfl

theorem hexDigit?_digitChar : ∀ n, n < 16 → hexDigit? (Nat.digitChar n) = some n := by decide

/-- A control character is written by the four digits of its code point. -/
theorem escaped_unit {c : Char} (h : c.toNat < 0x20) (r : List Char) :
    escaped ('u' :: '0' :: '0' :: Nat.digitChar (c.toNat / 16) :: Nat.digitChar (c.toNat % 16) :: r) = .ok (c, r) := by
  have hhigh := hexDigit?_digitChar (c.toNat / 16) (by omega)
  have hlow := hexDigit?_digitChar (c.toNat % 16) (by omega)
  have hzero : hexDigit? '0' = some 0 := by decide
  have hunit : unit ('0' :: '0' :: Nat.digitChar (c.toNat / 16) :: Nat.digitChar (c.toNat % 16) :: r) =
      .ok (c.toNat, r) := by
    rw [unit, hzero, hhigh, hlow]
    dsimp only
    congr 2
    omega
  have htrailing : isTrailing c.toNat = false := by
    simp only [isTrailing, Bool.and_eq_false_iff, decide_eq_false_iff_not]
    omega
  have hleading : isLeading c.toNat = false := by
    simp only [isLeading, Bool.and_eq_false_iff, decide_eq_false_iff_not]
    omega
  show scalar _ = _
  rw [scalar, hunit]
  show (if isTrailing c.toNat then _ else if isLeading c.toNat then _ else _) = _
  rw [htrailing, hleading]
  simp only [Bool.false_eq_true, if_false, Char.ofNat_toNat]
  rfl

/-- Each character is read as what it was, escaped or not. -/
theorem characters_escapeChar (c : Char) (before r : List Char) :
    characters before (escapeChar c ++ r) = characters (c :: before) r := by
  unfold escapeChar
  split_ifs with hquote hbackslash hb ht hn hf hr hcontrol
  any_goals
    subst c
    exact characters_escape rfl before
  · exact characters_escape (escaped_unit hcontrol r) before
  · rw [List.singleton_append, characters]
    · rw [if_neg hcontrol]
    · exact hquote
    · exact hbackslash

/-- The characters of a printed text are read back, with the closing quote. -/
theorem characters_flatMap_escapeChar (l before r : List Char) :
    characters before (l.flatMap escapeChar ++ '"' :: r) = .ok (String.ofList (before.reverse ++ l), r) := by
  induction l generalizing before with
  | nil => rw [List.flatMap_nil, List.nil_append, characters, List.append_nil]
  | cons c l ih =>
    rw [List.flatMap_cons, List.append_assoc, characters_escapeChar, ih, List.reverse_cons, List.append_assoc]
    rfl

theorem toList_stringText (s : String) : (stringText s).toList = '"' :: (s.toList.flatMap escapeChar ++ ['"']) := by
  simp [stringText]

/-! ## Numbers -/

/-- What may follow a value that a container holds. -/
def Ends (rest : List Char) : Prop := ∀ c ∈ rest.head?, c = ',' ∨ c = '\n'

theorem isDigit_of_mem_toDigits {n : Nat} {c : Char} (h : c ∈ Nat.toDigits 10 n) : isDigit c :=
  Nat.isDigit_of_mem_toDigits (by decide) (by decide) h

/-- No number but zero is written with a leading zero. -/
theorem toDigits_eq_cons (n : Nat) : ∃ c l, Nat.toDigits 10 n = c :: l ∧ (c = '0' → l = [] ∧ n = 0) := by
  induction n using Nat.strong_induction_on with
  | _ n ih =>
    by_cases hn : n < 10
    · rw [Nat.toDigits_of_lt_base hn]
      have hzero : ∀ m, m < 10 → Nat.digitChar m = '0' → m = 0 := by decide
      exact ⟨_, [], rfl, fun hc => ⟨rfl, hzero n hn hc⟩⟩
    · obtain ⟨c, l, hl, hz⟩ := ih (n / 10) (by omega)
      rw [Nat.toDigits_of_base_le (by decide) (by omega), hl]
      refine ⟨c, _, rfl, fun hc => ?_⟩
      have := (hz hc).2
      omega

theorem Ends.takeWhile_isDigit {rest : List Char} (h : Ends rest) :
    rest.takeWhile isDigit = [] ∧ rest.dropWhile isDigit = rest := by
  cases rest with
  | nil => exact ⟨rfl, rfl⟩
  | cons c rest =>
    have hc : isDigit c = false := by
      rcases h c rfl with rfl | rfl <;> decide
    rw [List.takeWhile_cons_of_neg (by simp [hc]), List.dropWhile_cons_of_neg (by simp [hc])]
    exact ⟨rfl, rfl⟩

theorem digits_append {ds rest : List Char} (hne : ds ≠ []) (hds : ∀ c ∈ ds, isDigit c) (h : Ends rest) :
    digits (ds ++ rest) = .ok (ds, rest) := by
  obtain ⟨c, l, rfl⟩ := List.exists_cons_of_ne_nil hne
  have hl : ∀ d ∈ l, isDigit d := fun d hd => hds d (List.mem_cons_of_mem _ hd)
  rw [List.cons_append, digits, if_pos (hds c (List.mem_cons_self ..)), List.takeWhile_append_of_pos hl,
    List.dropWhile_append_of_pos hl, h.takeWhile_isDigit.1, h.takeWhile_isDigit.2, List.append_nil]

theorem wholeDigits_toDigits (n : Nat) {rest : List Char} (h : Ends rest) :
    wholeDigits (Nat.toDigits 10 n ++ rest) = .ok (Nat.toDigits 10 n, rest) := by
  have hdigits : digits (Nat.toDigits 10 n ++ rest) = .ok (Nat.toDigits 10 n, rest) :=
    digits_append Nat.toDigits_ne_nil (fun _ => isDigit_of_mem_toDigits) h
  obtain ⟨c, l, hl, hz⟩ := toDigits_eq_cons n
  rw [hl] at hdigits ⊢
  unfold wholeDigits
  split
  · rename_i d r heq
    obtain ⟨rfl, hr⟩ := List.cons.inj heq
    obtain ⟨rfl, -⟩ := hz rfl
    change rest = d :: r at hr
    subst hr
    have hd : isDigit d = false := by
      rcases h d rfl with rfl | rfl <;> decide
    rw [hd]
    rfl
  · exact hdigits

theorem fractionDigits_of_ends {rest : List Char} (h : Ends rest) : fractionDigits rest = .ok (none, rest) := by
  unfold fractionDigits
  split
  · rcases h _ rfl with hc | hc <;> cases hc
  · rfl

theorem exponentDigits_of_ends {rest : List Char} (h : Ends rest) : exponentDigits rest = .ok (none, rest) := by
  unfold exponentDigits
  split
  · rcases h _ rfl with hc | hc <;> cases hc
  · rcases h _ rfl with hc | hc <;> cases hc
  · rfl

theorem unsignedNumeral_toDigits (negative : Bool) (n : Nat) {rest : List Char} (h : Ends rest) :
    unsignedNumeral negative (Nat.toDigits 10 n ++ rest) = .ok (⟨negative, Nat.toDigits 10 n, none, none⟩, rest) := by
  rw [unsignedNumeral, wholeDigits_toDigits n h]
  show (fractionDigits rest >>= _) = _
  rw [fractionDigits_of_ends h]
  show (exponentDigits rest >>= _) = _
  rw [exponentDigits_of_ends h]
  rfl

theorem le_ofDigitChars (ds : List Char) (n : Nat) : n ≤ Nat.ofDigitChars 10 ds n := by
  induction ds generalizing n with
  | nil => exact le_rfl
  | cons d ds ih =>
    rw [Nat.ofDigitChars_cons]
    exact le_trans (by omega) (ih _)

/-- Digits of a number below the bound are all taken. -/
theorem absorb_eq {ds : List Char} {n : Nat} (h : Nat.ofDigitChars 10 ds n < UInt64.size) :
    absorb n ds = (Nat.ofDigitChars 10 ds n, []) := by
  induction ds generalizing n with
  | nil => rfl
  | cons d ds ih =>
    rw [Nat.ofDigitChars_cons] at h ⊢
    rw [absorb, digitValue, if_pos ((le_ofDigitChars ds _).trans_lt h), ih h]

theorem absorb_toDigits {n : Nat} (h : n < 2 ^ 64) : absorb 0 (Nat.toDigits 10 n) = (n, []) := by
  have hn : Nat.ofDigitChars 10 (Nat.toDigits 10 n) 0 = n := Nat.ofDigitChars_ten_toDigits
  rw [absorb_eq (by rw [hn]; exact h), hn]

theorem numeral_toDigits (n : Nat) {rest : List Char} (h : Ends rest) :
    numeral (Nat.toDigits 10 n ++ rest) = .ok (⟨false, Nat.toDigits 10 n, none, none⟩, rest) := by
  obtain ⟨c, l, hl, -⟩ := toDigits_eq_cons n
  have hc : isDigit c := isDigit_of_mem_toDigits (hl ▸ List.mem_cons_self ..)
  rw [← unsignedNumeral_toDigits false n h, hl, List.cons_append]
  unfold numeral
  split
  · rename_i heq
    rw [(List.cons.inj heq).1] at hc
    cases hc
  · rfl

theorem toList_toString_ofNat (n : Nat) : (toString (Int.ofNat n)).toList = Nat.toDigits 10 n := Nat.toList_repr

theorem toList_toString_negSucc (n : Nat) : (toString (Int.negSucc n)).toList = '-' :: Nat.toDigits 10 (n + 1) := by
  show ("-" ++ toString (n + 1)).toList = _
  rw [String.toList_append, Nat.toString_eq_repr, Nat.toList_repr]
  rfl

theorem number_toString {n : Int} (hlow : -2 ^ 63 ≤ n) (hhigh : n < 2 ^ 64) {rest : List Char} (h : Ends rest) :
    number ((toString n).toList ++ rest) = .ok (.int n, rest) := by
  cases n with
  | ofNat n =>
    have hn : n < 2 ^ 64 := by
      have : ((n : Nat) : Int) < 2 ^ 64 := hhigh
      omega
    rw [toList_toString_ofNat, number, numeral_toDigits n h]
    show (Numeral.value _ rest >>= _) = _
    simp only [Numeral.value, absorb_toDigits hn]
    rfl
  | negSucc n =>
    have hn : n + 1 ≤ UInt64.size / 2 := by
      have : -2 ^ 63 ≤ Int.negSucc n := hlow
      have : UInt64.size / 2 = 2 ^ 63 := rfl
      omega
    have hnumeral : numeral ('-' :: Nat.toDigits 10 (n + 1) ++ rest) =
        .ok (⟨true, Nat.toDigits 10 (n + 1), none, none⟩, rest) := unsignedNumeral_toDigits true (n + 1) h
    rw [toList_toString_negSucc, number, hnumeral]
    show (Numeral.value _ rest >>= _) = _
    simp only [Numeral.value, absorb_toDigits (hn.trans_lt (by decide))]
    rw [if_neg (by simp), if_pos ⟨Nat.succ_pos n, hn⟩]
    rfl

/-- How a number begins. -/
theorem toString_int_first (n : Int) : ∃ c l, (toString n).toList = c :: l ∧ (c = '-' ∨ isDigit c) := by
  cases n with
  | ofNat n =>
    obtain ⟨c, l, hl, -⟩ := toDigits_eq_cons n
    exact ⟨c, l, (toList_toString_ofNat n).trans hl, Or.inr (isDigit_of_mem_toDigits (hl ▸ List.mem_cons_self ..))⟩
  | negSucc n => exact ⟨'-', _, toList_toString_negSucc n, Or.inl rfl⟩

/-! ## Lists and objects -/

theorem skip_append {spaces : List Char} (h : ∀ c ∈ spaces, isSpace c) {c : Char} (hc : isSpace c = false)
    (r : List Char) : skip (spaces ++ c :: r) = c :: r := by
  rw [skip, List.dropWhile_append_of_pos h, List.dropWhile_cons_of_neg (by simp [hc])]

/-- A line feed and an indentation. -/
def margin (depth : Nat) : List Char := '\n' :: List.replicate (2 * depth) ' '

theorem isSpace_of_mem_margin {depth : Nat} {c : Char} (h : c ∈ margin depth) : isSpace c := by
  rcases List.mem_cons.mp h with rfl | h
  · rfl
  · rw [List.eq_of_mem_replicate h]
    rfl

variable {α : Type}

/-- The reader takes the text for this, whatever follows it in a container. -/
structure Reader.Reads (reader : Reader α) (a : α) (text : List Char) : Prop where
  first : ∃ c l, text = c :: l ∧ isSpace c = false ∧ c ≠ ']' ∧ c ≠ '\x7d'
  read : ∀ rest, Ends rest → reader.read (text ++ rest) = .ok (a, rest)

theorem moreParts_of_closing {b : Bracket} {part : Reader α} {s t : List Char} (h : skip s = b.closing :: t)
    (before : List α) : moreParts b part before s = .ok (before.reverse, t) := by
  rw [moreParts]
  split
  · rename_i hs
    rw [h] at hs
    cases hs
  · rename_i c t' hs
    rw [h] at hs
    cases hs
    rw [if_pos rfl]

theorem moreParts_of_comma {b : Bracket} {part : Reader α} {s t r : List Char} {a : α} (hb : b.closing ≠ ',')
    (h : skip s = ',' :: t) {c : Char} {u : List Char} (ht : skip t = c :: u) (hc : c ≠ b.closing)
    (hp : part.read (c :: u) = .ok (a, r)) (before : List α) :
    moreParts b part before s = moreParts b part (a :: before) r := by
  rw [moreParts]
  split
  · rename_i hs
    rw [h] at hs
    cases hs
  · rename_i c' t' hs
    rw [h] at hs
    cases hs
    rw [if_neg hb.symm, if_neg (by simp)]
    split
    · rename_i ht'
      rw [ht] at ht'
      cases ht'
    · rename_i d u' ht'
      rw [ht] at ht'
      cases ht'
      rw [if_neg hc]
      split
      · rename_i f hf
        rw [hp] at hf
        cases hf
      · rename_i a' r' ha
        rw [hp] at ha
        cases ha
        rfl

/-- What stands after the first part of a block: the others, each after a comma, and the closing bracket. -/
def blockRest (depth : Nat) (b : Bracket) (texts : List (List Char)) : List Char :=
  texts.flatMap (fun t => ',' :: (margin (depth + 1) ++ t)) ++ (margin depth ++ [b.closing])

theorem ends_blockRest (depth : Nat) (b : Bracket) (texts : List (List Char)) (rest : List Char) :
    Ends (blockRest depth b texts ++ rest) := by
  intro c hc
  cases texts with
  | nil =>
    cases hc
    exact Or.inr rfl
  | cons t texts =>
    cases hc
    exact Or.inl rfl

section

variable {b : Bracket} (hb : b.closing = ']' ∨ b.closing = '\x7d')
include hb

theorem Bracket.isSpace_closing : isSpace b.closing = false := by
  rcases hb with hb | hb <;> rw [hb] <;> decide

/-- A part is not taken for the end of the block. -/
theorem Reader.Reads.begins {part : Reader α} {a : α} {text : List Char} (h : part.Reads a text) :
    ∃ c l, text = c :: l ∧ isSpace c = false ∧ c ≠ b.closing ∧
      ∀ rest, Ends rest → part.read (c :: (l ++ rest)) = .ok (a, rest) := by
  obtain ⟨c, l, rfl, hc, hlist, hobject⟩ := h.first
  refine ⟨c, l, rfl, hc, ?_, h.read⟩
  rcases hb with hb | hb <;> rw [hb] <;> assumption

theorem moreParts_blockRest {part : Reader α} {as : List α} {texts : List (List Char)}
    (h : List.Forall₂ part.Reads as texts) (depth : Nat) (before : List α) (rest : List Char) :
    moreParts b part before (blockRest depth b texts ++ rest) = .ok (before.reverse ++ as, rest) := by
  have hcomma : b.closing ≠ ',' := by
    rcases hb with hb | hb <;> rw [hb] <;> decide
  induction h generalizing before with
  | nil =>
    have hskip : skip (blockRest depth b [] ++ rest) = b.closing :: rest := by
      rw [blockRest, List.flatMap_nil, List.nil_append, List.append_assoc]
      exact skip_append (fun _ => isSpace_of_mem_margin) (Bracket.isSpace_closing hb) rest
    rw [moreParts_of_closing hskip, List.append_nil]
  | @cons a text as texts ha _ ih =>
    obtain ⟨c, l, hl, hc, hne, hread⟩ := ha.begins hb
    have hskip : skip (blockRest depth b (text :: texts) ++ rest) =
        ',' :: (margin (depth + 1) ++ (c :: (l ++ (blockRest depth b texts ++ rest)))) := by
      have htext : blockRest depth b (text :: texts) ++ rest =
          ',' :: (margin (depth + 1) ++ (c :: (l ++ (blockRest depth b texts ++ rest)))) := by
        simp [blockRest, hl]
      rw [htext]
      rfl
    rw [moreParts_of_comma hcomma hskip (skip_append (fun _ => isSpace_of_mem_margin) hc _) hne
      (hread _ (ends_blockRest depth b texts rest)), ih, List.reverse_cons, List.append_assoc]
    rfl

end

/-- What stands between the brackets of a block, and the closing one. -/
def blockBody (depth : Nat) (b : Bracket) : List (List Char) → List Char
  | [] => [b.closing]
  | t :: texts => margin (depth + 1) ++ (t ++ blockRest depth b texts)

theorem parts_blockBody {b : Bracket} {part : Reader α} {as : List α} {texts : List (List Char)}
    (hb : b.closing = ']' ∨ b.closing = '\x7d') (h : List.Forall₂ part.Reads as texts) (depth : Nat)
    (rest : List Char) : parts b part (blockBody depth b texts ++ rest) = .ok (as, rest) := by
  cases h with
  | nil =>
    have hskip : skip (blockBody depth b [] ++ rest) = b.closing :: rest :=
      @skip_append [] nofun _ (Bracket.isSpace_closing hb) rest
    rw [parts, hskip]
    dsimp only
    rw [if_pos rfl]
  | @cons a text as texts ha h =>
    obtain ⟨c, l, hl, hc, hne, hread⟩ := ha.begins hb
    have hskip : skip (blockBody depth b (text :: texts) ++ rest) = c :: (l ++ (blockRest depth b texts ++ rest)) := by
      simp only [blockBody, hl, List.append_assoc, List.cons_append]
      exact skip_append (fun _ => isSpace_of_mem_margin) hc _
    rw [parts, hskip]
    dsimp only
    rw [if_neg hne, hread _ (ends_blockRest depth b texts rest)]
    exact moreParts_blockRest hb h depth [a] rest

theorem toList_intercalate_cons (separator s : String) (l : List String) :
    (separator.intercalate (s :: l)).toList = s.toList ++ l.flatMap fun t => separator.toList ++ t.toList := by
  induction l generalizing s with
  | nil => simp [String.intercalate_singleton]
  | cons t l ih =>
    rw [String.intercalate_cons_cons, String.toList_append, String.toList_append, ih, List.flatMap_cons,
      List.append_assoc, List.append_assoc]

theorem toList_indent (depth : Nat) : (Text.indent depth).toList = List.replicate (2 * depth) ' ' := by
  rw [Text.indent, String.toList_ofList]

theorem toList_block {b : Bracket} {opening closing : String} (hclosing : closing.toList = [b.closing]) (depth : Nat)
    (parts : List String) :
    (block opening closing depth parts).toList = opening.toList ++ blockBody depth b (parts.map String.toList) := by
  cases parts with
  | nil => simp [block, blockBody, hclosing]
  | cons s l =>
    simp [block, blockBody, blockRest, margin, hclosing, toList_intercalate_cons, toList_indent, List.flatMap_map,
      -String.toList_intercalate]

/-! ## Members -/

theorem value_read_space (room : Nat) (s : List Char) : (value room).read (' ' :: s) = (value room).read s := by
  cases room <;> rfl

theorem readMember_of_read {reader : Reader Json} {v : Json} {s rest : List Char}
    (h : reader.read (' ' :: s) = .ok (v, rest)) (name : String) :
    readMember reader ('"' :: (name.toList.flatMap escapeChar ++ '"' :: ':' :: ' ' :: s)) = .ok ((name, v), rest) := by
  show memberAfterQuote reader _ = _
  rw [memberAfterQuote, characters_flatMap_escapeChar]
  show (reader.read (' ' :: s)).map _ = _
  rw [h, List.reverse_nil, List.nil_append, String.ofList_toList]
  rfl

theorem toList_member (name text : String) : (stringText name ++ ": " ++ text).toList =
    '"' :: (name.toList.flatMap escapeChar ++ '"' :: ':' :: ' ' :: text.toList) := by
  simp [toList_stringText]

theorem reads_member {room : Nat} {v : Json} {text : String} (h : (value room).Reads v text.toList) (name : String) :
    (member (value room)).Reads (name, v) (stringText name ++ ": " ++ text).toList where
  first := ⟨_, _, toList_member name text, by decide, by decide, by decide⟩
  read rest hrest := by
    have htext : (stringText name ++ ": " ++ text).toList ++ rest =
        '"' :: (name.toList.flatMap escapeChar ++ '"' :: ':' :: ' ' :: (text.toList ++ rest)) := by
      rw [toList_member]
      simp
    rw [htext]
    refine readMember_of_read ?_ name
    rw [value_read_space]
    exact h.read rest hrest

theorem put_of_notMem {name : String} {v : Json} {members : List (String × Json)} (h : name ∉ members.map (·.1)) :
    put name v members = members ++ [(name, v)] := by
  induction members with
  | nil => rfl
  | cons m members ih =>
    obtain ⟨n, w⟩ := m
    rw [List.map_cons, List.mem_cons, not_or] at h
    rw [put, if_neg (Ne.symm h.1), ih h.2]
    rfl

/-- Members with distinct names are all kept. -/
theorem ofMembers_eq {members : List (String × Json)} (h : (members.map (·.1)).Nodup) :
    ofMembers members = .object members := by
  have hfold : ∀ (l : List (String × Json)) (before : List (String × Json)), ((before ++ l).map (·.1)).Nodup →
      l.foldl (fun ms m => put m.1 m.2 ms) before = before ++ l := by
    intro l
    induction l with
    | nil => simp
    | cons m l ih =>
      intro before hnodup
      have hnotMem : m.1 ∉ before.map (·.1) := by
        rw [List.map_append, List.map_cons, List.nodup_append] at hnodup
        exact fun hm => hnodup.2.2 _ hm _ (List.mem_cons_self ..) rfl
      show l.foldl _ (put m.1 m.2 before) = _
      rw [put_of_notMem hnotMem, ih _ (by simpa using hnodup), List.append_assoc]
      rfl
  exact congrArg Json.object (hfold members [] h)

/-! ## Values -/

/-- No double stands in the value. -/
inductive FloatFree : Json → Prop
  | null : null.FloatFree
  | bool (b : Bool) : (bool b).FloatFree
  | int (n : Int) : (int n).FloatFree
  | string (s : String) : (string s).FloatFree
  | array {items : List Json} : (∀ v ∈ items, v.FloatFree) → (array items).FloatFree
  | object {members : List (String × Json)} : (∀ m ∈ members, m.2.FloatFree) → (object members).FloatFree

theorem FloatFree.of_entry {v : Json} (hv : v.FloatFree) {entries : List (Entry Json)}
    (hentries : Nesting.entries v = some entries) {e : Entry Json} (he : e ∈ entries) : e.value.FloatFree := by
  cases hv with
  | array hitems =>
    cases hentries
    obtain ⟨i, hi, rfl⟩ := List.mem_mapIdx.mp he
    exact hitems _ (List.getElem_mem hi)
  | object hmembers =>
    cases hentries
    obtain ⟨i, hi, rfl⟩ := List.mem_mapIdx.mp he
    exact hmembers _ (List.getElem_mem hi)
  | _ => cases hentries

mutual

/-- How many containers are nested in one another at most. -/
def depth : Json → Nat
  | .array items => depthAll items + 1
  | .object members => depthMembers members + 1
  | _ => 0

def depthAll : List Json → Nat
  | [] => 0
  | v :: rest => max (depth v) (depthAll rest)

def depthMembers : List (String × Json) → Nat
  | [] => 0
  | (_, v) :: rest => max (depth v) (depthMembers rest)

end

theorem depthAll_le_iff {l : List Json} {n : Nat} : depthAll l ≤ n ↔ ∀ v ∈ l, v.depth ≤ n := by
  induction l with
  | nil => simp [depthAll]
  | cons v l ih => rw [depthAll, Nat.max_le, ih, List.forall_mem_cons]

theorem depthMembers_le_iff {l : List (String × Json)} {n : Nat} : depthMembers l ≤ n ↔ ∀ m ∈ l, m.2.depth ≤ n := by
  induction l with
  | nil => simp [depthMembers]
  | cons m l ih => rw [depthMembers, Nat.max_le, ih, List.forall_mem_cons]

/-- An entry nests fewer containers than what it stands in. -/
theorem depth_lt_of_entry {v : Json} {entries : List (Entry Json)} (hentries : Nesting.entries v = some entries)
    {e : Entry Json} (he : e ∈ entries) : e.value.depth < v.depth := by
  cases v with
  | array items =>
    cases hentries
    obtain ⟨i, hi, rfl⟩ := List.mem_mapIdx.mp he
    exact Nat.lt_succ_of_le (depthAll_le_iff.mp le_rfl _ (List.getElem_mem hi))
  | object members =>
    cases hentries
    obtain ⟨i, hi, rfl⟩ := List.mem_mapIdx.mp he
    exact Nat.lt_succ_of_le (depthMembers_le_iff.mp le_rfl _ (List.getElem_mem hi))
  | _ => cases hentries

theorem prettyItems_eq_map (level : Nat) (l : List Json) : prettyItems level l = l.map (prettyAt level) := by
  induction l with
  | nil => rfl
  | cons v l ih => rw [prettyItems, ih, List.map_cons]

theorem prettyMembers_eq_map (level : Nat) (l : List (String × Json)) :
    prettyMembers level l = l.map fun m => stringText m.1 ++ ": " ++ prettyAt level m.2 := by
  induction l with
  | nil => rfl
  | cons m l ih => rw [prettyMembers, ih, List.map_cons]

theorem isSpace_eq_false_of_first {c : Char} (hc : c = '-' ∨ isDigit c) : isSpace c = false := by
  cases hs : isSpace c with
  | false => rfl
  | true =>
    simp only [isSpace, Bool.or_eq_true, decide_eq_true_eq] at hs
    rcases hs with ((rfl | rfl) | rfl) | rfl <;> rcases hc with hc | hc <;> cases hc

/-- A text that begins as a number does is read as one. -/
theorem readValue_of_first {c : Char} (hc : c = '-' ∨ isDigit c) (l : List Char) (inner : Option (Reader Json)) :
    readValue inner (c :: l) = number (c :: l) := by
  have hskip : skip (c :: l) = c :: l := @skip_append [] nofun _ (isSpace_eq_false_of_first hc) l
  unfold readValue
  rw [hskip]
  split
  case h_8 heq =>
    obtain ⟨rfl, rfl⟩ := List.cons.inj heq
    rw [if_pos (by simpa using hc)]
  case h_1 heq => cases heq
  all_goals
    rename_i heq
    rw [(List.cons.inj heq).1] at hc
    rcases hc with hc | hc <;> cases hc

theorem value_read (room : Nat) (s : List Char) : ∃ inner, (value room).read s = readValue inner s := by
  cases room with
  | zero => exact ⟨none, rfl⟩
  | succ room => exact ⟨some (value room), rfl⟩

theorem reads_int {n : Int} (hlow : -2 ^ 63 ≤ n) (hhigh : n < 2 ^ 64) (room : Nat) :
    (value room).Reads (.int n) (toString n).toList := by
  obtain ⟨c, l, hl, hc⟩ := toString_int_first n
  have hlist : c ≠ ']' := by rintro rfl; rcases hc with hc | hc <;> cases hc
  have hobject : c ≠ '\x7d' := by rintro rfl; rcases hc with hc | hc <;> cases hc
  refine ⟨⟨c, l, hl, isSpace_eq_false_of_first hc, hlist, hobject⟩, fun rest hrest => ?_⟩
  obtain ⟨inner, hinner⟩ := value_read room ((toString n).toList ++ rest)
  rw [hinner, hl, List.cons_append, readValue_of_first hc, ← List.cons_append, ← hl, number_toString hlow hhigh hrest]

theorem reads_string (s : String) (room : Nat) : (value room).Reads (.string s) (stringText s).toList where
  first := ⟨_, _, toList_stringText s, by decide, by decide, by decide⟩
  read rest _ := by
    obtain ⟨inner, hinner⟩ := value_read room ((stringText s).toList ++ rest)
    have htext : (stringText s).toList ++ rest = '"' :: (s.toList.flatMap escapeChar ++ '"' :: rest) := by
      rw [toList_stringText]
      simp
    rw [hinner, htext]
    show (characters [] _).map _ = _
    rw [characters_flatMap_escapeChar, List.reverse_nil, List.nil_append, String.ofList_toList]
    rfl

theorem reads_word {v : Json} {word : String} {c : Char} {l : List Char} (hword : word.toList = c :: l)
    (hspace : isSpace c = false) (hlist : c ≠ ']') (hobject : c ≠ '\x7d')
    (hread : ∀ inner rest, readValue inner (c :: l ++ rest) = .ok (v, rest)) (room : Nat) :
    (value room).Reads v word.toList where
  first := ⟨c, l, hword, hspace, hlist, hobject⟩
  read rest _ := by
    obtain ⟨inner, hinner⟩ := value_read room (word.toList ++ rest)
    rw [hinner, hword, hread]

/-- A reader that goes on to the parts after an opening bracket reads a block. -/
theorem reads_block {reader : Reader Json} {b : Bracket} {part : Reader α} {f : List α → Json}
    {opening closing : String} {c : Char} (hb : b.closing = ']' ∨ b.closing = '\x7d')
    (hclosing : closing.toList = [b.closing]) (hopening : opening.toList = [c])
    (hc : isSpace c = false ∧ c ≠ ']' ∧ c ≠ '\x7d')
    (hread : ∀ s, reader.read (c :: s) = (parts b part s).map (Prod.map f id)) {as : List α}
    {texts : List String} (h : List.Forall₂ (fun a t => part.Reads a t.toList) as texts) (level : Nat) :
    reader.Reads (f as) (block opening closing level texts).toList := by
  rw [toList_block hclosing, hopening]
  refine ⟨⟨c, _, rfl, hc⟩, fun rest _ => ?_⟩
  show reader.read (c :: (blockBody level b (texts.map String.toList) ++ rest)) = _
  rw [hread, parts_blockBody hb (List.forall₂_map_right_iff.mpr h)]
  rfl

/-- What is printed over several lines is read as it was, if there are no doubles in it and no
    more containers in one another than the reader has room for. -/
theorem reads_prettyAt {v : Json} (hv : v.IsDocument) (hf : v.FloatFree) {room : Nat} (hd : v.depth ≤ room)
    (level : Nat) : (value room).Reads v (prettyAt level v).toList := by
  induction hv generalizing room level with
  | null => exact @reads_word .null "null" 'n' _ rfl (by decide) (by decide) (by decide) (fun _ _ => rfl) room
  | bool b =>
    cases b with
    | true => exact @reads_word _ "true" 't' _ rfl (by decide) (by decide) (by decide) (fun _ _ => rfl) room
    | false => exact @reads_word _ "false" 'f' _ rfl (by decide) (by decide) (by decide) (fun _ _ => rfl) room
  | int hlow hhigh => exact reads_int hlow hhigh room
  | float => cases hf
  | string s => exact reads_string s room
  | @array items hitems ih =>
    obtain _ | room := room
    · cases hd
    have hbelow := depthAll_le_iff.mp (Nat.le_of_succ_le_succ hd)
    cases hf with
    | array hf =>
      have hread : ∀ s, (value (room + 1)).read ('[' :: s) =
          (parts listBracket (value room) s).map (Prod.map .array id) := fun _ => rfl
      rw [prettyAt, prettyItems_eq_map]
      refine reads_block (Or.inl rfl) rfl rfl (by decide) hread ?_ level
      rw [List.forall₂_map_right_iff, List.forall₂_same]
      exact fun v hv => ih v hv (hf v hv) (hbelow v hv) (level + 1)
  | @object members hnames hmembers ih =>
    obtain _ | room := room
    · cases hd
    have hbelow := depthMembers_le_iff.mp (Nat.le_of_succ_le_succ hd)
    cases hf with
    | object hf =>
      have hread : ∀ s, (value (room + 1)).read ('\x7b' :: s) =
          (parts objectBracket (member (value room)) s).map (Prod.map ofMembers id) := fun _ => rfl
      rw [prettyAt, prettyMembers_eq_map, ← ofMembers_eq hnames]
      refine reads_block (Or.inr rfl) rfl rfl (by decide) hread ?_ level
      rw [List.forall₂_map_right_iff, List.forall₂_same]
      exact fun m hm => reads_member (ih m hm (hf m hm) (hbelow m hm) (level + 1)) m.1

/-- A document printed over several lines, and ended by a line feed, is read as it was. -/
theorem parse_line_pretty {v : Json} (hv : v.IsDocument) (hf : v.FloatFree) (hd : v.depth ≤ Json.room) :
    parse (Text.line v.pretty) = .ok v := by
  have hends : Ends ['\n'] := by
    rintro c ⟨⟩
    exact Or.inr rfl
  have htext : (Text.line v.pretty).toList = (prettyAt 0 v).toList ++ ['\n'] := String.toList_append
  rw [parse, htext, (reads_prettyAt hv hf hd 0).read _ hends]
  rfl

end Harvest.Json
