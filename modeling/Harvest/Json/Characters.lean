/-
  Harvest.Json.Characters — the characters of a string, from its opening quote to its
  closing one.

  An escape stands for one character. Four hexadecimal digits give a UTF-16 unit: a
  leading surrogate needs the escape of a trailing one right after it, and a trailing
  one may not come first. Control characters below U+0020 have to be escaped.
-/

import Harvest.Json.Fault

namespace Harvest.Json

/-! ## Escapes -/

def hexDigit? (c : Char) : Option Nat :=
  if '0' ≤ c ∧ c ≤ '9' then some (c.toNat - '0'.toNat)
  else if 'a' ≤ c ∧ c ≤ 'f' then some (c.toNat - 'a'.toNat + 10)
  else if 'A' ≤ c ∧ c ≤ 'F' then some (c.toNat - 'A'.toNat + 10)
  else none

/-- Four hexadecimal digits; four bytes are taken before any of them is judged. -/
def unit : List Char → Except Fault (Nat × List Char)
  | a :: b :: c :: d :: r =>
    match hexDigit? a, hexDigit? b, hexDigit? c, hexDigit? d with
    | some a, some b, some c, some d => .ok (((a * 16 + b) * 16 + c) * 16 + d, r)
    | _, _, _, _ => fail .invalidEscape (a :: b :: c :: d :: r) 4
  | s => if bytes s < 4 then fail .endInString [] else fail .invalidEscape s 4

def isLeading (u : Nat) : Bool := 0xd800 ≤ u && u ≤ 0xdbff

def isTrailing (u : Nat) : Bool := 0xdc00 ≤ u && u ≤ 0xdfff

/-- The escape of the trailing surrogate that a leading one needs. -/
def trailing : List Char → Except Fault (Nat × List Char)
  | [] => fail .endInString []
  | ['\\'] => fail .endInString []
  | '\\' :: 'u' :: r => do
    let (u, r) ← unit r
    if isTrailing u then .ok (u, r) else fail .loneSurrogate r 0
  | '\\' :: c :: r => fail .unfinishedSurrogate (c :: r)
  | c :: r => fail .unfinishedSurrogate (c :: r)

/-- The character of one escaped unit or of two, after the first `\u`. -/
def scalar (s : List Char) : Except Fault (Char × List Char) := do
  let (u, r) ← unit s
  if isTrailing u then fail .loneSurrogate r 0
  else if isLeading u then
    let (t, r) ← trailing r
    return (Char.ofNat (0x10000 + (u - 0xd800) * 0x400 + (t - 0xdc00)), r)
  else return (Char.ofNat u, r)

/-- The character of an escape, after its backslash. -/
def escaped : List Char → Except Fault (Char × List Char)
  | [] => fail .endInString []
  | '"' :: r => .ok ('"', r)
  | '\\' :: r => .ok ('\\', r)
  | '/' :: r => .ok ('/', r)
  | 'b' :: r => .ok ('\x08', r)
  | 'f' :: r => .ok ('\x0c', r)
  | 'n' :: r => .ok ('\n', r)
  | 'r' :: r => .ok ('\r', r)
  | 't' :: r => .ok ('\t', r)
  | 'u' :: r => scalar r
  | c :: r => fail .invalidEscape (c :: r)

theorem length_unit {s : List Char} {u : Nat} {r : List Char} (h : unit s = .ok (u, r)) : r.length < s.length := by
  unfold unit at h
  split at h
  · split at h
    · cases h; simp only [List.length_cons]; omega
    · cases h
  · split at h <;> cases h

theorem length_trailing {s : List Char} {u : Nat} {r : List Char} (h : trailing s = .ok (u, r)) :
    r.length < s.length := by
  unfold trailing at h
  split at h <;> try cases h
  obtain ⟨p, hu, h⟩ := of_bind_ok h
  dsimp only at h
  split at h
  · cases h
    have := length_unit hu
    simp only [List.length_cons]; omega
  · cases h

theorem length_scalar {s : List Char} {c : Char} {r : List Char} (h : scalar s = .ok (c, r)) :
    r.length < s.length := by
  obtain ⟨p, hu, h⟩ := of_bind_ok h
  dsimp only at h
  split at h
  · cases h
  split at h
  · obtain ⟨q, ht, h⟩ := of_bind_ok h
    exact (Prod.mk.inj (Except.ok.inj h)).2 ▸ Nat.lt_trans (length_trailing ht) (length_unit hu)
  · exact (Prod.mk.inj (Except.ok.inj h)).2 ▸ length_unit hu

theorem length_escaped {s : List Char} {c : Char} {r : List Char} (h : escaped s = .ok (c, r)) :
    r.length < s.length := by
  unfold escaped at h
  split at h
  · cases h
  all_goals first
    | cases h; exact Nat.lt_succ_self _
    | exact Nat.lt_succ_of_lt (length_scalar h)
    | cases h

/-! ## Strings -/

/-- The characters up to the closing quote, after those in `before`, the last one first. -/
def characters (before : List Char) : List Char → Except Fault (String × List Char)
  | [] => fail .endInString []
  | '"' :: r => .ok (String.ofList before.reverse, r)
  | '\\' :: r =>
    match h : escaped r with
    | .error f => .error f
    | .ok (c, r') =>
      have := length_escaped h
      characters (c :: before) r'
  | c :: r => if c.toNat < 0x20 then fail .controlCharacter (c :: r) else characters (c :: before) r
termination_by s => s.length

theorem length_characters {before s : List Char} {t : String} {r : List Char}
    (h : characters before s = .ok (t, r)) : r.length < s.length := by
  fun_induction characters before s with
  | case1 => cases h
  | case2 => cases h; simp
  | case3 => cases h
  | case4 before s c r' he _ ih => exact Nat.lt_succ_of_lt (Nat.lt_trans (ih h) (length_escaped he))
  | case5 => cases h
  | case6 before c s _ _ _ ih => exact Nat.lt_succ_of_lt (ih h)

end Harvest.Json
