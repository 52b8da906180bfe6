/-
  Harvest.Json.Numeral — numbers as a document writes them, and their values.

  A numeral is a sign, whole digits, and optionally a fraction and an exponent. Without
  the last two it is a whole number where it fits 64 bits, unsigned when positive and
  signed when negative; every other numeral, and `-0`, is a double.

  The double comes from a significand below `2 ^ 64` and one scaling by a power of ten:
  digits that would carry the significand past its bound are dropped, and a dropped
  digit before the point still counts in the exponent. A double past the largest finite
  one is a fault; one too small is a zero.
-/

import Harvest.Json.Basic
import Harvest.Json.Fault

namespace Harvest.Json

structure Numeral where
  negative : Bool
  whole : List Char
  fraction : Option (List Char)
  /-- Whether the exponent is negative, and its digits. -/
  exponent : Option (Bool × List Char)
  deriving DecidableEq, Repr

/-! ## Reading -/

def isDigit (c : Char) : Bool := '0' ≤ c && c ≤ '9'

/-- One or more digits. -/
def digits : List Char → Except Fault (List Char × List Char)
  | [] => fail .endInValue []
  | c :: r =>
    if isDigit c then .ok (c :: r.takeWhile isDigit, r.dropWhile isDigit) else fail .invalidNumber (c :: r)

/-- The digits before the point: a zero stands alone. -/
def wholeDigits : List Char → Except Fault (List Char × List Char)
  | '0' :: d :: r => if isDigit d then fail .invalidNumber (d :: r) else .ok (['0'], d :: r)
  | s => digits s

def fractionDigits : List Char → Except Fault (Option (List Char) × List Char)
  | '.' :: r => (digits r).map fun (ds, r) => (some ds, r)
  | s => .ok (none, s)

def exponentSign : List Char → Bool × List Char
  | '-' :: r => (true, r)
  | '+' :: r => (false, r)
  | s => (false, s)

def signedExponent (s : List Char) : Except Fault (Option (Bool × List Char) × List Char) :=
  (digits (exponentSign s).2).map fun (ds, r) => (some ((exponentSign s).1, ds), r)

def exponentDigits : List Char → Except Fault (Option (Bool × List Char) × List Char)
  | 'e' :: r => signedExponent r
  | 'E' :: r => signedExponent r
  | s => .ok (none, s)

def unsignedNumeral (negative : Bool) (s : List Char) : Except Fault (Numeral × List Char) := do
  let (whole, s) ← wholeDigits s
  let (fraction, s) ← fractionDigits s
  let (exponent, s) ← exponentDigits s
  return (⟨negative, whole, fraction, exponent⟩, s)

def numeral : List Char → Except Fault (Numeral × List Char)
  | '-' :: r => unsignedNumeral true r
  | s => unsignedNumeral false s

/-! ## Values -/

def digitValue (c : Char) : Nat := c.toNat - '0'.toNat

/-- The significand grown by the digits that keep it below `2 ^ 64`, and the digits from
    the first one that does not. -/
def absorb (n : Nat) : List Char → Nat × List Char
  | [] => (n, [])
  | d :: ds => if 10 * n + digitValue d < UInt64.size then absorb (10 * n + digitValue d) ds else (n, d :: ds)

/-- The largest exponent that is read to its end. -/
def exponentBound : Nat := UInt32.size / 2 - 1

/-- The value of exponent digits, or the digits after the one that passes the bound. -/
def exponentValue (n : Nat) : List Char → Except (List Char) Nat
  | [] => .ok n
  | d :: ds =>
    if 10 * n + digitValue d ≤ exponentBound then exponentValue (10 * n + digitValue d) ds else .error ds

/-- The double nearest to a power of ten. -/
def powerOfTen (k : Nat) : Float := Float.ofScientific 1 false k

/-- `x · 10 ^ e`, by one multiplication or by divisions; nothing when it is too large. -/
def scaled (x : Float) (e : Int) : Option Float :=
  if e.natAbs ≤ 308 then
    if 0 ≤ e then
      let y := x * powerOfTen e.toNat
      if y.isInf then none else some y
    else some (x / powerOfTen e.natAbs)
  else if x == 0 then some x
  else if 0 ≤ e then none
  else scaled (x / powerOfTen 308) (e + 308)
termination_by e.natAbs

def signed (negative : Bool) (x : Float) : Json := .float (if negative then -x else x)

/-- The value of a numeral that `rest` follows; the fault is a number out of range. -/
def Numeral.value (m : Numeral) (rest : List Char) : Except Fault Json :=
  let (n, dropped) := absorb 0 m.whole
  match m.fraction, m.exponent, dropped with
  | none, none, [] =>
    if !m.negative then .ok (.int n)
    else if 0 < n ∧ n ≤ UInt64.size / 2 then .ok (.int (-n))
    else .ok (signed true n.toFloat)
  | _, _, _ =>
    let fraction := m.fraction.getD []
    let (significand, ignored) := absorb n fraction
    let shift : Int := dropped.length - (fraction.length - ignored.length : Nat)
    let (down, ds) := m.exponent.getD (false, [])
    match exponentValue 0 ds with
    | .ok e =>
      match scaled significand.toFloat (if down then shift - e else shift + e) with
      | some x => .ok (signed m.negative x)
      | none => fail .outOfRange rest 0
    | .error ds => if significand = 0 ∨ down then .ok (signed m.negative 0) else fail .outOfRange (ds ++ rest) 0

def number (s : List Char) : Except Fault (Json × List Char) := do
  let (m, r) ← numeral s
  let v ← m.value r
  return (v, r)

/-! ## Progress -/

theorem length_digits {s ds r : List Char} (h : digits s = .ok (ds, r)) : r.length < s.length := by
  cases s with
  | nil => cases h
  | cons c s =>
    simp only [digits] at h
    split at h
    · cases h
      exact Nat.lt_succ_of_le (List.dropWhile_suffix isDigit).length_le
    · cases h

theorem length_wholeDigits {s ds r : List Char} (h : wholeDigits s = .ok (ds, r)) : r.length < s.length := by
  unfold wholeDigits at h
  split at h
  · split at h
    · cases h
    · cases h; simp
  · exact length_digits h

theorem length_fractionDigits {s : List Char} {ds : Option (List Char)} {r : List Char}
    (h : fractionDigits s = .ok (ds, r)) : r.length ≤ s.length := by
  unfold fractionDigits at h
  split at h
  · obtain ⟨p, hd, e⟩ := of_map_ok h
    cases e
    exact Nat.le_succ_of_le (Nat.le_of_lt (length_digits hd))
  · cases h; exact Nat.le_refl _

theorem length_exponentSign (s : List Char) : (exponentSign s).2.length ≤ s.length := by
  unfold exponentSign
  split <;> simp

theorem length_signedExponent {s : List Char} {e : Option (Bool × List Char)} {r : List Char}
    (h : signedExponent s = .ok (e, r)) : r.length ≤ s.length := by
  obtain ⟨p, hd, e⟩ := of_map_ok h
  cases e
  exact Nat.le_trans (Nat.le_of_lt (length_digits hd)) (length_exponentSign s)

theorem length_exponentDigits {s : List Char} {e : Option (Bool × List Char)} {r : List Char}
    (h : exponentDigits s = .ok (e, r)) : r.length ≤ s.length := by
  unfold exponentDigits at h
  split at h
  · exact Nat.le_succ_of_le (length_signedExponent h)
  · exact Nat.le_succ_of_le (length_signedExponent h)
  · cases h; exact Nat.le_refl _

theorem length_unsignedNumeral {negative : Bool} {s : List Char} {m : Numeral} {r : List Char}
    (h : unsignedNumeral negative s = .ok (m, r)) : r.length < s.length := by
  obtain ⟨w, hw, h⟩ := of_bind_ok h
  obtain ⟨f, hf, h⟩ := of_bind_ok h
  obtain ⟨e, he, h⟩ := of_bind_ok h
  cases h
  exact Nat.lt_of_le_of_lt (length_exponentDigits he)
    (Nat.lt_of_le_of_lt (length_fractionDigits hf) (length_wholeDigits hw))

theorem length_numeral {s : List Char} {m : Numeral} {r : List Char}
    (h : numeral s = .ok (m, r)) : r.length < s.length := by
  unfold numeral at h
  split at h
  · exact Nat.lt_succ_of_lt (length_unsignedNumeral h)
  · exact length_unsignedNumeral h

theorem length_number {s : List Char} {v : Json} {r : List Char}
    (h : number s = .ok (v, r)) : r.length < s.length := by
  obtain ⟨p, hm, h⟩ := of_bind_ok h
  obtain ⟨v, hv, h⟩ := of_bind_ok h
  cases h
  exact length_numeral hm

end Harvest.Json
