/-
  Harvest.Decimal.Notation — a double in decimal notation.

  The digits are the fewest that read back. The place of the leading digit decides
  between plain notation, always with a digit after the point, and scientific notation,
  whose exponent has a sign and no padding.
-/

import Harvest.Decimal.Shortest

namespace Harvest.Decimal

/-- The places of the leading digit, as powers of ten, that are written in plain notation. -/
structure Layout where
  plainFrom : Int
  plainTo : Int

def zeros (n : Nat) : String := String.ofList (List.replicate n '0')

/-- Plain notation of the digits `ds` whose first one counts `10 ^ place`. -/
def plain (ds : List Char) (place : Int) : String :=
  if place < 0 then "0." ++ zeros (-place - 1).toNat ++ String.ofList ds
  else
    let whole := place.toNat + 1
    if ds.length ≤ whole then String.ofList ds ++ zeros (whole - ds.length) ++ ".0"
    else String.ofList (ds.take whole) ++ "." ++ String.ofList (ds.drop whole)

/-- Scientific notation of the digits `ds` whose first one counts `10 ^ place`. -/
def scientific (ds : List Char) (place : Int) : String :=
  let fraction := if ds.length ≤ 1 then "" else "." ++ String.ofList (ds.drop 1)
  let sign := if place < 0 then "-" else "+"
  String.ofList (ds.take 1) ++ fraction ++ "e" ++ sign ++ toString place.natAbs

/-- A double in decimal notation; zero keeps its sign. -/
def Layout.text (layout : Layout) (x : Float) : String :=
  let b := Binary.ofFloat x
  let sign := if b.negative then "-" else ""
  if b.mantissa = 0 then sign ++ "0.0"
  else
    let d := b.shortest
    let ds := Nat.toDigits 10 d.digits
    let place := d.exponent + ds.length - 1
    sign ++ if layout.plainFrom ≤ place ∧ place ≤ layout.plainTo then plain ds place else scientific ds place

end Harvest.Decimal
