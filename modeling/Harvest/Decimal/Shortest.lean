/-
  Harvest.Decimal.Shortest — the fewest decimal digits that read back as a double.

  A positive finite double is `mantissa · 2 ^ exponent`. The reals that round to it
  reach halfway to its two neighbours, the ends included when the mantissa is even. On
  the grid of the multiples of `10 ^ k` only the two points around the value can be the
  nearest inside, so the search goes from coarse grids to fine ones and stops at the
  first grid with a point inside; of two points inside it takes the nearer, and of two
  equally near the even one. All of it is arithmetic on natural numbers.
-/

namespace Harvest.Decimal

/-- A finite double, `mantissa · 2 ^ exponent` with a sign. -/
structure Binary where
  negative : Bool
  mantissa : Nat
  exponent : Int
  deriving DecidableEq, Repr

def Binary.ofFloat (x : Float) : Binary :=
  let bits := x.toBits.toNat
  let field := bits / Nat.pow 2 52 % Nat.pow 2 11
  let fraction := bits % Nat.pow 2 52
  { negative := bits / Nat.pow 2 63 == 1
    mantissa := if field = 0 then fraction else Nat.pow 2 52 + fraction
    exponent := (if field = 0 then 1 else field : Nat) - 1075 }

/-- A decimal, `digits · 10 ^ exponent`. -/
structure Digits where
  digits : Nat
  exponent : Int
  deriving DecidableEq, Repr

/-- Quarters of a unit in the last place from the value down to its lower midpoint: one
    when the neighbour below has a smaller exponent, else two. -/
def Binary.reachDown (b : Binary) : Nat :=
  if b.mantissa = Nat.pow 2 52 ∧ -1074 < b.exponent then 1 else 2

/-- The point of the grid of `10 ^ k` that stands for `b`: the nearest one among those
    that read back as `b`. -/
def Binary.onGrid (b : Binary) (k : Int) : Option Nat :=
  let scale := Nat.pow 2 (b.exponent - 2).toNat * Nat.pow 10 (-k).toNat
  let unit := Nat.pow 2 (2 - b.exponent).toNat * Nat.pow 10 k.toNat
  let value := 4 * b.mantissa * scale
  let low := (4 * b.mantissa - b.reachDown) * scale
  let high := (4 * b.mantissa + 2) * scale
  let inside (d : Nat) : Bool :=
    if b.mantissa % 2 = 0 then low ≤ d * unit && d * unit ≤ high else low < d * unit && d * unit < high
  let under := value / unit
  let nearUnder : Bool := 2 * value < (2 * under + 1) * unit
  let tie : Bool := 2 * value = (2 * under + 1) * unit
  match inside under, inside (under + 1) with
  | false, false => none
  | true, false => some under
  | false, true => some (under + 1)
  | true, true => some (if nearUnder || (tie && under % 2 == 0) then under else under + 1)

/-- The first grid with a point for `b`, from `10 ^ k` downwards. -/
def Binary.firstGrid (b : Binary) : Nat → Int → Digits
  | 0, k => ⟨(b.onGrid k).getD 0, k⟩
  | n + 1, k =>
    match b.onGrid k with
    | some d => ⟨d, k⟩
    | none => b.firstGrid n (k - 1)

/-- A grid coarser than the value: `10 ^ k` above it. -/
def Binary.coarsest (b : Binary) : Int := (b.mantissa.log2 + 1 + b.exponent) * 30103 / 100000 + 1

/-- The fewest digits that read back as `b`; twenty grids reach past the seventeen digits
    that always do. -/
def Binary.shortest (b : Binary) : Digits := b.firstGrid 20 b.coarsest

end Harvest.Decimal
