import Retention.Number.Decimal

/-!
# Shortest decimals

Of the decimals that read back as a number, the one with the fewest digits;
of those with equally many digits the nearest to the number, and of two at
the same distance the greater.

* `Number.shortest`: the digits and the exponent of that decimal.
* `Decimal.positional`: a decimal written without an exponent.
-/

namespace Retention.Number

/-- An interval of rationals around a number, all over one denominator. -/
structure Rounding where
  low : Nat
  value : Nat
  high : Nat
  /-- Whether the two ends belong to the interval. -/
  closed : Bool
deriving DecidableEq, Repr

namespace Rounding

/-- Whether a rational lies in the interval. -/
def contains (r : Rounding) (x : Nat) : Bool :=
  if r.closed then r.low ≤ x && x ≤ r.high else r.low < x && x < r.high

/-- The multiple of `step` that stands for the value on that grid, divided by
`step`: of the value's two neighbours that lie in the interval, the nearer. -/
def onGrid? (r : Rounding) (step : Nat) : Option Nat :=
  let below := r.value / step
  let left := r.value - below * step
  let right := (below + 1) * step - r.value
  match r.contains (below * step), r.contains ((below + 1) * step) with
  | true, true => some (if left < right then below else below + 1)
  | true, false => some below
  | false, true => some (below + 1)
  | false, false => none

/-- The decimal on the first of the grids `unit · 10^(places-1)`,
`unit · 10^(places-2)`, … that has one in the interval. -/
def firstGrid (r : Rounding) (unit : Nat) : Nat → Nat × Nat
  | 0 => (r.value / unit, 0)
  | places + 1 =>
    match r.onGrid? (unit * Nat.pow 10 places) with
    | some digits => (digits, places)
    | none => r.firstGrid unit places

end Rounding

/-- Decimal places below one that are enough for every finite number. -/
def decimalPlaces : Nat := 400

/-- The numbers that round to a finite number, in units of
`2^-1076 · 10^-decimalPlaces`. The gap below a power of two is half as wide. -/
def rounding (n : Number) : Rounding :=
  let scale := Nat.pow 2 n.unitExponent * Nat.pow 10 decimalPlaces
  let lower := if n.fractionField == 0 && 1 < n.exponentField then 1 else 2
  { low := (4 * n.significand - lower) * scale
    value := 4 * n.significand * scale
    high := (4 * n.significand + 2) * scale
    closed := n.significand % 2 == 0 }

/-- The shortest decimal that reads back as the absolute value of a finite,
nonzero number. The first grid tried is coarser than the number's first digit,
since a number just below a power of ten may be written as that power. -/
def shortest (n : Number) : Decimal :=
  let unit := 4 * unitsPerOne
  let places := (Nat.toDigits 10 (n.rounding.value / unit)).length
  let (digits, exponent) := n.rounding.firstGrid unit (places + 1)
  ⟨digits, (exponent : Int) - decimalPlaces⟩

/-- A decimal written with all its places and no exponent. -/
def Decimal.positional (d : Decimal) : List Char :=
  let digits := Nat.toDigits 10 d.digits
  if 0 ≤ d.exponent then digits ++ List.replicate d.exponent.toNat '0'
  else
    let places := d.exponent.natAbs
    let padded := List.replicate (places + 1 - digits.length) '0' ++ digits
    let whole := padded.length - places
    padded.take whole ++ '.' :: padded.drop whole

end Retention.Number
