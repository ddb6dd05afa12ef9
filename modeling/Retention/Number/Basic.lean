/-!
# Guest numbers

A guest number is a binary64 word. Everything here is integer arithmetic on
the fields of the word, so that it can be reasoned about: a finite number is
its `magnitude` in units of `2^-1074`, with a sign. Powers are those of
`Nat.pow`, since `^` is read differently where Mathlib is in scope.

* `Number.equal`, `Number.sameValue`, `Number.sameValueZero`: the three
  equalities of guest numbers.
* `Number.toInt?`: the integer that a number is, if it is one.
* `Number.nearest`: the number nearest to a quotient, ties to even.
-/

namespace Retention

/-- A binary64 number, held as its word. -/
structure Number where
  bits : UInt64
deriving DecidableEq, Repr, Inhabited

namespace Number

/-- The word of a number, as a natural number. -/
def word (n : Number) : Nat := n.bits.toNat

/-- The number with the given word. -/
def ofWord (w : Nat) : Number := ⟨UInt64.ofNat w⟩

/-- The sign bit. -/
def isNegative (n : Number) : Bool := Nat.pow 2 63 ≤ n.word

/-- The biased exponent field. -/
def exponentField (n : Number) : Nat := n.word / Nat.pow 2 52 % Nat.pow 2 11

/-- The fraction field. -/
def fractionField (n : Number) : Nat := n.word % Nat.pow 2 52

/-- The exponent field of numbers that are not finite. -/
def exponentLimit : Nat := 2047

def isFinite (n : Number) : Bool := n.exponentField != exponentLimit

def isNaN (n : Number) : Bool := !n.isFinite && n.fractionField != 0

def isInfinite (n : Number) : Bool := !n.isFinite && n.fractionField == 0

/-- The significand of a finite number, with its hidden bit. -/
def significand (n : Number) : Nat :=
  if n.exponentField = 0 then n.fractionField else Nat.pow 2 52 + n.fractionField

/-- The exponent of a finite number's unit in the last place, above `-1074`. -/
def unitExponent (n : Number) : Nat := n.exponentField - 1

/-- The absolute value of a finite number, in units of `2^-1074`. -/
def magnitude (n : Number) : Nat := n.significand * Nat.pow 2 n.unitExponent

/-- How many units of `magnitude` make up one. -/
def unitsPerOne : Nat := Nat.pow 2 1074

/-- Both zeros. -/
def isZero (n : Number) : Bool := n.isFinite && n.magnitude == 0

def zero : Number := ⟨0⟩

/-- The word of the zero with the given sign. -/
def signWord (negative : Bool) : Nat := if negative then Nat.pow 2 63 else 0

/-- The infinity with the given sign. -/
def infinity (negative : Bool) : Number :=
  ofWord (signWord negative + exponentLimit * Nat.pow 2 52)

def nan : Number := ofWord (exponentLimit * Nat.pow 2 52 + Nat.pow 2 51)

/-- Numeric equality: a NaN differs from every number and the two zeros are equal. -/
def equal (a b : Number) : Bool :=
  !a.isNaN && !b.isNaN && (a == b || (a.isZero && b.isZero))

/-- Equality that tells the two zeros apart and takes all NaNs for one. -/
def sameValue (a b : Number) : Bool :=
  (a.isNaN && b.isNaN) || (a.equal b && (!a.isZero || a == b))

/-- Equality that takes the two zeros for one and all NaNs for one. -/
def sameValueZero (a b : Number) : Bool :=
  (a.isNaN && b.isNaN) || a.equal b

/-- The integer that a number is. -/
def toInt? (n : Number) : Option Int :=
  if n.isFinite && n.magnitude % unitsPerOne == 0 then
    let size : Int := ((n.magnitude / unitsPerOne : Nat) : Int)
    some (if n.isNegative then -size else size)
  else none

/-- The integer part of a number, toward zero and kept within `0 ≤ · < 2^64`;
a NaN has integer part zero. -/
def saturatingNat (n : Number) : Nat :=
  if n.isNaN || n.isNegative then 0
  else if n.isInfinite then Nat.pow 2 64 - 1
  else min (n.magnitude / unitsPerOne) (Nat.pow 2 64 - 1)

/-- A quotient rounded to an integer, ties to the even neighbour. -/
def roundEven (num den : Nat) : Nat :=
  let quotient := num / den
  let twice := 2 * (num % den)
  if twice < den then quotient
  else if den < twice then quotient + 1
  else if quotient % 2 = 0 then quotient else quotient + 1

/-- The word of the binary64 magnitude nearest to `num / den`, ties to even; a
quotient that rounds past the largest finite number gives infinity. -/
def nearestWord (num den : Nat) : Nat :=
  let units := num * unitsPerOne
  let exponent := (units / den).log2 - 52
  min (exponent * Nat.pow 2 52 + roundEven units (den * Nat.pow 2 exponent))
    (exponentLimit * Nat.pow 2 52)

/-- The number nearest to `num / den` with the given sign. -/
def nearest (negative : Bool) (num den : Nat) : Number :=
  ofWord (signWord negative + nearestWord num den)

/-- The number nearest to a natural number. -/
def ofNat (n : Nat) : Number := nearest false n 1

/-- The number nearest to an integer; zero is the positive zero. -/
def ofInt (i : Int) : Number := nearest (decide (i < 0)) i.natAbs 1

/-- Each equality is contained in the next coarser one. -/
theorem sameValueZero_of_sameValue {a b : Number} (h : a.sameValue b = true) :
    a.sameValueZero b = true := by
  simp only [sameValue, sameValueZero, Bool.or_eq_true, Bool.and_eq_true] at h ⊢
  exact h.imp id And.left

theorem sameValueZero_of_equal {a b : Number} (h : a.equal b = true) :
    a.sameValueZero b = true := by
  simp [sameValueZero, h]

theorem equal_comm (a b : Number) : a.equal b = b.equal a := by
  simp only [equal, Bool.beq_comm (a := a) (b := b), Bool.and_comm a.isZero]
  cases a.isNaN <;> cases b.isNaN <;> simp [Bool.beq_comm]

end Number
end Retention
