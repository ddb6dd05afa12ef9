import Retention.Number.Basic

/-!
# Decimal texts

The texts that denote a number: an optional sign, then digits with at most one
point and at least one digit, then an optional exponent; or, in any letter
case, `inf`, `infinity` or `nan`. A decimal denotes the number nearest to it.

* `Number.ofDecimal?`: the number that a text denotes.
-/

namespace Retention.Number

/-- The sign in front of a text, and the text behind it. -/
def splitSign : List Char → Bool × List Char
  | '-' :: rest => (true, rest)
  | '+' :: rest => (false, rest)
  | text => (false, text)

/-- The natural number written by decimal digits. -/
def ofDigits (digits : List Char) : Nat :=
  digits.foldl (fun n c => 10 * n + (c.toNat - '0'.toNat)) 0

/-- The digits in front of a text, and the text behind them. -/
def splitDigits (text : List Char) : List Char × List Char :=
  (text.takeWhile Char.isDigit, text.dropWhile Char.isDigit)

theorem splitDigits_append (text : List Char) :
    (splitDigits text).1 ++ (splitDigits text).2 = text :=
  List.takeWhile_append_dropWhile

/-- The exponent that a text consists of: none for the empty text, otherwise
the letter `e`, an optional sign and at least one digit. -/
def exponent? : List Char → Option Int
  | [] => some 0
  | c :: text =>
    let (negative, digits) := splitSign text
    if (c == 'e' || c == 'E') && !digits.isEmpty && digits.all Char.isDigit then
      let size : Int := ((ofDigits digits : Nat) : Int)
      some (if negative then -size else size)
    else none

/-- A decimal numeral `digits · 10^exponent`. -/
structure Decimal where
  digits : Nat
  exponent : Int
deriving DecidableEq, Repr

/-- The unsigned decimal that a text consists of. -/
def decimal? (text : List Char) : Option Decimal :=
  let (whole, rest) := splitDigits text
  let (fraction, rest) := match rest with
    | '.' :: rest => splitDigits rest
    | rest => ([], rest)
  if whole.isEmpty && fraction.isEmpty then none
  else (exponent? rest).map fun e => ⟨ofDigits (whole ++ fraction), e - fraction.length⟩

/-- No number of at most `n` digits times `10^e` lies in the finite range once
`n + e` leaves this bound on either side. -/
def exponentBound : Int := 400

/-- The number nearest to a decimal. Decimals far outside the binary64 range
are answered without computing their power of ten. -/
def Decimal.toNumber (negative : Bool) (d : Decimal) : Number :=
  let size : Int := (((Nat.toDigits 10 d.digits).length : Nat) : Int) + d.exponent
  if d.digits == 0 || size < -exponentBound then nearest negative 0 1
  else if exponentBound < size then infinity negative
  else if d.exponent < 0 then nearest negative d.digits (Nat.pow 10 d.exponent.natAbs)
  else nearest negative (d.digits * Nat.pow 10 d.exponent.natAbs) 1

/-- The number that a text denotes, if it denotes one. -/
def ofDecimal? (text : List Char) : Option Number :=
  let (negative, rest) := splitSign text
  let word := String.ofList (rest.map Char.toLower)
  if word == "inf" || word == "infinity" then some (infinity negative)
  else if word == "nan" then some nan
  else (decimal? rest).map (Decimal.toNumber negative)

end Retention.Number
