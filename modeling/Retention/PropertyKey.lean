import Retention.Value

/-!
# Property keys

A property key is a string or a symbol. Some string keys are array indices:
the decimal texts, without leading zeros, of the numbers below `2^32 - 1`.

* `arrayIndex?`: the index that a text stands for.
-/

namespace Retention

/-- Array indices lie below this number; array lengths do not exceed it. -/
def arrayIndexLimit : Nat := 4294967295

/-- One digit more of a decimal numeral, as long as the number stays within
`arrayIndexLimit`. -/
def appendDigit? (n : Nat) (c : Char) : Option Nat :=
  let next := 10 * n + (c.toNat - '0'.toNat)
  if c.isDigit && next ≤ arrayIndexLimit then some next else none

/-- The array index that a text stands for. -/
def arrayIndex? (s : String) : Option Nat :=
  match s.toList with
  | [] => none
  | '0' :: _ :: _ => none
  | digits => (digits.foldlM appendDigit? 0).filter (· < arrayIndexLimit)

/-- The key of a property. -/
inductive PropertyKey where
  | string (s : String)
  | symbol (ref : SymbolRef)
deriving DecidableEq, Repr, Inhabited

namespace PropertyKey

/-- The key that an index is written as. -/
def ofIndex (i : Nat) : PropertyKey := string (toString i)

/-- The array index that a key stands for. -/
def arrayIndex? : PropertyKey → Option Nat
  | string s => Retention.arrayIndex? s
  | symbol _ => none

/-- The key of an array's length. -/
def length : PropertyKey := string "length"

/-- The key that a value is used as: a symbol keys by itself, every other
value by its text. -/
def ofValue : Value → PropertyKey
  | .symbol ref => symbol ref
  | v => string (v.primitiveText?.getD "")

/-- No key that is a symbol stands for an index. -/
theorem arrayIndex?_symbol (ref : SymbolRef) : (symbol ref).arrayIndex? = none := rfl

theorem arrayIndex?_length : length.arrayIndex? = none := by decide +kernel

end PropertyKey
end Retention
