import Retention.Number.Shortest

/-!
# The text of a number

Integers below `10^21` in absolute value are written as integers, kept within
the range of 64-bit signed words; every other finite number as its shortest
decimal, in positional notation.
-/

namespace Retention.Number

/-- The absolute value from which on integers are written as shortest decimals. -/
def integerTextLimit : Nat := Nat.pow 10 21

/-- An integer moved to the nearest 64-bit signed word. -/
def clampInt64 (i : Int) : Int := max (-9223372036854775808) (min 9223372036854775807 i)

/-- The text of a number. -/
def display (n : Number) : String :=
  if n.isNaN then "NaN"
  else if n.isInfinite then (if n.isNegative then "-Infinity" else "Infinity")
  else
    match n.toInt? with
    | some i =>
      if i.natAbs < integerTextLimit then toString (clampInt64 i) else positional
    | none => positional
where
  /-- The shortest decimal with its sign. -/
  positional : String :=
    String.ofList ((if n.isNegative then ['-'] else []) ++ n.shortest.positional)

end Retention.Number
