import Retention.Number.Display

/-!
# Guest values

Primitives are carried inline; objects and symbols are references to slots of
a heap, and are the only values with identity.

* `Value.equal`, `Value.sameValue`, `Value.sameValueZero`: equalities, which
  differ on numbers only.
* `Value.primitiveText?`: the text of a primitive.
-/

namespace Retention

/-- A reference to a heap slot that should hold an object. -/
structure ObjectRef where
  slot : Nat
deriving DecidableEq, Repr, Inhabited, Hashable

/-- A reference to a heap slot that should hold a symbol. -/
structure SymbolRef where
  slot : Nat
deriving DecidableEq, Repr, Inhabited, Hashable

/-- A guest value. -/
inductive Value where
  | undefined
  | null
  | bool (b : Bool)
  | number (n : Number)
  | bigint (i : Int)
  | string (s : String)
  | symbol (ref : SymbolRef)
  | object (ref : ObjectRef)
deriving DecidableEq, Repr, Inhabited

namespace Value

/-- The name of a value's type. -/
def typeName : Value → String
  | undefined => "undefined"
  | null => "null"
  | bool _ => "boolean"
  | number _ => "number"
  | bigint _ => "bigint"
  | string _ => "string"
  | symbol _ => "symbol"
  | object _ => "object"

/-- Objects and symbols have identity. -/
def hasIdentity : Value → Bool
  | symbol _ | object _ => true
  | _ => false

/-- Two values compared by `compare` if both are numbers, and otherwise for
being identical. -/
def equalBy (compare : Number → Number → Bool) : Value → Value → Bool
  | number a, number b => compare a b
  | a, b => a == b

/-- Equality with a NaN that differs from itself. -/
def equal : Value → Value → Bool := equalBy Number.equal

/-- Equality that tells the two zeros apart. -/
def sameValue : Value → Value → Bool := equalBy Number.sameValue

/-- Equality of collection keys. -/
def sameValueZero : Value → Value → Bool := equalBy Number.sameValueZero

/-- The text of a primitive; objects and symbols have none without their heap. -/
def primitiveText? : Value → Option String
  | undefined => some "undefined"
  | null => some "null"
  | bool b => some (if b then "true" else "false")
  | number n => some n.display
  | bigint i => some s!"{i}n"
  | string s => some s
  | symbol _ | object _ => none

/-- The object that a value refers to. -/
def object? : Value → Option ObjectRef
  | object ref => some ref
  | _ => none

theorem primitiveText?_eq_none_iff (v : Value) :
    v.primitiveText? = none ↔ v.hasIdentity = true := by
  cases v <;> simp [primitiveText?, hasIdentity]

theorem sameValueZero_self (v : Value) : v.sameValueZero v = true := by
  cases v <;> simp [sameValueZero, equalBy, Number.sameValueZero, Number.equal]

end Value
end Retention
