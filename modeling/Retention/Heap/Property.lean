import Retention.Heap.Object
import Retention.Number.Decimal
import Retention.Text.Blank

/-!
# Property tables

A property table lists properties in insertion order, each key once. Arrays
have a `length` that stays above every index: it grows with a new element, and
shrinking it deletes elements, down to the last one that cannot be deleted.

* `Properties.lookup`, `put`, `erase`, `ordered`: the table as an ordered map.
* `Properties.truncate`: deletion of the elements from an index on.
* `Object.define`, `Object.set`, `Object.delete`, `Object.setLength`: the
  operations on an object's own properties.
-/

namespace Retention

/-- The length that a value stands for when it is written to an array's
`length`: an integer from `0` to `2^32 - 1`. -/
def arrayLength? (v : Value) : Option Nat :=
  let number? : Option Number := match v with
    | .number n => some n
    | .bool b => some (.ofNat b.toNat)
    | .null => some .zero
    | .string s =>
      let text := Text.trim s.toList
      if text.isEmpty then some .zero else Number.ofDecimal? text
    | _ => none
  match number?.bind Number.toInt? with
  | some (.ofNat n) => if n ≤ arrayIndexLimit then some n else none
  | _ => none

/-- A property table. -/
abbrev Properties := List Property

namespace Properties

/-- The property with the given key. -/
def lookup (t : Properties) (key : PropertyKey) : Option Property := t.find? (·.key == key)

/-- The property takes the place of the one with its key, or else the end. -/
def put (p : Property) : Properties → Properties
  | [] => [p]
  | q :: rest => if q.key = p.key then p :: rest else q :: put p rest

/-- The property with the given key gets a new value. -/
def write (key : PropertyKey) (value : Value) : Properties → Properties
  | [] => []
  | q :: rest => if q.key = key then { q with value } :: rest else q :: write key value rest

/-- The table without the property of the given key. -/
def erase (key : PropertyKey) (t : Properties) : Properties := t.eraseP (·.key == key)

/-- The properties keyed by array indices, with their indices. -/
def elements (t : Properties) : List (Nat × Property) :=
  t.filterMap fun p => p.key.arrayIndex?.map (·, p)

/-- The properties keyed by array indices, in ascending order. -/
def sortedElements (t : Properties) : List (Nat × Property) :=
  (elements t).mergeSort fun a b => a.1 ≤ b.1

/-- Keys that are strings but not array indices. -/
def isName (key : PropertyKey) : Bool :=
  match key with
  | .string _ => key.arrayIndex?.isNone
  | .symbol _ => false

/-- Keys that are symbols. -/
def isSymbol : PropertyKey → Bool
  | .string _ => false
  | .symbol _ => true

/-- The properties in the order in which a guest lists them: array indices in
ascending order, then the other strings, then symbols. -/
def ordered (t : Properties) : List Property :=
  (sortedElements t).map Prod.snd ++ t.filter (isName ·.key) ++ t.filter (isSymbol ·.key)

/-- One past the highest element that blocks a truncation to `length`: one at
or beyond it that cannot be deleted. -/
def truncatedLength (length : Nat) (t : Properties) : Nat :=
  t.foldl (fun n p =>
    match p.key.arrayIndex? with
    | some i => if !p.configurable && length ≤ i then max n (i + 1) else n
    | none => n) length

/-- The table without the elements at or beyond `length`. -/
def truncate (length : Nat) (t : Properties) : Properties :=
  t.filter fun p => p.key.arrayIndex?.all (· < length)

/-- The property that an array's length is kept in. -/
def lengthProperty (length : Nat) : Property :=
  { key := .length, value := .number (.ofNat length), enumerable := false, configurable := false }

/-- The length is written into the length property, which is made if missing. -/
def writeLength (length : Nat) (t : Properties) : Properties :=
  match lookup t .length with
  | some _ => write .length (.number (.ofNat length)) t
  | none => t ++ [lengthProperty length]

/-- The length grows to `length` unless it is that long already; a length that
is not a number stays. -/
def growLength (length : Nat) (t : Properties) : Properties :=
  match lookup t .length with
  | some { value := .number n, .. } =>
    if n.saturatingNat < length then write .length (.number (.ofNat length)) t else t
  | some _ => t
  | none => t ++ [lengthProperty length]

theorem lookup_put_self (p : Property) (t : Properties) : lookup (put p t) p.key = some p := by
  induction t with
  | nil => simp [put, lookup]
  | cons q rest ih =>
    unfold put
    split
    · simp [lookup]
    · rename_i h
      simpa [lookup, h] using ih

theorem lookup_put_of_ne {p : Property} {key : PropertyKey} (h : p.key ≠ key) (t : Properties) :
    lookup (put p t) key = lookup t key := by
  induction t with
  | nil => simp [put, lookup, h]
  | cons q rest ih =>
    unfold put
    split
    · rename_i hq
      simp [lookup, h, hq ▸ h]
    · simp only [lookup, List.find?_cons] at ih ⊢
      split <;> simp_all

end Properties

namespace Object

/-- Whether an object is an array. -/
def isArray (o : Object) : Bool := o.kind.builtin == .array

/-- An own property. -/
def own? (o : Object) (key : PropertyKey) : Option Property := Properties.lookup o.properties key

/-- Defines or overwrites an own property as a whole. In an array, a new
`length` truncates and a new element makes the length grow. -/
def define (o : Object) (p : Property) : Object :=
  let stored := Properties.put p o.properties
  if o.isArray then
    let resized :=
      match if p.key = .length then arrayLength? p.value else none with
      | some length =>
        let final := Properties.truncatedLength length stored
        Properties.write .length (.number (.ofNat final)) (Properties.truncate final stored)
      | none => stored
    { o with properties :=
        match p.key.arrayIndex? with
        | some i => Properties.growLength (i + 1) resized
        | none => resized }
  else { o with properties := stored }

/-- Sets an array's length, and tells whether it could be set: not when it is
read-only, and only in part when an element cannot be deleted. -/
def setLength (o : Object) (length : Nat) : Bool × Object :=
  if (o.own? .length).any (!·.writable) then (false, o)
  else
    let final := Properties.truncatedLength length o.properties
    (final == length,
      { o with properties := Properties.writeLength final (Properties.truncate final o.properties) })

/-- Writes to an own property, or makes a new one, and tells whether it could:
not when the property is read-only. -/
def set (o : Object) (key : PropertyKey) (value : Value) : Bool × Object :=
  if o.isArray && key == .length then
    match arrayLength? value with
    | some length => o.setLength length
    | none => (false, o)
  else
    match o.own? key with
    | some p =>
      if p.writable then (true, { o with properties := Properties.write key value o.properties })
      else (false, o)
    | none => (true, o.define { key, value })

/-- Deletes an own property, and tells whether it is gone. -/
def delete (o : Object) (key : PropertyKey) : Bool × Object :=
  if (o.own? key).any (!·.configurable) then (false, o)
  else (true, { o with properties := Properties.erase key o.properties })

theorem own?_define_of_not_isArray {o : Object} (h : o.isArray = false) (p : Property) :
    (o.define p).own? p.key = some p := by
  simp [define, h, own?, Properties.lookup_put_self]

end Object
end Retention
