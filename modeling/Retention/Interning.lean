import Retention.Failure
import Std.Data.HashMap

/-!
# Interning

A search numbers the objects and symbols it meets in the order in which it
meets them. An interner remembers the numbers, in both directions.

* `Interner.intern`: the id of a value, a new one at first sight.
* `Interner.value?`: the value that an id was given to.
-/

namespace Retention

/-- A guest value with identity. -/
inductive Identity where
  | object (ref : ObjectRef)
  | symbol (ref : SymbolRef)
deriving DecidableEq, Repr, Inhabited, Hashable

namespace Identity

/-- The identity of a value; primitives have none. -/
def ofValue : Value → Except Violation Identity
  | .object ref => .ok (object ref)
  | .symbol ref => .ok (symbol ref)
  | v => .error (.notAGraphValue v.typeName)

def kind : Identity → NodeKind
  | object _ => .object
  | symbol _ => .symbol

def toValue : Identity → Value
  | object ref => .object ref
  | symbol ref => .symbol ref

theorem ofValue_toValue (i : Identity) : ofValue i.toValue = .ok i := by
  cases i <;> rfl

end Identity

/-- The ids given out so far. The `n`-th value to be interned has number `n`. -/
structure Interner where
  ids : Std.HashMap Identity NodeId
  values : Array Identity

namespace Interner

def empty : Interner := ⟨∅, #[]⟩

/-- The number of values interned. -/
def size (t : Interner) : Nat := t.values.size

/-- The id of a value, if it has one. -/
def id? (t : Interner) (v : Identity) : Option NodeId := t.ids[v]?

/-- The id of a value, and the interner that remembers it. -/
def intern (t : Interner) (v : Identity) : NodeId × Interner :=
  match t.id? v with
  | some id => (id, t)
  | none =>
    let id : NodeId := ⟨v.kind, t.size⟩
    (id, ⟨t.ids.insert v id, t.values.push v⟩)

/-- The value that was given an id. The id's kind has to be the value's. -/
def value? (t : Interner) (id : NodeId) : Except Violation Identity :=
  match t.values[id.index]? with
  | some v => if v.kind = id.kind then .ok v else .error (.unknownNode id)
  | none => .error (.unknownNode id)

theorem id?_intern_self (t : Interner) (v : Identity) :
    (t.intern v).2.id? v = some (t.intern v).1 := by
  unfold intern
  split
  · assumption
  · simp [id?]

/-- A value seen for the first time is given the next number. -/
theorem intern_of_id?_eq_none {t : Interner} {v : Identity} (h : t.id? v = none) :
    (t.intern v).1 = ⟨v.kind, t.size⟩ ∧ (t.intern v).2.size = t.size + 1 := by
  simp [intern, h, size]

/-- The id of a value seen for the first time leads back to the value. -/
theorem value?_intern_of_id?_eq_none {t : Interner} {v : Identity} (h : t.id? v = none) :
    (t.intern v).2.value? (t.intern v).1 = .ok v := by
  simp [intern, h, value?, size]

end Interner
end Retention
