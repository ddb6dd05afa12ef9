import Retention.Realm.Basic

/-!
# Collections

Maps and sets, and their weak kinds, are insertion-ordered sequences whose keys
are compared by `Value.sameValueZero`; the negative zero is stored as the
positive one. Weak collections take keys that can be held weakly only.

* `Entries`: keyed entries as an insertion-ordered map.
* `Members`: values as an insertion-ordered set.
* `Realm.keyedSet`, `Realm.keyedGet`, …, `Realm.setAdd`, …: the guest operations.
-/

namespace Retention

/-- The value that a key is stored as. -/
def canonicalKey : Value → Value
  | .number n => .number (if n.isZero then .zero else n)
  | key => key

namespace Entries

/-- The first entry with the given key. -/
def find? (entries : Sequence KeyedEntry) (key : Value) : Option KeyedEntry :=
  entries.find? (·.key.sameValueZero key)

/-- The value stored under a key. -/
def get? (entries : Sequence KeyedEntry) (key : Value) : Option Value :=
  (find? entries key).map KeyedEntry.value

/-- Replaces the value of the first entry with the given key. -/
def replace (key value : Value) : List KeyedEntry → List KeyedEntry
  | [] => []
  | e :: rest =>
    if e.key.sameValueZero key then { e with value } :: rest else e :: replace key value rest

/-- Stores a value under a key, in place or at the end. -/
def insert (entries : Sequence KeyedEntry) (key value : Value) : Sequence KeyedEntry :=
  match find? entries key with
  | some _ => .ofList (replace key value entries.toList)
  | none => entries.push { key, value }

/-- Removes the entry of a key. -/
def erase (entries : Sequence KeyedEntry) (key : Value) : Sequence KeyedEntry :=
  .ofList (entries.toList.eraseP (·.key.sameValueZero key))

theorem get?_eq (entries : Sequence KeyedEntry) (key : Value) :
    get? entries key =
      (entries.toList.find? (·.key.sameValueZero key)).map KeyedEntry.value := by
  simp [get?, find?, Sequence.find?_toList]

/-- The first entry with a key holds the value that replaced its own. -/
theorem find?_replace_self {key value : Value} {entries : List KeyedEntry}
    (h : (entries.find? (·.key.sameValueZero key)).isSome = true) :
    ((replace key value entries).find? (·.key.sameValueZero key)).map KeyedEntry.value =
      some value := by
  induction entries with
  | nil => simp at h
  | cons e rest ih =>
    unfold replace
    by_cases he : e.key.sameValueZero key = true
    · simp [he]
    · simp only [he, Bool.false_eq_true, if_false, List.find?_cons] at h ⊢
      exact ih h

/-- The value stored last under a key is the one found. -/
theorem get?_insert_self (entries : Sequence KeyedEntry) (key value : Value) :
    get? (insert entries key value) key = some value := by
  unfold insert
  split
  · rename_i e h
    rw [get?_eq, Sequence.toList_ofList]
    apply find?_replace_self
    rw [Sequence.find?_toList]
    exact Option.isSome_of_eq_some h
  · rename_i h
    have hnone : entries.toList.find? (·.key.sameValueZero key) = none := by
      rw [Sequence.find?_toList]
      exact h
    simp [get?_eq, List.find?_append, hnone, Value.sameValueZero_self]

end Entries

namespace Members

/-- Whether a value is a member. -/
def contains (values : Sequence Value) (v : Value) : Bool := values.any (·.sameValueZero v)

/-- Adds a value at the end unless it is a member. -/
def insert (values : Sequence Value) (v : Value) : Sequence Value :=
  if contains values v then values else values.push v

/-- Removes a value. -/
def erase (values : Sequence Value) (v : Value) : Sequence Value :=
  .ofList (values.toList.eraseP (·.sameValueZero v))

theorem contains_insert_self (values : Sequence Value) (v : Value) :
    contains (insert values v) v = true := by
  unfold insert
  split
  · assumption
  · simp [contains, ← Sequence.any_toList, Value.sameValueZero_self]

end Members

namespace Realm

/-- The internal slots of a keyed collection with the given entries. -/
def keyedKind (weak : Bool) (entries : Sequence KeyedEntry) : ObjectKind :=
  if weak then .weakMap entries else .map entries

/-- The internal slots of a set with the given members. -/
def setKindOf (weak : Bool) (values : Sequence Value) : ObjectKind :=
  if weak then .weakSet values else .set values

/-- A new, empty keyed collection. -/
def newKeyed (weak : Bool) : RealmM ObjectRef :=
  allocOf (if weak then .weakMap else .map) (keyedKind weak {})

/-- A new, empty set. -/
def newSet (weak : Bool) : RealmM ObjectRef :=
  allocOf (if weak then .weakSet else .set) (setKindOf weak {})

/-- The entries of a keyed collection, which must be of the given weakness. -/
def entriesOf (weak : Bool) (ref : ObjectRef) : RealmM (Sequence KeyedEntry) := do
  match ← kind ref, weak with
  | .map entries, false => return entries
  | .weakMap entries, true => return entries
  | _, weak => throwTypeError s!"receiver is not a {(keyedKind weak (.ofList [])).builtin.name}"

/-- The members of a set, which must be of the given weakness. -/
def membersOf (weak : Bool) (ref : ObjectRef) : RealmM (Sequence Value) := do
  match ← kind ref, weak with
  | .set values, false => return values
  | .weakSet values, true => return values
  | _, weak => throwTypeError s!"receiver is not a {(setKindOf weak (.ofList [])).builtin.name}"

/-- Throws unless a value can be held weakly. -/
def requireWeaklyHoldable (v : Value) (role : String) : RealmM Unit := do
  if !(← getThe Realm).heap.canBeHeldWeakly v then
    throwTypeError s!"invalid value used as {role}"

/-- Stores a value under a key. -/
def keyedSet (weak : Bool) (ref : ObjectRef) (key value : Value) : RealmM Unit := do
  let entries ← entriesOf weak ref
  if weak then requireWeaklyHoldable key "weak map key"
  setKind ref (keyedKind weak (Entries.insert entries (canonicalKey key) value))

/-- The value stored under a key. -/
def keyedGet? (weak : Bool) (ref : ObjectRef) (key : Value) : RealmM (Option Value) :=
  return Entries.get? (← entriesOf weak ref) key

/-- The value stored under a key, or `undefined`. -/
def keyedGet (weak : Bool) (ref : ObjectRef) (key : Value) : RealmM Value :=
  return (← keyedGet? weak ref key).getD .undefined

/-- Whether a value is stored under a key. -/
def keyedHas (weak : Bool) (ref : ObjectRef) (key : Value) : RealmM Bool :=
  return (← keyedGet? weak ref key).isSome

/-- Removes a key, and tells whether it was there. -/
def keyedDelete (weak : Bool) (ref : ObjectRef) (key : Value) : RealmM Bool := do
  let entries ← entriesOf weak ref
  let present := (Entries.get? entries key).isSome
  setKind ref (keyedKind weak (Entries.erase entries key))
  return present

/-- Adds a member. -/
def setAdd (weak : Bool) (ref : ObjectRef) (v : Value) : RealmM Unit := do
  let values ← membersOf weak ref
  if weak then requireWeaklyHoldable v "weak set value"
  setKind ref (setKindOf weak (Members.insert values (canonicalKey v)))

/-- Whether a value is a member. -/
def setHas (weak : Bool) (ref : ObjectRef) (v : Value) : RealmM Bool :=
  return Members.contains (← membersOf weak ref) v

/-- Removes a member, and tells whether it was there. -/
def setDelete (weak : Bool) (ref : ObjectRef) (v : Value) : RealmM Bool := do
  let values ← membersOf weak ref
  setKind ref (setKindOf weak (Members.erase values v))
  return Members.contains values v

end Realm
end Retention
