import Retention.Failure
import Retention.Heap.Property

/-!
# The heap

A heap is a growing array of slots, each an object or a symbol. Slots are
numbered in the order of allocation and are never reused, so a reference stays
what it was. A reference that does not lead to a slot of its kind is invalid.

* `Heap.object`, `Heap.symbol`: what a reference leads to.
* `Heap.alloc`, `Heap.allocSymbol`, `Heap.symbolFor`: new slots.
* `Heap.update`: a change of one object.
* `Heap.get`: a property of an object or of its prototypes.
* `Heap.setPrototype`: a change of prototype that makes no cycle.
-/

namespace Retention

/-- What a slot holds. -/
inductive Slot where
  | object (o : Object)
  | symbol (s : Symbol)
deriving DecidableEq, Repr, Inhabited

/-- The slots of a heap and the symbols registered under keys. -/
structure Heap where
  slots : Array Slot := #[]
  registry : List (String × SymbolRef) := []
deriving DecidableEq, Repr, Inhabited

/-- How many objects a walk along prototypes visits at most. -/
def prototypeChainLimit : Nat := 10000

namespace Heap

/-- The number of slots. -/
def size (h : Heap) : Nat := h.slots.size

/-- The object that a reference leads to. -/
def object (h : Heap) (ref : ObjectRef) : Except Abrupt Object :=
  match h.slots[ref.slot]? with
  | some (.object o) => .ok o
  | _ => .error .invalidHandle

/-- The symbol that a reference leads to. -/
def symbol (h : Heap) (ref : SymbolRef) : Except Abrupt Symbol :=
  match h.slots[ref.slot]? with
  | some (.symbol s) => .ok s
  | _ => .error .invalidHandle

/-- Whether a reference leads to an object. -/
def isObject (h : Heap) (ref : ObjectRef) : Bool := (h.object ref).isOk

/-- Whether a reference leads to a symbol. -/
def isSymbol (h : Heap) (ref : SymbolRef) : Bool := (h.symbol ref).isOk

/-- The internal slots of an object. -/
def kind (h : Heap) (ref : ObjectRef) : Except Abrupt ObjectKind :=
  return (← h.object ref).kind

/-- The prototype of an object. -/
def prototype? (h : Heap) (ref : ObjectRef) : Except Abrupt (Option ObjectRef) :=
  return (← h.object ref).prototype?

/-- Whether a value can be called. -/
def isCallable (h : Heap) : Value → Bool
  | .object ref =>
    match h.kind ref with
    | .ok kind => kind.isCallable
    | .error _ => false
  | _ => false

/-- The object that a value refers to, if it can be called. -/
def callable? (h : Heap) (v : Value) : Option ObjectRef :=
  if h.isCallable v then v.object? else none

/-- Whether a value can be held weakly: an object, or a symbol that is not
registered. -/
def canBeHeldWeakly (h : Heap) : Value → Bool
  | .object ref => h.isObject ref
  | .symbol ref =>
    match h.symbol ref with
    | .ok s => !s.registered
    | .error _ => false
  | _ => false

/-- A new object. -/
def alloc (h : Heap) (prototype? : Option ObjectRef) (kind : ObjectKind) : ObjectRef × Heap :=
  (⟨h.size⟩, { h with slots := h.slots.push (.object { prototype?, kind }) })

/-- A new symbol. -/
def allocSymbol (h : Heap) (description? : Option String) (registered : Bool) :
    SymbolRef × Heap :=
  (⟨h.size⟩, { h with slots := h.slots.push (.symbol { description?, registered }) })

/-- The symbol registered under a key, made at the first request. -/
def symbolFor (h : Heap) (key : String) : SymbolRef × Heap :=
  match h.registry.lookup key with
  | some ref => (ref, h)
  | none =>
    let (ref, h) := h.allocSymbol (some key) true
    (ref, { h with registry := h.registry ++ [(key, ref)] })

/-- Changes an object, which also answers something. -/
def update {α : Type} (h : Heap) (ref : ObjectRef) (change : Object → α × Object) :
    Except Abrupt α × Heap :=
  match h.object ref with
  | .error cause => (.error cause, h)
  | .ok o =>
    let (answer, o) := change o
    (.ok answer, { h with slots := h.slots.setIfInBounds ref.slot (.object o) })

/-- The first value of a property among `steps` objects along the prototypes. -/
def getWithin (h : Heap) (key : PropertyKey) : Nat → Option ObjectRef → Except Abrupt Value
  | 0, _ | _, none => .ok .undefined
  | steps + 1, some ref => do
    let o ← h.object ref
    match o.own? key with
    | some p => .ok p.value
    | none => h.getWithin key steps o.prototype?

/-- A property of an object or, failing that, of its prototypes. -/
def get (h : Heap) (ref : ObjectRef) (key : PropertyKey) : Except Abrupt Value :=
  h.getWithin key prototypeChainLimit (some ref)

/-- Whether `ref` can have the prototype: it must not occur among the objects
from `prototype` upward, and those must be no more than `steps`. -/
def acceptsPrototype (h : Heap) (ref : ObjectRef) : Nat → Option ObjectRef → Except Abrupt Bool
  | _, none => .ok true
  | 0, some _ => .ok false
  | steps + 1, some p =>
    if p = ref then .ok false
    else do h.acceptsPrototype ref steps (← h.prototype? p)

/-- Sets an object's prototype, and tells whether it could: not when that would
make a cycle or a chain beyond `prototypeChainLimit`. -/
def setPrototype (h : Heap) (ref : ObjectRef) (prototype? : Option ObjectRef) :
    Except Abrupt Bool × Heap :=
  match h.acceptsPrototype ref prototypeChainLimit prototype? with
  | .ok true => h.update ref fun o => (true, { o with prototype? })
  | refused => (refused, h)

/-- The length of an array or of another object with a valid `length`; zero
without one. -/
def arrayLength (h : Heap) (ref : ObjectRef) : Except Abrupt Nat :=
  return (Retention.arrayLength? (← h.get ref .length)).getD 0

/-- The elements of an object below its length, in order, without holes. -/
def arrayElements (h : Heap) (ref : ObjectRef) : Except Abrupt (List Value) := do
  let length ← h.arrayLength ref
  let o ← h.object ref
  return (Properties.sortedElements o.properties).filterMap fun (i, p) =>
    if i < length then some p.value else none

theorem object_alloc_self (h : Heap) (prototype? : Option ObjectRef) (kind : ObjectKind) :
    (h.alloc prototype? kind).2.object (h.alloc prototype? kind).1 = .ok { prototype?, kind } := by
  simp [alloc, object, size]

theorem size_alloc (h : Heap) (prototype? : Option ObjectRef) (kind : ObjectKind) :
    (h.alloc prototype? kind).2.size = h.size + 1 := by
  simp [alloc, size]

/-- An allocation leaves the objects there are as they were. -/
theorem object_alloc_of_object {h : Heap} {ref : ObjectRef} {o : Object} (ho : h.object ref = .ok o)
    (prototype? : Option ObjectRef) (kind : ObjectKind) :
    (h.alloc prototype? kind).2.object ref = .ok o := by
  have hs : h.slots[ref.slot]? = some (.object o) := by
    unfold object at ho
    split at ho <;> simp_all
  obtain ⟨hlt, -⟩ := Array.getElem?_eq_some_iff.mp hs
  have hne : ref.slot ≠ h.slots.size := by omega
  simp [object, alloc, Array.getElem?_push, hne, hs]

/-- What a change makes of the object it is made to, and what it answers. -/
theorem object_update_self {α : Type} {h h' : Heap} {ref : ObjectRef} {o : Object} {a : α}
    {change : Object → α × Object} (ho : h.object ref = .ok o)
    (hu : h.update ref change = (.ok a, h')) :
    h'.object ref = .ok (change o).2 ∧ a = (change o).1 := by
  have hlt : ref.slot < h.slots.size := by
    unfold object at ho
    split at ho
    · rename_i hs
      exact (Array.getElem?_eq_some_iff.mp hs).1
    · simp at ho
  simp only [update, ho, Prod.mk.injEq, Except.ok.injEq] at hu
  obtain ⟨rfl, rfl⟩ := hu
  simp [object, hlt]

/-- A change of one object leaves the others as they were. -/
theorem object_update_of_ne {α : Type} (h : Heap) {ref other : ObjectRef}
    (change : Object → α × Object) (hne : other ≠ ref) :
    (h.update ref change).2.object other = h.object other := by
  have hslot : ref.slot ≠ other.slot := fun he => hne (by cases ref; cases other; simp_all)
  unfold update
  split
  · rfl
  · simp [object, Array.getElem?_setIfInBounds_ne hslot]

/-- A change of one object makes no slots. -/
theorem size_update {α : Type} (h : Heap) (ref : ObjectRef) (change : Object → α × Object) :
    (h.update ref change).2.size = h.size := by
  unfold update
  split <;> simp [size]

/-- Where there is no object to change, nothing changes. -/
theorem update_of_object_eq_error {α : Type} {h : Heap} {ref : ObjectRef} {cause : Abrupt}
    (ho : h.object ref = .error cause) (change : Object → α × Object) :
    h.update ref change = (.error cause, h) := by
  simp [update, ho]

end Heap
end Retention
