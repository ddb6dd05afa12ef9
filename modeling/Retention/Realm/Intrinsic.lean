import Retention.Heap.Basic

/-!
# Intrinsic objects

A fresh heap holds the prototypes of the built-in kinds of objects and the
global object, always in the same slots.
-/

namespace Retention

/-- The intrinsic prototypes, in the order of their slots. -/
inductive Intrinsic where
  | object
  | function
  | array
  | error
  | map
  | set
  | weakMap
  | weakSet
  | weakRef
  | finalizationRegistry
  | promise
  | typeError
  | rangeError
deriving DecidableEq, Repr, Inhabited

namespace Intrinsic

/-- All intrinsic prototypes, in the order of their slots. -/
def all : List Intrinsic :=
  [object, function, array, error, map, set, weakMap, weakSet, weakRef, finalizationRegistry,
    promise, typeError, rangeError]

/-- The object that an intrinsic prototype is. -/
def ref (i : Intrinsic) : ObjectRef := ⟨all.idxOf i⟩

/-- The prototype of an intrinsic prototype. -/
def prototype? : Intrinsic → Option ObjectRef
  | object => none
  | typeError | rangeError => some error.ref
  | _ => some object.ref

end Intrinsic

/-- The global object comes after the intrinsic prototypes. -/
def globalRef : ObjectRef := ⟨Intrinsic.all.length⟩

/-- The heap of a fresh realm. The global object refers to itself. -/
def Heap.initial : Heap where
  slots :=
    (Intrinsic.all.map fun i => Slot.object { prototype? := i.prototype?, kind := .ordinary }).toArray
      |>.push (.object
        { prototype? := some Intrinsic.object.ref
          properties := [.hidden (.string "globalThis") (.object globalRef)]
          kind := .ordinary })

theorem Heap.object_initial (i : Intrinsic) :
    Heap.initial.object i.ref = .ok { prototype? := i.prototype?, kind := .ordinary } := by
  cases i <;> rfl

theorem Heap.size_initial : Heap.initial.size = 14 := rfl

end Retention
