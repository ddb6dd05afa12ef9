import Retention.PropertyKey
import Retention.Sequence

/-!
# Objects and symbols

An object has a prototype, a table of properties in insertion order, and the
internal slots of its kind. Nothing here holds code: a function says by number
which code it runs, so objects are plain data.
-/

namespace Retention

/-- A data property. -/
structure Property where
  key : PropertyKey
  value : Value
  enumerable : Bool := true
  writable : Bool := true
  configurable : Bool := true
deriving DecidableEq, Repr, Inhabited

/-- A property that is not enumerable, the shape of built-in methods. -/
def Property.hidden (key : PropertyKey) (value : Value) : Property :=
  { key, value, enumerable := false }

/-- What calling a function object does. -/
inductive Behaviour where
  /-- A host function, by its place in the realm's table. -/
  | host (id : Nat)
  /-- Guest code, by its number. -/
  | closure (code : Nat)
  /-- Resolves the promise captured first, unless the shared latch is set. -/
  | resolve (latch : Nat)
  /-- Rejects the promise captured first, unless the shared latch is set. -/
  | reject (latch : Nat)
deriving DecidableEq, Repr, Inhabited

/-- A captured variable of a closure. -/
structure Binding where
  name : String
  value : Value
deriving DecidableEq, Repr, Inhabited

/-- A key and a value of a keyed collection. -/
structure KeyedEntry where
  key : Value
  value : Value
deriving DecidableEq, Repr, Inhabited

/-- A registration with a finalization registry. -/
structure Cell where
  target : Value
  held : Value
  token? : Option Value
deriving DecidableEq, Repr, Inhabited

/-- The states of a promise. -/
inductive PromiseState where
  | pending
  | fulfilled
  | rejected
deriving DecidableEq, Repr, Inhabited

/-- What happens when a promise settles: a handler is called, and the derived
promise is settled with the outcome. -/
structure Reaction where
  handler? : Option ObjectRef
  derived? : Option ObjectRef
deriving DecidableEq, Repr, Inhabited

/-- The internal slots of a promise. -/
structure PromiseSlots where
  state : PromiseState := .pending
  result : Value := .undefined
  onFulfilled : Sequence Reaction := {}
  onRejected : Sequence Reaction := {}
  handled : Bool := false
deriving DecidableEq, Repr, Inhabited

/-- The kinds of objects. -/
inductive BuiltinKind where
  | ordinary
  | array
  | error
  | function
  | boundFunction
  | proxyRevoker
  | proxy
  | weakRef
  | finalizationRegistry
  | map
  | set
  | weakMap
  | weakSet
  | promise
deriving DecidableEq, Repr, Inhabited, Hashable

namespace BuiltinKind

/-- All kinds, in their order. -/
def all : List BuiltinKind :=
  [ordinary, array, error, function, boundFunction, proxyRevoker, proxy, weakRef,
    finalizationRegistry, map, set, weakMap, weakSet, promise]

/-- The name of a kind. -/
def name : BuiltinKind → String
  | ordinary => "Object"
  | array => "Array"
  | error => "Error"
  | function => "Function"
  | boundFunction => "BoundFunction"
  | proxyRevoker => "ProxyRevoker"
  | proxy => "Proxy"
  | weakRef => "WeakRef"
  | finalizationRegistry => "FinalizationRegistry"
  | map => "Map"
  | set => "Set"
  | weakMap => "WeakMap"
  | weakSet => "WeakSet"
  | promise => "Promise"

theorem mem_all (k : BuiltinKind) : k ∈ all := by cases k <;> decide

/-- Kinds differ in their names. -/
theorem name_injective {a b : BuiltinKind} (h : a.name = b.name) : a = b := by
  cases a <;> cases b <;> first | rfl | (revert h; decide)

end BuiltinKind

/-- The internal slots of an object, by its kind. -/
inductive ObjectKind where
  | ordinary
  | array
  | error
  | function (name : String) (behaviour : Behaviour) (captures : List Binding)
  | boundFunction (target : ObjectRef) (this : Value) (args : List Value)
  /-- A revoker keeps its proxy until it is called. -/
  | proxyRevoker (proxy? : Option ObjectRef)
  /-- A proxy keeps its target and handler until it is revoked. -/
  | proxy (target? handler? : Option ObjectRef)
  | weakRef (target : Value)
  | finalizationRegistry (callback : ObjectRef) (cells : Sequence Cell)
  | map (entries : Sequence KeyedEntry)
  | set (values : Sequence Value)
  | weakMap (entries : Sequence KeyedEntry)
  | weakSet (values : Sequence Value)
  | promise (slots : PromiseSlots)
deriving DecidableEq, Repr, Inhabited

/-- The kind of the given slots. -/
def ObjectKind.builtin : ObjectKind → BuiltinKind
  | ordinary => .ordinary
  | array => .array
  | error => .error
  | function .. => .function
  | boundFunction .. => .boundFunction
  | proxyRevoker _ => .proxyRevoker
  | proxy .. => .proxy
  | weakRef _ => .weakRef
  | finalizationRegistry .. => .finalizationRegistry
  | map _ => .map
  | set _ => .set
  | weakMap _ => .weakMap
  | weakSet _ => .weakSet
  | promise _ => .promise

/-- Objects of these kinds can be called. -/
def ObjectKind.isCallable : ObjectKind → Bool
  | function .. | boundFunction .. | proxyRevoker _ => true
  | _ => false

/-- An object. -/
structure Object where
  prototype? : Option ObjectRef
  properties : List Property := []
  kind : ObjectKind
deriving DecidableEq, Repr, Inhabited

/-- A symbol; a registered one was made for a key and is found under it. -/
structure Symbol where
  description? : Option String
  registered : Bool
deriving DecidableEq, Repr, Inhabited

end Retention
