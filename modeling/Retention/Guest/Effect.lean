import Retention.Guest.Answer
import Retention.Realm.Function
import Retention.Realm.Promise
import Retention.Realm.Weak

/-!
# Effects

The operations that a realm performs by itself, without running guest code.

* `Effect.run`: what each of them does.
-/

namespace Retention

/-- An operation that runs no guest code. -/
inductive Effect where
  -- allocation
  | newObject
  | newArray (elements : List Value)
  | newSymbol (description? : Option String)
  | symbolFor (key : String)
  | newError (prototype : ObjectRef) (message : String)
  | throwTypeError (message : String)
  | throwRangeError (message : String)
  | newFunction (name : String) (captures : List Binding) (code : Nat)
  /-- An object with any internal slots. -/
  | alloc (prototype? : Option ObjectRef) (kind : ObjectKind)
  /-- So many ordinary objects, each the prototype of the next. -/
  | chain (length : Nat) (prototype? : Option ObjectRef)
  -- properties as guest code sees them
  | get (target : Value) (key : PropertyKey)
  | set (target : ObjectRef) (key : PropertyKey) (value : Value)
  | delete (target : ObjectRef) (key : PropertyKey)
  | getGlobal (name : String)
  | setGlobal (name : String) (value : Value)
  | setCapture (func : ObjectRef) (index : Nat) (value : Value)
  -- the heap
  | heapGet (ref : ObjectRef) (key : PropertyKey)
  | heapSet (ref : ObjectRef) (key : PropertyKey) (value : Value)
  | heapDelete (ref : ObjectRef) (key : PropertyKey)
  | define (ref : ObjectRef) (property : Property)
  | ownKeys (ref : ObjectRef)
  | ownProperties (ref : ObjectRef)
  | ownProperty (ref : ObjectRef) (key : PropertyKey)
  | arrayLength (ref : ObjectRef)
  | arrayElements (ref : ObjectRef)
  | setArrayLength (ref : ObjectRef) (length : Nat)
  | prototypeOf (ref : ObjectRef)
  | setPrototype (ref : ObjectRef) (prototype? : Option ObjectRef)
  /-- Writes a prototype without looking for a cycle. -/
  | forcePrototype (ref : ObjectRef) (prototype? : Option ObjectRef)
  -- inspection
  | inspect (value : Value)
  | contents (ref : ObjectRef)
  | describeSymbol (value : Value)
  | compare (a b : Value)
  | status
  -- host functions
  | installHostFunctions
  | newHostFunction (f : HostFunction)
  | installGlobalFunction (f : HostFunction)
  | hostFunction (id : Nat)
  | takeReports
  /-- The elements of an array, if the value is one. -/
  | elementsOf (value : Value)
  -- collections
  | newKeyed (weak : Bool)
  | keyedSet (weak : Bool) (ref : ObjectRef) (key value : Value)
  | keyedGet (weak : Bool) (ref : ObjectRef) (key : Value)
  | keyedHas (weak : Bool) (ref : ObjectRef) (key : Value)
  | keyedDelete (weak : Bool) (ref : ObjectRef) (key : Value)
  | newSet (weak : Bool)
  | setAdd (weak : Bool) (ref : ObjectRef) (value : Value)
  | setHas (weak : Bool) (ref : ObjectRef) (value : Value)
  | setDelete (weak : Bool) (ref : ObjectRef) (value : Value)
  -- weak references and registries
  | newWeakRef (target : Value)
  | deref (ref : ObjectRef)
  | newRegistry (callback : Value)
  | register (ref : ObjectRef) (target held : Value) (token? : Option Value)
  | unregister (ref : ObjectRef) (token : Value)
  -- proxies and bound functions
  | newProxy (target handler : Value)
  | proxyTarget (ref : ObjectRef)
  | bind (target this : Value) (args : List Value)
  -- promises and jobs
  | newPromise
  | newCapability
  | createResolvingFunctions (promise : ObjectRef)
  | promiseResolve (value : Value)
  | resolvePromise (promise : ObjectRef) (value : Value)
  | fulfillPromise (promise : ObjectRef) (value : Value)
  | rejectPromise (promise : ObjectRef) (reason : Value)
  | promiseThen (promise : ObjectRef) (onFulfilled onRejected : Value)
  | markHandled (promise : ObjectRef)
  | promiseSlots (promise : ObjectRef)
  | promiseFromHost (polls : Nat) (outcome : HostOutcome)
  | enqueue (kind : JobKind) (code : Nat)
  -- analyzers and searches
  | registerAnalyzer (kind : BuiltinKind) (code : Nat)
  | unregisterAnalyzer (kind : BuiltinKind)
  | analyzers
  | finalizeSearches
deriving DecidableEq, Repr

namespace Realm

/-- So many ordinary objects, each the prototype of the next; the last of them. -/
def allocChain : Nat → Option ObjectRef → Heap → Option ObjectRef × Heap
  | 0, last?, h => (last?, h)
  | length + 1, prototype?, h =>
    let (ref, h) := h.alloc prototype? .ordinary
    allocChain length (some ref) h

/-- What can be told about a value. -/
def inspect (r : Realm) (v : Value) : Inspection where
  type := v.typeName
  display := r.display v
  kind? := v.object?.bind fun ref => (r.heap.kind ref).toOption.map ObjectKind.builtin
  valid? := match v with
    | .object ref => some (r.heap.isObject ref)
    | .symbol ref => some (r.heap.isSymbol ref)
    | _ => none
  callable := r.heap.isCallable v
  weaklyHoldable := r.heap.canBeHeldWeakly v
  isPromise := (r.promise? v).isSome

/-- How far a realm has come. -/
def status (r : Realm) : Status where
  heapSize := r.heap.size
  jobs := r.jobs.size
  hostWork := r.hostWork.size
  jobsRun := r.jobsRun
  quiescent := r.isQuiescent
  searches := r.searches.size

/-- The elements of an array, if the value is one. -/
def elements? (h : Heap) (v : Value) : Option (List Value) := do
  let ref ← v.object?
  let kind ← (h.kind ref).toOption
  if kind.builtin == .array then (h.arrayElements ref).toOption else none

end Realm

namespace Effect

open Realm

/-- What an effect does and answers. -/
def run : Effect → RealmM Answer
  | newObject => .ofRef <$> Realm.newObject
  | newArray elements => .ofRef <$> Realm.newArray elements
  | newSymbol description? => return .value (.symbol (← Realm.newSymbol description?))
  | symbolFor key => return .value (.symbol (← Realm.symbolFor key))
  | newError prototype message => .ofRef <$> Realm.newError prototype message
  | throwTypeError message => Realm.throwTypeError message
  | throwRangeError message => Realm.throwRangeError message
  | newFunction name captures code => .ofRef <$> Realm.newFunction name captures (.closure code)
  | alloc prototype? kind => .ofRef <$> Realm.alloc prototype? kind
  | chain length prototype? => do
    let last? ← onHeap (allocChain length prototype?)
    return .value (last?.elim .undefined .object)
  | get target key => .value <$> Realm.get target key
  | set target key value => do Realm.set target key value; return .unit
  | delete target key => do Realm.delete target key; return .unit
  | getGlobal name => .value <$> Realm.getGlobal name
  | setGlobal name value => do Realm.setGlobal name value; return .unit
  | setCapture func index value => do Realm.setCapture func index value; return .unit
  | heapGet ref key => .value <$> readHeap (·.get ref key)
  | heapSet ref key value => .bool <$> changeHeap (·.update ref (·.set key value))
  | heapDelete ref key => .bool <$> changeHeap (·.update ref (·.delete key))
  | define ref property => do
    changeHeap (·.update ref fun o => ((), o.define property))
    return .unit
  | ownKeys ref => do
    let o ← readHeap (·.object ref)
    return .keys ((Properties.ordered o.properties).map Property.key)
  | ownProperties ref => do
    let o ← readHeap (·.object ref)
    return .properties (Properties.ordered o.properties)
  | ownProperty ref key => do return .property? ((← readHeap (·.object ref)).own? key)
  | arrayLength ref => .size <$> readHeap (·.arrayLength ref)
  | arrayElements ref => .several <$> readHeap (·.arrayElements ref)
  | setArrayLength ref length => .bool <$> changeHeap (·.update ref (·.setLength length))
  | prototypeOf ref => .object? <$> readHeap (·.prototype? ref)
  | setPrototype ref prototype? => .bool <$> changeHeap (·.setPrototype ref prototype?)
  | forcePrototype ref prototype? => do
    changeHeap (·.update ref fun o => ((), { o with prototype? }))
    return .unit
  | inspect value => return .inspection ((← getThe Realm).inspect value)
  | contents ref => return .contents? (← kind ref).contents?
  | describeSymbol value =>
    match value with
    | .symbol ref => return .symbol? (some (← readHeap (·.symbol ref)))
    | _ => return .symbol? none
  | compare a b => return .comparison (a.sameValue b) (a.sameValueZero b) (a.equal b)
  | status => return .status (← getThe Realm).status
  | installHostFunctions => do Realm.installHostFunctions; return .unit
  | newHostFunction f => .ofRef <$> Realm.newHostFunction f
  | installGlobalFunction f => .ofRef <$> Realm.installGlobalFunction f
  | hostFunction id => return .hostFunction? (← getThe Realm).hostFunctions[id]?
  | takeReports => .reports <$> Realm.takeReports
  | elementsOf value => do
    match elements? (← getThe Realm).heap value with
    | some vs => return .several vs
    | none => return .unit
  | newKeyed weak => .ofRef <$> Realm.newKeyed weak
  | keyedSet weak ref key value => do Realm.keyedSet weak ref key value; return .unit
  | keyedGet weak ref key => .value <$> Realm.keyedGet weak ref key
  | keyedHas weak ref key => .bool <$> Realm.keyedHas weak ref key
  | keyedDelete weak ref key => .bool <$> Realm.keyedDelete weak ref key
  | newSet weak => .ofRef <$> Realm.newSet weak
  | setAdd weak ref value => do Realm.setAdd weak ref value; return .unit
  | setHas weak ref value => .bool <$> Realm.setHas weak ref value
  | setDelete weak ref value => .bool <$> Realm.setDelete weak ref value
  | newWeakRef target => .ofRef <$> Realm.newWeakRef target
  | deref ref => .value <$> Realm.deref ref
  | newRegistry callback => .ofRef <$> Realm.newRegistry callback
  | register ref target held token? => do Realm.register ref target held token?; return .unit
  | unregister ref token => .bool <$> Realm.unregister ref token
  | newProxy target handler => do
    let (proxy, revoker) ← Realm.newProxy target handler
    return .several [.object proxy, .object revoker]
  | proxyTarget ref => .object? <$> proxyTarget? ref
  | bind target this args => .ofRef <$> Realm.bind target this args
  | newPromise => .ofRef <$> Realm.newPromise
  | newCapability => do
    let (promise, resolve, reject) ← Realm.newCapability
    return .several [.object promise, .object resolve, .object reject]
  | createResolvingFunctions promise => do
    let (resolve, reject) ← Realm.createResolvingFunctions promise
    return .several [.object resolve, .object reject]
  | promiseResolve value => .ofRef <$> Realm.promiseResolve value
  | resolvePromise promise value => do Realm.resolvePromise promise value; return .unit
  | fulfillPromise promise value => do Realm.fulfillPromise promise value; return .unit
  | rejectPromise promise reason => do Realm.rejectPromise promise reason; return .unit
  | promiseThen promise onFulfilled onRejected =>
    .ofRef <$> Realm.promiseThen promise onFulfilled onRejected
  | markHandled promise => do Realm.markHandled promise; return .unit
  | promiseSlots promise => .promise <$> Realm.promiseSlots promise
  | promiseFromHost polls outcome => .ofRef <$> Realm.promiseFromHost polls outcome
  | enqueue kind code => do Realm.enqueue { kind, work := .code code }; return .unit
  | registerAnalyzer kind code =>
    modifyGetThe Realm fun r =>
      (.bool (r.analyzers.contains kind),
        { r with analyzers := r.analyzers.register kind (.supplied code) })
  | unregisterAnalyzer kind =>
    modifyGetThe Realm fun r =>
      (.kind? (if r.analyzers.contains kind then some kind else none),
        { r with analyzers := r.analyzers.unregister kind })
  | analyzers => return .analyzers (← getThe Realm).analyzers
  | finalizeSearches => .results <$> Realm.finalizeSearches

end Effect
end Retention
