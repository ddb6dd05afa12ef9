import Retention.Realm.Intrinsic
import Retention.Realm.Job
import Retention.Search.Results
import Retention.Search.Run

/-!
# Realms

A realm is a heap with its intrinsic objects, the work that its guest has
deferred, and what the host keeps about it. Operations on a realm may end
abruptly; what they changed before that stays changed.

* `RealmM`: operations on a realm.
* `Realm.throwTypeError`, `Realm.throwRangeError`: guest errors.
* `Realm.get`, `Realm.set`, `Realm.delete`: properties as guest code sees them.
* `Realm.display`: the text of a value.
-/

namespace Retention

/-- The options of a realm. -/
structure Options where
  /-- How many jobs may be run; without a budget, any number. -/
  jobBudget? : Option Nat := none
  /-- Whether searches record references to primitives. -/
  recordPrimitives : Bool := true
deriving DecidableEq, Repr, Inhabited

/-- The code of a host function. -/
inductive HostCode where
  /-- Starts a search. -/
  | searchReferences
  /-- Reports values to the host. -/
  | report
  /-- A function of the embedding, by number. -/
  | supplied (code : Nat)
deriving DecidableEq, Repr, Inhabited

/-- A host function: its guest-visible name and length, and its code. -/
structure HostFunction where
  name : String
  length : Nat
  code : HostCode
deriving DecidableEq, Repr, Inhabited

/-- The code of an analyzer. -/
inductive AnalyzerCode where
  | builtin
  /-- An analyzer of the embedding, by number. -/
  | supplied (code : Nat)
deriving DecidableEq, Repr, Inhabited

/-- Analyzers by the kind of object they read. -/
abbrev AnalyzerRegistry := List (BuiltinKind × AnalyzerCode)

namespace AnalyzerRegistry

/-- The built-in analyzers. -/
def builtin : AnalyzerRegistry :=
  (BuiltinKind.all.filter BuiltinKind.hasSlots).map fun kind => (kind, .builtin)

def contains (r : AnalyzerRegistry) (kind : BuiltinKind) : Bool := (r.lookup kind).isSome

/-- The kinds that have an analyzer, in the order of kinds. -/
def kinds (r : AnalyzerRegistry) : List BuiltinKind := BuiltinKind.all.filter (contains r)

def unregister (r : AnalyzerRegistry) (kind : BuiltinKind) : AnalyzerRegistry :=
  r.filter (·.1 != kind)

/-- The analyzer takes the place of the one registered for its kind. -/
def register (r : AnalyzerRegistry) (kind : BuiltinKind) (code : AnalyzerCode) :
    AnalyzerRegistry :=
  (kind, code) :: unregister r kind

theorem contains_register (r : AnalyzerRegistry) (kind : BuiltinKind) (code : AnalyzerCode) :
    contains (register r kind code) kind = true := by
  simp [contains, register]

end AnalyzerRegistry

/-- A realm. -/
structure Realm where
  options : Options := {}
  heap : Heap := .initial
  analyzers : AnalyzerRegistry := .builtin
  jobs : JobQueue := {}
  /-- How many jobs were taken from the queue. -/
  jobsRun : Nat := 0
  hostWork : Queue HostWork := {}
  hostFunctions : Array HostFunction := #[]
  /-- The searches run since the last publication, in call order. -/
  searches : Sequence SearchRecord := {}
  /-- The promises rejected without a handler, in the order of their rejection. -/
  unhandled : Sequence ObjectRef := {}
  /-- The values reported since the last delivery. -/
  reports : Sequence (List String) := {}
  /-- The latches shared by the two resolving functions of a promise: set once
  either was called. -/
  latches : Array Bool := #[]
deriving DecidableEq, Repr, Inhabited

/-- An operation on a realm. -/
abbrev RealmM (α : Type) := ExceptT Abrupt (StateM Realm) α

namespace Realm

/-- A read of the heap. -/
def readHeap {α : Type} (read : Heap → Except Abrupt α) : RealmM α := do
  read (← getThe Realm).heap

/-- A change of the heap that may fail. -/
def changeHeap {α : Type} (change : Heap → Except Abrupt α × Heap) : RealmM α := fun r =>
  let (outcome, heap) := change r.heap
  (outcome, { r with heap })

/-- A change of the heap that cannot fail, such as an allocation. -/
def onHeap {α : Type} (change : Heap → α × Heap) : RealmM α :=
  modifyGetThe Realm fun r =>
    let (answer, heap) := change r.heap
    (answer, { r with heap })

/-- The internal slots of an object. -/
def kind (ref : ObjectRef) : RealmM ObjectKind := readHeap (·.kind ref)

/-- Replaces the internal slots of an object. -/
def setKind (ref : ObjectRef) (kind : ObjectKind) : RealmM Unit :=
  changeHeap (·.update ref fun o => ((), { o with kind }))

/-- A new object. -/
def alloc (prototype? : Option ObjectRef) (kind : ObjectKind) : RealmM ObjectRef :=
  onHeap (·.alloc prototype? kind)

/-- A new object with an intrinsic prototype. -/
def allocOf (prototype : Intrinsic) (kind : ObjectKind) : RealmM ObjectRef :=
  alloc (some prototype.ref) kind

/-- A new ordinary object. -/
def newObject : RealmM ObjectRef := allocOf .object .ordinary

/-- An array object with the given elements. -/
def arrayOf (elements : List Value) (empty : Object) : Object :=
  elements.zipIdx.foldl (fun o (v, i) => o.define { key := .ofIndex i, value := v })
    (empty.define (Properties.lengthProperty 0))

/-- A new array. -/
def newArray (elements : List Value) : RealmM ObjectRef := do
  let ref ← allocOf .array .array
  changeHeap (·.update ref fun o => (ref, arrayOf elements o))

/-- A new symbol. -/
def newSymbol (description? : Option String) : RealmM SymbolRef :=
  onHeap (·.allocSymbol description? false)

/-- The symbol registered under a key. -/
def symbolFor (key : String) : RealmM SymbolRef := onHeap (·.symbolFor key)

/-- A new closure. Its captured bindings are visible to searches. -/
def newFunction (name : String) (captures : List Binding) (behaviour : Behaviour) :
    RealmM ObjectRef :=
  allocOf .function (.function name behaviour captures)

/-- A new error object with a message. -/
def newError (prototype : ObjectRef) (message : String) : RealmM ObjectRef := do
  let ref ← alloc (some prototype) .error
  changeHeap (·.update ref fun o =>
    (ref, { o with properties := o.properties ++ [.hidden (.string "message") (.string message)] }))

/-- Throws a new guest `TypeError`. -/
def throwTypeError {α : Type} (message : String) : RealmM α := do
  throw (.thrown (.object (← newError Intrinsic.typeError.ref message)))

/-- Throws a new guest `RangeError`. -/
def throwRangeError {α : Type} (message : String) : RealmM α := do
  throw (.thrown (.object (← newError Intrinsic.rangeError.ref message)))

/-- Reassigns a captured binding of a closure. -/
def setCapture (func : ObjectRef) (index : Nat) (value : Value) : RealmM Unit := do
  let rebound? := match ← kind func with
    | .function name behaviour captures =>
      if index < captures.length then
        some (ObjectKind.function name behaviour (captures.modify index fun b => { b with value }))
      else none
    | _ => none
  match rebound? with
  | some slots => setKind func slots
  | none => throwTypeError "closure has no such captured binding"

/-- The property of a value. Primitives have no properties, and `null` and
`undefined` cannot be asked. -/
def get (target : Value) (key : PropertyKey) : RealmM Value :=
  match target with
  | .object ref => readHeap (·.get ref key)
  | .undefined | .null => throwTypeError "cannot read properties of null or undefined"
  | _ => pure .undefined

/-- Assigns to a property. -/
def set (target : ObjectRef) (key : PropertyKey) (value : Value) : RealmM Unit := do
  if (← kind target).builtin == .array && key == .length && (arrayLength? value).isNone then
    throwRangeError "invalid array length"
  if !(← changeHeap (·.update target (·.set key value))) then
    throwTypeError "cannot assign to read only property"

/-- Deletes a property. -/
def delete (target : ObjectRef) (key : PropertyKey) : RealmM Unit := do
  if !(← changeHeap (·.update target (·.delete key))) then
    throwTypeError "cannot delete non-configurable property"

/-- A property of the global object. -/
def getGlobal (name : String) : RealmM Value := get (.object globalRef) (.string name)

/-- Assigns to a property of the global object. -/
def setGlobal (name : String) (value : Value) : RealmM Unit :=
  set globalRef (.string name) value

/-- The name that an error is displayed under. -/
def errorName (o : Object) : String :=
  if o.prototype? = some Intrinsic.typeError.ref then "TypeError"
  else if o.prototype? = some Intrinsic.rangeError.ref then "RangeError"
  else "Error"

/-- The text of an object. -/
def displayObject (h : Heap) (ref : ObjectRef) : String :=
  match h.object ref with
  | .error _ => "<invalid object>"
  | .ok o =>
    match o.kind with
    | .error =>
      match h.get ref (.string "message") with
      | .ok (.string message) =>
        if message.isEmpty then errorName o else s!"{errorName o}: {message}"
      | _ => errorName o
    | .function name .. => s!"function {name}"
    | .array => s!"Array({(h.arrayLength ref).toOption.getD 0})"
    | kind => s!"[object {kind.builtin.name}]"

/-- The text of a value. -/
def displayIn (h : Heap) : Value → String
  | .symbol ref =>
    match h.symbol ref with
    | .ok { description? := some description, .. } => s!"Symbol({description})"
    | _ => "Symbol()"
  | .object ref => displayObject h ref
  | v => v.primitiveText?.getD ""

/-- The text of a value. -/
def display (r : Realm) (v : Value) : String := displayIn r.heap v

/-- The job waits to be run. -/
def enqueue (job : Job) : RealmM Unit := modifyThe Realm fun r => { r with jobs := r.jobs.push job }

/-- Takes the next job from the queue. -/
def takeJob : RealmM (Option QueuedJob) :=
  modifyGetThe Realm fun r =>
    let (job?, jobs) := r.jobs.pop
    (job?, { r with jobs })

/-- Counts a job, and refuses it when the budget is used up. -/
def chargeJob : RealmM Unit := do
  modifyThe Realm fun r => { r with jobsRun := r.jobsRun + 1 }
  let r ← getThe Realm
  if r.options.jobBudget?.any (· < r.jobsRun) then throw .outOfFuel

/-- Whether no job and no host work is left. -/
def isQuiescent (r : Realm) : Bool := r.jobs.isEmpty && r.hostWork.isEmpty

/-- Publishes the searches run so far. The realm must be quiescent, since what
is left to run could still change the heap. -/
def finalizeSearches : RealmM SearchResults := do
  let r ← getThe Realm
  if !r.isQuiescent then
    throw (.broken (.notQuiescent r.jobs.size r.hostWork.size))
  modifyThe Realm fun r => { r with searches := {} }
  return .ofRecords r.searches.toList

/-- Takes the values reported since the last delivery. -/
def takeReports : RealmM (List (List String)) :=
  modifyGetThe Realm fun r => (r.reports.toList, { r with reports := {} })

/-- Makes a host function known, and a guest function that calls it. -/
def newHostFunction (f : HostFunction) : RealmM ObjectRef := do
  let id ← modifyGetThe Realm fun r =>
    (r.hostFunctions.size, { r with hostFunctions := r.hostFunctions.push f })
  let ref ← newFunction f.name [] (.host id)
  let readOnly (key : String) (value : Value) : Property :=
    { key := .string key, value, enumerable := false, writable := false }
  changeHeap (·.update ref fun o =>
    (ref, (o.define (readOnly "length" (.number (.ofNat f.length)))).define
      (readOnly "name" (.string f.name))))

/-- A host function as a property of the global object. -/
def installGlobalFunction (f : HostFunction) : RealmM ObjectRef := do
  let ref ← newHostFunction f
  changeHeap (·.update globalRef fun o =>
    (ref, o.define (.hidden (.string f.name) (.object ref))))

/-- The function by which guest code starts a search. -/
def searchReferences : HostFunction := ⟨"searchReferences", 4, .searchReferences⟩

/-- The function by which guest code reports values. -/
def report : HostFunction := ⟨"report", 0, .report⟩

/-- Installs the functions that guest code talks to the host with. -/
def installHostFunctions : RealmM Unit := do
  let _ ← installGlobalFunction searchReferences
  let _ ← installGlobalFunction report

end Realm
end Retention
