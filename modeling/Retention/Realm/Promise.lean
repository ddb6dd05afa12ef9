import Retention.Realm.Basic

/-!
# Promises

A promise is pending until it is fulfilled with a value or rejected with a
reason, once. Reactions wait with a pending promise, or are due at once with a
settled one; each becomes a job. A rejection that nothing handles is kept for
a report.

* `Realm.resolvePromise`: resolution, which follows promises and thenables.
* `Realm.settlePromise`: the one transition of a promise.
* `Realm.promiseThen`: reactions that settle a derived promise.
* `Realm.createResolvingFunctions`: the two functions that settle a promise.
* `Realm.promiseFromHost`: a promise that the host settles.
-/

namespace Retention.Realm

/-- A new pending promise. -/
def newPromise : RealmM ObjectRef := allocOf .promise (.promise {})

/-- The promise that a value refers to. -/
def promise? (r : Realm) (v : Value) : Option ObjectRef :=
  v.object?.filter fun ref =>
    match r.heap.kind ref with
    | .ok (.promise _) => true
    | _ => false

/-- Whether a promise was not settled so far. -/
def isPending (r : Realm) (promise : ObjectRef) : Bool :=
  match r.heap.kind promise with
  | .ok (.promise slots) => slots.state == .pending
  | _ => false

/-- The internal slots of a promise. -/
def promiseSlots (ref : ObjectRef) : RealmM PromiseSlots := do
  match ← kind ref with
  | .promise slots => return slots
  | _ => throwTypeError "receiver is not a Promise"

/-- The two functions that settle a promise, of which only the first call
counts. Both hold the promise as a captured binding. -/
def createResolvingFunctions (promise : ObjectRef) : RealmM (ObjectRef × ObjectRef) := do
  let latch ← modifyGetThe Realm fun r =>
    (r.latches.size, { r with latches := r.latches.push false })
  let captures : List Binding := [{ name := "promise", value := .object promise }]
  let resolve ← newFunction "resolve" captures (.resolve latch)
  let reject ← newFunction "reject" captures (.reject latch)
  return (resolve, reject)

/-- A new promise with its resolving functions. -/
def newCapability : RealmM (ObjectRef × ObjectRef × ObjectRef) := do
  let promise ← newPromise
  let (resolve, reject) ← createResolvingFunctions promise
  return (promise, resolve, reject)

/-- A reaction becomes a job. -/
def enqueueReaction (reaction : Reaction) (settlement : Settlement) : RealmM Unit :=
  enqueue { kind := .promise, work := .react reaction settlement }

/-- Settles a promise that is pending; its reactions become jobs. -/
def settlePromise (promise : ObjectRef) (settlement : Settlement) : RealmM Unit := do
  let slots ← promiseSlots promise
  if slots.state != .pending then return
  setKind promise (.promise
    { slots with
      state := settlement.state, result := settlement.value, onFulfilled := {}, onRejected := {} })
  match settlement with
  | .fulfilled _ => slots.onFulfilled.toList.forM (enqueueReaction · settlement)
  | .rejected _ =>
    if !slots.handled then
      modifyThe Realm fun r => { r with unhandled := r.unhandled.push promise }
    slots.onRejected.toList.forM (enqueueReaction · settlement)

/-- Fulfils a promise. -/
def fulfillPromise (promise : ObjectRef) (value : Value) : RealmM Unit :=
  settlePromise promise (.fulfilled value)

/-- Rejects a promise. -/
def rejectPromise (promise : ObjectRef) (reason : Value) : RealmM Unit :=
  settlePromise promise (.rejected reason)

/-- A promise is no longer one whose rejection nothing handles. -/
def forgetUnhandled (promise : ObjectRef) : RealmM Unit :=
  modifyThe Realm fun r => { r with unhandled := r.unhandled.filter (· != promise) }

/-- Attaches a reaction to each outcome of a promise. -/
def addReactions (promise : ObjectRef) (onFulfilled onRejected : Reaction) : RealmM Unit := do
  let slots ← promiseSlots promise
  let slots := { slots with handled := true }
  match slots.state with
  | .pending =>
    setKind promise (.promise
      { slots with
        onFulfilled := slots.onFulfilled.push onFulfilled
        onRejected := slots.onRejected.push onRejected })
  | .fulfilled =>
    setKind promise (.promise slots)
    enqueueReaction onFulfilled (.fulfilled slots.result)
  | .rejected =>
    setKind promise (.promise slots)
    forgetUnhandled promise
    enqueueReaction onRejected (.rejected slots.result)

/-- Resolves a promise with an object that is neither a promise nor itself. An
object with a callable `then` is adopted by a job that calls it. -/
def resolveWithObject (promise object : ObjectRef) : RealmM Unit := do
  let method ← try Except.ok <$> get (.object object) (.string "then")
    catch
      | .thrown reason => pure (.error reason)
      | cause => throw cause
  match method with
  | .error reason => rejectPromise promise reason
  | .ok method =>
    if (← getThe Realm).heap.isCallable method then
      enqueue { kind := .promise, work := .adopt promise (.object object) method }
    else fulfillPromise promise (.object object)

/-- Resolves a promise. It adopts the state of another promise, and cannot be
resolved with itself. -/
def resolvePromise (promise : ObjectRef) (resolution : Value) : RealmM Unit := do
  if (← promiseSlots promise).state != .pending then return
  match resolution with
  | .object object =>
    if object = promise then
      let reason ← newError Intrinsic.typeError.ref "chaining cycle detected for promise"
      rejectPromise promise (.object reason)
    else if ((← getThe Realm).promise? resolution).isSome then
      let reaction : Reaction := { handler? := none, derived? := some promise }
      addReactions object reaction reaction
    else resolveWithObject promise object
  | _ => fulfillPromise promise resolution

/-- A promise for a value: the value itself if it is a promise. -/
def promiseResolve (value : Value) : RealmM ObjectRef := do
  match (← getThe Realm).promise? value with
  | some promise => return promise
  | none =>
    let promise ← newPromise
    resolvePromise promise value
    return promise

/-- Attaches handlers to a promise, and answers the derived promise that they
settle. Handlers that cannot be called pass the outcome on. -/
def promiseThen (promise : ObjectRef) (onFulfilled onRejected : Value) : RealmM ObjectRef := do
  let _ ← promiseSlots promise
  let derived ← newPromise
  let h := (← getThe Realm).heap
  addReactions promise
    { handler? := h.callable? onFulfilled, derived? := some derived }
    { handler? := h.callable? onRejected, derived? := some derived }
  return derived

/-- Marks a promise as handled, so that its rejection is not reported. -/
def markHandled (promise : ObjectRef) : RealmM Unit := do
  let slots ← promiseSlots promise
  setKind promise (.promise { slots with handled := true })
  forgetUnhandled promise

/-- What calling a resolving function does. The first call of either function
of a pair sets their latch; later calls change nothing. -/
def callResolving (latch : Nat) (settle : ObjectRef → Value → RealmM Unit)
    (captured argument : Value) : RealmM Unit := do
  let r ← getThe Realm
  if r.latches.getD latch true then return
  modifyThe Realm fun r => { r with latches := r.latches.setIfInBounds latch true }
  match captured with
  | .object promise => settle promise argument
  | _ => pure ()

/-- A promise that the host settles with an outcome that takes some polls. -/
def promiseFromHost (polls : Nat) (outcome : HostOutcome) : RealmM ObjectRef := do
  let promise ← newPromise
  modifyThe Realm fun r => { r with hostWork := r.hostWork.push { promise, polls, outcome } }
  return promise

/-- Takes the host work that ends next. -/
def takeHostWork (order : HostOrder) : RealmM (Option HostWork) :=
  modifyGetThe Realm fun r =>
    match order.next r.hostWork with
    | some (work, hostWork) => (some work, { r with hostWork })
    | none => (none, r)

/-- The outcome of host work settles its promise. A failure of the host
rejects it with a `TypeError`; an abrupt end that is no throw ends the pump. -/
def settleFromHost (promise : ObjectRef) : HostOutcome → RealmM Unit
  | .completed value => resolvePromise promise value.toValue
  | .failed (.abrupt (.thrown reason)) => rejectPromise promise reason
  | .failed (.abrupt cause) => throw cause
  | .failed failure => do
    let reason ← newError Intrinsic.typeError.ref failure.text
    rejectPromise promise (.object reason)

/-- The promises whose rejection nothing handled, each with the text of its
reason; they are reported once. -/
def reportUnhandled : RealmM (List (ObjectRef × String)) :=
  modifyGetThe Realm fun r =>
    let warnings := r.unhandled.toList.filterMap fun promise =>
      match r.heap.kind promise with
      | .ok (.promise { state := .rejected, handled := false, result, .. }) =>
        some (promise, r.display result)
      | _ => none
    (warnings, { r with unhandled := {} })

end Retention.Realm
