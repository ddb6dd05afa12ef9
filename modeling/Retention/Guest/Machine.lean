import Retention.Guest.Program
import Retention.Host.Argument

/-!
# Running guest code

Calls, jobs and the operations of programs need each other, so they are
defined together, with a number of steps that bounds how deep they nest and
how often they repeat. An operation that has an outcome has the same outcome
with more steps.

* `Machine.call`: calls a value.
* `Machine.dispatch`: calls a host function; its failures become guest errors.
* `Machine.runJob`, `Machine.checkpoint`, `Machine.pump`: deferred work.
* `Machine.perform`: the operations of programs.
-/

namespace Retention.Machine

/-- The analyzers of the realm, in view of the variables. -/
def analyzerTable (e : Embedding) (w : World) : AnalyzerTable := fun kind =>
  (w.realm.analyzers.lookup kind).map fun
    | .builtin => slotRequests kind
    | .supplied code => e.analyzer code w.vars

/-- Searches the heap as it is. -/
def search (e : Embedding) (options : Search.Options) (target : Value) (held : List Value) :
    Machine Graph := do
  let w ← getThe World
  let (outcome, notes) := Search.run w.realm.heap options (analyzerTable e w) target held
  record (List.replicate notes (.searchOptions options))
  match outcome with
  | .ok graph => return graph
  | .error cause => throw cause

/-- The arguments of a search that guest code starts. -/
structure SearchCall where
  name : String
  target : Value
  held : List Value
  strongOnly : Bool
deriving DecidableEq, Repr

/-- Reads the arguments of a search. Names of searches must not repeat. -/
def readSearchCall (r : Realm) (args : List Value) : Except HostFailure SearchCall := do
  let name ← Argument.string args 0 "name"
  let target ← Argument.withIdentity args 1 "target"
  let held ← Argument.array (Realm.elements? r.heap) args 2 "heldValues"
  let strongOnly ← Argument.optionalBool true args 3 "strongReferencesOnly"
  if r.searches.any (·.name == name) then
    throw (.message s!"a search named {Text.quoted name} already ran")
  return { name, target, held, strongOnly }

/-- The host function that starts a search. The search is kept for publication,
and its verdict is answered. -/
def searchReferences (e : Embedding) (args : List Value) :
    StateT World Option (Except HostFailure Value) := do
  match readSearchCall (← getThe World).realm args with
  | .error failure => return .error failure
  | .ok c =>
    let options : Search.Options :=
      { strongOnly := c.strongOnly
        recordPrimitives := (← getThe World).realm.options.recordPrimitives }
    match ← (search e options c.target c.held).run with
    | .error cause => return .error (.abrupt cause)
    | .ok graph =>
      modifyThe World fun w => { w with
        realm := { w.realm with searches := w.realm.searches.push { name := c.name, graph } } }
      return .ok (.bool graph.succeeded)

/-- The host function that reports values: their texts are kept for delivery. -/
def report (args : List Value) : StateT World Option (Except HostFailure Value) := do
  modifyThe World fun w =>
    let texts := args.map w.realm.display
    { w with
      realm := { w.realm with reports := w.realm.reports.push texts }
      journal := w.journal.push (.reported texts) }
  return .ok .undefined

/-- What a failure of a host function is to guest code: a `TypeError` that
names the function, unless the failure already is an abrupt end. -/
def hostFailed {α : Type} (name : String) : HostFailure → Machine α
  | .abrupt cause => throw cause
  | failure => lift (Realm.throwTypeError s!"{name}: {failure.text}")

/-- Runs jobs until none is left. -/
def runJobs (runJob : Job → Machine Unit) : Nat → Machine Unit
  | 0 => exhausted
  | steps + 1 => do
    match ← lift Realm.takeJob with
    | none => return
    | some job =>
      lift Realm.chargeJob
      record [.jobStarted job.number]
      runJob job.toJob
      runJobs runJob steps

/-- Runs jobs and takes in host work until nothing is left. -/
def pumpWith (order : HostOrder) (checkpoint : Machine Unit) : Nat → Machine Unit
  | 0 => exhausted
  | steps + 1 => do
    checkpoint
    match ← lift (Realm.takeHostWork order) with
    | none => deal [.quiesced]
    | some work =>
      lift (Realm.enqueue { kind := .hostSettlement, work := .settle work.promise work.outcome })
      pumpWith order checkpoint steps

/-- The outcome of host work arrives at its promise. -/
def arrive (promise : ObjectRef) (outcome : HostOutcome) : Machine Unit := do
  let pending := (← getThe World).realm.isPending promise
  lift (Realm.settleFromHost promise outcome)
  deal [.arrived promise outcome pending]

/-- What a reaction does once its handler was called, or passed over. -/
def settleDerived (derived? : Option ObjectRef) (outcome : Except Value Value) : Machine Unit :=
  match derived?, outcome with
  | some derived, .ok value => lift (Realm.resolvePromise derived value)
  | some derived, .error reason => lift (Realm.rejectPromise derived reason)
  | none, _ => pure ()

mutual

/-- Calls a value. -/
def call (e : Embedding) : Nat → (callee this : Value) → (args : List Value) → Machine Value
  | 0, _, _, _ => exhausted
  | steps + 1, callee, this, args =>
    match callee with
    | .object ref => do
      match ← lift (Realm.kind ref) with
      | .function _ behaviour bindings =>
        let captures := bindings.map Binding.value
        match behaviour with
        | .host id => dispatch e steps id this args
        | .closure code =>
          ExceptT.mk ((e.code code { callee, this, args, captures }).run (perform e steps))
        | .resolve latch =>
          lift (Realm.callResolving latch Realm.resolvePromise
            (captures.getD 0 .undefined) (args.getD 0 .undefined))
          return .undefined
        | .reject latch =>
          lift (Realm.callResolving latch Realm.rejectPromise
            (captures.getD 0 .undefined) (args.getD 0 .undefined))
          return .undefined
      | .boundFunction target boundThis boundArgs =>
        call e steps (.object target) boundThis (boundArgs ++ args)
      | .proxyRevoker _ =>
        lift (Realm.revoke ref)
        return .undefined
      | _ => lift (Realm.throwTypeError "object is not a function")
    | v => lift (Realm.throwTypeError s!"{v.typeName} is not a function")

/-- Calls a host function by its place in the realm's table. -/
def dispatch (e : Embedding) : Nat → (id : Nat) → (this : Value) → (args : List Value) →
    Machine Value
  | 0, _, _, _ => exhausted
  | steps + 1, id, this, args => do
    match (← getThe World).realm.hostFunctions[id]? with
    | none => throw .invalidHandle
    | some f =>
      attempt (match f.code with
        | .searchReferences => searchReferences e args
        | .report => report args
        | .supplied code => (e.host code this args).run (perform e steps))
        (hostFailed f.name)

/-- Runs a job. -/
def runJob (e : Embedding) : Nat → Job → Machine Unit
  | 0, _ => exhausted
  | steps + 1, job =>
    match job.work with
    | .react { handler?, derived? } settlement => do
      let outcome ← match handler?, settlement with
        | some handler, _ => caught (call e steps (.object handler) .undefined [settlement.value])
        | none, .fulfilled value => pure (.ok value)
        | none, .rejected reason => pure (.error reason)
      settleDerived derived? outcome
    | .adopt promise thenable method => do
      let (resolve, reject) ← lift (Realm.createResolvingFunctions promise)
      match ← caught (call e steps method thenable [.object resolve, .object reject]) with
      | .ok _ => return
      | .error reason => discard (call e steps (.object reject) .undefined [reason])
    | .settle promise outcome => arrive promise outcome
    | .code code => discard (ExceptT.mk ((e.code code {}).run (perform e steps)))

/-- Runs jobs until none is left, including those that jobs bring about. -/
def checkpoint (e : Embedding) : Nat → Machine Unit
  | 0 => exhausted
  | steps + 1 => interruptible (runJobs (runJob e steps) steps)

/-- Runs jobs and takes in host work until nothing is left. -/
def pump (e : Embedding) : Nat → Machine Unit
  | 0 => exhausted
  | steps + 1 => pumpWith e.order (checkpoint e steps) steps

/-- What an operation of a program does and answers. -/
def perform (e : Embedding) : Nat → Operation → Machine Answer
  | 0, _ => exhausted
  | steps + 1, op =>
    match op with
    | .effect effect => do
      let answer ← lift effect.run
      deal (effect.dealings answer)
      return answer
    | .call callee this args => .value <$> call e steps callee this args
    | .dispatch id this args => .value <$> dispatch e steps id this args
    | .checkpoint => do checkpoint e steps; return .unit
    | .pump => do pump e steps; return .unit
    | .search options target held name? => do
      let graph ← search e options target held
      if let some name := name? then
        modifyThe World fun w => { w with graphs := (name, graph) :: w.graphs }
      return .graph graph
    | .graph name => return .graph? ((← getThe World).graphs.lookup name)
    | .note v => do record [.noted v]; return .value v
    | .vars => return .vars (← getThe World).vars
    | .assign names values => do
      modifyThe World fun w => { w with
        vars := (names.zip values).foldl (fun vars (x, v) => vars.set x v) w.vars }
      return .unit

end

end Retention.Machine
