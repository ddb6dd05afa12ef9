import Retention.Guest.Machine
import Retention.Module.Loader

/-!
# Runs

A run evaluates its modules in a fresh realm, dependencies first, then lets
all deferred work come to an end and publishes the searches. Whatever the
outcome, each value that the guest reported is delivered once, in order.

* `Run.evaluate`: evaluates a module after its dependencies.
* `Run.run`: a whole run.
-/

namespace Retention

/-- How far the evaluation of a module has come. -/
inductive ModuleState where
  | unevaluated
  | evaluating
  | evaluated (exports : Value)
deriving DecidableEq, Repr, Inhabited

/-- The state of a run: its world, its modules, and what was delivered to the
embedding. -/
structure Run where
  world : World
  states : Array ModuleState := #[]
  delivered : Sequence (List String) := {}
  /-- The unhandled rejections that the run has warned of. -/
  warnings : List (ObjectRef × String) := []
deriving DecidableEq, Repr, Inhabited

/-- A step of a run. It may fail, or run out of steps. -/
abbrev RunM (α : Type) := ExceptT RunFailure (StateT Run Option) α

namespace Run

variable {α : Type}

/-- What an abrupt end of guest code is to the run. -/
def failure (r : Realm) (specifier : String) : Abrupt → RunFailure
  | .thrown value => .guestEvaluation specifier (r.display value)
  | .invalidHandle => .invalidHandle
  | .outOfFuel => .outOfFuel
  | .broken violation => .broken violation

/-- An operation on the world, whose outcome is looked at. -/
def attempt (m : Machine α) : RunM (Except Abrupt α) := fun r => do
  let (outcome, world) ← m.run.run r.world
  return (.ok outcome, { r with world })

/-- The answer of an operation, whose abrupt end would be the run's. -/
def require (specifier : String) (outcome : Except Abrupt α) : RunM α := do
  match outcome with
  | .ok a => return a
  | .error cause => throw (failure (← getThe Run).world.realm specifier cause)

/-- Delivers what the guest has reported. -/
def deliver : RunM Unit := do
  if let .ok reports ← attempt (Machine.lift Realm.takeReports) then
    modifyThe Run fun r => { r with delivered := reports.foldl Sequence.push r.delivered }

/-- An operation on the world, after which reports are delivered. -/
def perform (specifier : String) (m : Machine α) : RunM α := do
  let outcome ← attempt m
  deliver
  require specifier outcome

/-- The namespace of a module whose body answered a value. A promise is waited
for, until nothing is left that could settle it. -/
def settle (e : Embedding) (steps : Nat) (specifier : String) (result : Value) : RunM Value := do
  match (← getThe Run).world.realm.promise? result with
  | none => return result
  | some promise =>
    let marked ← attempt (Machine.lift (Realm.markHandled promise))
    require specifier marked
    perform specifier (Machine.pump e steps)
    let slots ← require specifier (← attempt (Machine.lift (Realm.promiseSlots promise)))
    match slots.state with
    | .fulfilled => return slots.result
    | .rejected =>
      throw (.guestEvaluation specifier ((← getThe Run).world.realm.display slots.result))
    | .pending => throw (.unsettledEntry specifier)

/-- How far a module has come. -/
def state (i : Nat) : RunM ModuleState := return (← getThe Run).states.getD i .unevaluated

def setState (i : Nat) (s : ModuleState) : RunM Unit :=
  modifyThe Run fun r => { r with states := r.states.setIfInBounds i s }

/-- Evaluates a module after its dependencies, and answers its namespace. A
module that is still being evaluated is seen as `undefined`. -/
def evaluate (e : Embedding) (steps : Nat) (modules : Array LoadedModule) : Nat → Nat → RunM Value
  | 0, _ => fun _ => none
  | depth + 1, i => do
    match ← state i, modules[i]? with
    | .evaluated exports, _ => return exports
    | .evaluating, _ | _, none => return .undefined
    | .unevaluated, some m =>
      setState i .evaluating
      let imports ← m.dependencies.mapM fun (request, dependency) => do
        return (request, ← evaluate e steps modules depth dependency)
      let body : Machine Value := do
        Machine.record [.bodyStarted m.specifier imports]
        ExceptT.mk ((e.code m.code { imports }).run (Machine.perform e steps))
      let result ← perform m.specifier body
      let exports ← settle e steps m.specifier result
      setState i (.evaluated exports)
      return exports

/-- Loads the modules of a run, and answers the place of its entry. -/
def load (inputs : Inputs) (steps : Nat) : RunM (Nat × Array LoadedModule) := fun r => do
  let (outcome, loader) ← ((Loader.load inputs steps inputs.entry).run).run {}
  match outcome with
  | .ok i =>
    let states := Array.replicate loader.modules.size .unevaluated
    return (.ok (i, loader.modules), { r with states })
  | .error failure => return (.error failure, r)

/-- A whole run, from the loading of its modules to its results. Nested
evaluations are of different modules, which bounds their depth. -/
def execute (e : Embedding) (steps : Nat) (inputs : Inputs) : RunM SearchResults := do
  require inputs.entry (← attempt (Machine.lift Realm.installHostFunctions))
  let (entry, modules) ← load inputs steps
  let _ ← evaluate e steps modules (modules.size + 1) entry
  perform inputs.entry (Machine.pump e steps)
  let warnings ← require inputs.entry (← attempt (Machine.lift Realm.reportUnhandled))
  modifyThe Run fun r => { r with warnings := r.warnings ++ warnings }
  require inputs.entry (← attempt (Machine.lift Realm.finalizeSearches))

/-- The outcome and the final state of a run in a fresh realm, unless it runs
out of steps. -/
def run (e : Embedding) (steps : Nat) (inputs : Inputs) (options : Options) :
    Option (Except RunFailure SearchResults × Run) :=
  ((execute e steps inputs).run).run { world := { realm := { options } } }

end Run
end Retention
