import Retention.Guest.Effect

/-!
# Worlds

A world is a realm together with what the embedding keeps about its guest
code: variables, graphs kept under names, a journal of what happened, and the
dealings between the guest and its host.

* `Machine`: operations on a world, which may run out of steps.
* `Machine.lift`: an operation on the realm.
-/

namespace Retention

/-- Something that happened in a world. -/
inductive Event where
  /-- Guest code made a note of a value. -/
  | noted (v : Value)
  /-- An analyzer made a note of the options of its search. -/
  | searchOptions (options : Search.Options)
  /-- Guest code reported values, which were rendered as these texts. -/
  | reported (texts : List String)
  /-- A job was started, by its number in the order of enqueueing. -/
  | jobStarted (number : Nat)
  /-- The body of a module was started, with the namespaces it imports. -/
  | bodyStarted (specifier : String) (imports : List (String × Value))
deriving DecidableEq, Repr

/-- What the guest and its host had to do with each other, in view of the work
that the host does for promises. -/
inductive Dealing where
  /-- The host owes a promise an outcome. -/
  | promised (promise : ObjectRef) (outcome : HostOutcome)
  /-- An outcome arrived at a promise, which was pending or not. -/
  | arrived (promise : ObjectRef) (outcome : HostOutcome) (pending : Bool)
  /-- Deferred work ended with a failure. -/
  | interrupted (cause : Abrupt)
  /-- Nothing was left to be done. -/
  | quiesced
  /-- Guest code took the reports that waited for delivery. -/
  | drained (reports : List (List String))
deriving DecidableEq, Repr

/-- The dealings that an effect is part of, in view of its answer. -/
def Effect.dealings : Effect → Answer → List Dealing
  | promiseFromHost _ outcome, .value (.object promise) => [.promised promise outcome]
  | takeReports, .reports reports => [.drained reports]
  | _, _ => []

/-- A realm and what the embedding keeps about it. -/
structure World where
  realm : Realm := {}
  vars : Variables := []
  graphs : List (String × Graph) := []
  /-- What happened so far, in order. -/
  journal : Array Event := #[]
  dealings : Sequence Dealing := {}
deriving DecidableEq, Repr, Inhabited

/-- An operation on a world. It may end abruptly, or run out of steps, which no
guest can observe: it then has no outcome at all. -/
abbrev Machine (α : Type) := ExceptT Abrupt (StateT World Option) α

namespace Machine

variable {α : Type}

/-- An operation on the realm. -/
def lift (m : RealmM α) : Machine α := fun w =>
  let (outcome, realm) := m.run.run w.realm
  some (outcome, { w with realm })

/-- No steps are left. -/
def exhausted : Machine α := fun _ => none

/-- An operation whose failures are causes of some other kind. -/
def attempt {ε : Type} (m : StateT World Option (Except ε α)) (fail : ε → Machine α) :
    Machine α := do
  match ← (liftM m : Machine (Except ε α)) with
  | .ok a => return a
  | .error e => fail e

/-- Writes into the journal. -/
def record (events : List Event) : Machine Unit :=
  modifyThe World fun w => { w with journal := w.journal ++ events.toArray }

/-- Adds dealings to those so far. -/
def deal (dealings : List Dealing) : Machine Unit :=
  modifyThe World fun w => { w with dealings := dealings.foldl Sequence.push w.dealings }

/-- Deferred work, whose failure is a dealing. -/
def interruptible (work : Machine Unit) : Machine Unit := do
  try work
  catch cause =>
    deal [.interrupted cause]
    throw cause

/-- The value thrown by an operation, or its answer; other abrupt ends stay. -/
def caught (m : Machine α) : Machine (Except Value α) :=
  try Except.ok <$> m
  catch
    | .thrown reason => pure (.error reason)
    | cause => throw cause

end Machine
end Retention
