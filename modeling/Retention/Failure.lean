import Retention.Graph.NodeId
import Retention.Text.Quoted
import Retention.Value

/-!
# Failures

Failures are causes; each layer's causes have one function for their text.

* `Violation`: a broken invariant of an analyzer, a search or the embedding.
* `Abrupt`: why a guest operation did not complete. Guest code can catch a
  `thrown` value and nothing else.
* `HostFailure`: why a function supplied by the host did not complete.
* `RunFailure`: why a whole run has no results.
-/

namespace Retention

/-- A broken invariant. -/
inductive Violation where
  | unknownNode (id : NodeId)
  | notAGraphValue (type : String)
  | notQuiescent (jobs hostWork : Nat)
  | wrongObjectKind (expected : String)
deriving DecidableEq, Repr

def Violation.message : Violation → String
  | unknownNode id => s!"unknown reference graph node {id.text}"
  | notAGraphValue type => s!"a {type} value cannot be a reference graph node"
  | notQuiescent jobs hostWork =>
    s!"reference graph finalized while {jobs} job(s) and {hostWork} host operation(s) are pending"
  | wrongObjectKind expected => s!"object is not a {expected}"

/-- Why a guest operation did not complete. -/
inductive Abrupt where
  | thrown (value : Value)
  | invalidHandle
  | outOfFuel
  | broken (violation : Violation)
deriving DecidableEq, Repr

/-- The text of an exhausted job budget. -/
def outOfFuelMessage : String := "execution terminated: out of fuel"

/-- The text of an abrupt completion that does not look at a thrown value. -/
def Abrupt.message : Abrupt → String
  | thrown _ => "uncaught exception"
  | invalidHandle => "invalid handle"
  | outOfFuel => outOfFuelMessage
  | broken violation => violation.message

/-- Why a host function did not complete. -/
inductive HostFailure where
  | argumentType (argument expected got : String)
  | message (text : String)
  | abrupt (cause : Abrupt)
deriving DecidableEq, Repr

def HostFailure.text : HostFailure → String
  | argumentType argument expected got => s!"expected {expected} for {argument}, got {got}"
  | message text => text
  | abrupt cause => cause.message

/-- Why a run has no results. -/
inductive RunFailure where
  | moduleResolution (target importer : String) (cause : HostFailure)
  | moduleLoad (specifier : String) (cause : HostFailure)
  /-- A module threw, or its promise was rejected. -/
  | guestEvaluation (specifier : String) (message : String)
  /-- A module's promise was still pending when nothing was left to run. -/
  | unsettledEntry (specifier : String)
  | outOfFuel
  | broken (violation : Violation)
  | invalidHandle
deriving DecidableEq, Repr

def RunFailure.message : RunFailure → String
  | moduleResolution target importer cause =>
    s!"cannot resolve {Text.quoted target} imported from {Text.quoted importer}: {cause.text}"
  | moduleLoad specifier cause =>
    s!"cannot load module {Text.quoted specifier}: {cause.text}"
  | guestEvaluation specifier message =>
    s!"evaluation of {Text.quoted specifier} failed: {message}"
  | unsettledEntry specifier =>
    s!"top-level promise of {Text.quoted specifier} never settled"
  | outOfFuel => outOfFuelMessage
  | broken violation => violation.message
  | invalidHandle => "invalid heap handle"

end Retention
