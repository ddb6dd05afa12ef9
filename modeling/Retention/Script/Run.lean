import Retention.Guest.Machine
import Retention.Script.HostFunction
import Retention.Script.Step

/-!
# Running scripts

A script supplies the code of its functions, jobs, modules and analyzers as
numbered lists of steps, and is itself a list of steps run in a fresh realm.
A step that ends abruptly does not end the script.

* `Code.embedding`: the code of a script.
* `run`: a whole script, with an entry for each step.
-/

namespace Retention.Script

/-- What an analyzer of a script asks of the search. -/
abbrev AnalyzerAction := Surroundings → Heap → ObjectRef → List Request

/-- The code of a script, by number. -/
structure Code where
  bodies : Array (List Step) := #[]
  analyzers : Array (List AnalyzerAction) := #[]

/-- The code of a script as an embedding. -/
def Code.embedding (c : Code) : Embedding where
  code n activation := body activation (c.bodies.getD n [])
  host n this args :=
    match hostFunctions[n]? with
    | some f => f.code this args
    | none => throw (.abrupt .invalidHandle)
  analyzer n vars h ref :=
    (c.analyzers.getD n []).flatMap fun action =>
      action { vars, hasRealm := false, expanding := .object ref } h ref

/-- What is told of a step that was run. -/
structure Entry where
  outcome : Except Abrupt Answer
  /-- The text of an abrupt end. -/
  message : String
  /-- What happened during the step. -/
  events : List Event

/-- The text of an abrupt end; a thrown value is displayed. -/
def message (r : Realm) : Except Abrupt Answer → String
  | .ok _ => ""
  | .error (.thrown value) => r.display value
  | .error cause => cause.message

/-- Runs one step of a script. -/
def runStep (e : Embedding) (steps : Nat) (w : World) (step : Step) : Option (Entry × World) := do
  let start := w.journal.size
  let (outcome, after) ← ((step.program {}).run (Machine.perform e steps)).run w
  return ({ outcome
            message := message after.realm outcome
            events := (after.journal.extract start).toList }, after)

/-- Runs the steps of a script one after the other. -/
def runSteps (e : Embedding) (steps : Nat) : List Step → World → Option (List Entry)
  | [], _ => some []
  | step :: rest, w => do
    let (entry, w) ← runStep e steps w step
    return entry :: (← runSteps e steps rest w)

/-- Runs a script in a fresh realm. -/
def run (c : Code) (steps : Nat) (options : Options) (script : List Step) : Option (List Entry) :=
  runSteps c.embedding steps script { realm := { options } }

end Retention.Script
