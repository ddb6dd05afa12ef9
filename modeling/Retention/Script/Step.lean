import Retention.Script.Operand

/-!
# Steps

A script is a list of steps. A step has an action, may keep what it answers in
variables, and may catch what it throws.

* `Step.program`: what one step does.
* `body`: the steps of a function, a job or a module, up to a `return`.
-/

namespace Retention.Script

/-- What a step does. -/
inductive Action where
  /-- Ends the body with a value. -/
  | leave (value : Operand)
  /-- Answers a value. -/
  | give (value : Operand)
  | throw (value : Operand)
  | fail (cause : Abrupt)
  | note (value : Operand)
  /-- Performs an operation, whose operands are read when its turn comes. -/
  | ask (op : Surroundings → Except Abrupt Operation)
  /-- Calls a property of the global object. -/
  | callGlobal (name : String) (this : Operand) (args : List Operand)
  /-- Calls `searchReferences` with an array of the held values. -/
  | searchReferences (name target : Operand) (held : List Operand) (strong? : Option Operand)

/-- Where the answer of a step is kept. -/
inductive Target where
  /-- The variable that keeps the value answered. -/
  | one (name : String)
  /-- The variables that keep the several values answered, in order. -/
  | each (names : List String)
deriving DecidableEq, Repr

/-- Keeps an answer. One that is no value, or not several, is not kept. -/
def Target.keep? : Target → Answer → Option Operation
  | one name, answer => answer.value?.map fun v => .assign [name] [v]
  | each names, answer => answer.several?.map (.assign names)

/-- A step of a script. -/
structure Step where
  action : Action
  /-- Where the answer is kept. -/
  target? : Option Target := none
  /-- The variable that keeps a thrown value. -/
  catches? : Option String := none

namespace Action

/-- What an action does. -/
def program (s : Surroundings) : Action → Program Abrupt Answer
  | leave value | give value => pure (.value (value.eval s))
  | throw value => throwThe Abrupt (.thrown (value.eval s))
  | fail cause => throwThe Abrupt cause
  | note value => .ask (.note (value.eval s))
  | ask op =>
    match op s with
    | .ok op => .ask op
    | .error cause => throwThe Abrupt cause
  | callGlobal name this args => do
    let callee ← .effect (.getGlobal name)
    .ask (.call callee.toValue (this.eval s) (args.map (·.eval s)))
  | searchReferences name target held strong? => do
    let callee ← .effect (.getGlobal "searchReferences")
    let array ← .effect (.newArray (held.map (·.eval s)))
    .ask (.call callee.toValue (.object globalRef)
      ([name.eval s, target.eval s, array.toValue] ++ strong?.toList.map (·.eval s)))

end Action

namespace Step

/-- What a step does: its action, in view of the variables of that moment, and
then the variables that it sets. A caught value is kept, and thrown on. -/
def program (activation : Activation) (step : Step) : Program Abrupt Answer := do
  let vars ← Program.vars
  try
    let answer ← step.action.program { vars, activation }
    if let some keep := step.target?.bind (·.keep? answer) then
      let _ ← Program.ask keep
    return answer
  catch cause =>
    match cause, step.catches? with
    | .thrown value, some name =>
      let _ ← Program.ask (.assign [name] [value])
    | _, _ => pure ()
    throw cause

/-- Whether a body goes on after a step has ended abruptly. -/
def recoversFrom (step : Step) : Abrupt → Bool
  | .thrown _ => step.catches?.isSome
  | _ => false

end Step

/-- The steps of a function, a job or a module: they run up to a `return`, or
until one ends abruptly and does not catch it. -/
def body (activation : Activation) : List Step → Program Abrupt Value
  | [] => pure .undefined
  | step :: rest => do
    match step.action with
    | .leave _ => return (← step.program activation).toValue
    | _ =>
      let recovered ← try
          let _ ← step.program activation
          pure true
        catch cause =>
          if step.recoversFrom cause then pure true else throw cause
      if recovered then body activation rest else pure .undefined

end Retention.Script
