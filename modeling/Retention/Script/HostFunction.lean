import Retention.Guest.Program
import Retention.Host.Argument

/-!
# The host functions of scripts

A script can make use of host functions that convert their arguments, fail in
each of the possible ways, or call back into guest code.
-/

namespace Retention.Script

/-- A host function that scripts can name. -/
structure NamedHostFunction where
  name : String
  length : Nat
  code : (this : Value) → (args : List Value) → Program HostFailure Value

/-- A host function that answers its first argument, converted. -/
def converting {α : Type} (name : String) (convert : List Value → Nat → String → Except HostFailure α)
    (toValue : α → Value) : NamedHostFunction :=
  { name, length := 1, code := fun _ args => .done (toValue <$> convert args 0 "value") }

/-- A host function that ends abruptly. -/
def ending (name : String) (cause : Abrupt) : NamedHostFunction :=
  { name, length := 0, code := fun _ _ => throw (.abrupt cause) }

/-- A host function that answers the elements of an array in a new array. -/
def argArray : NamedHostFunction where
  name := "argArray"
  length := 1
  code _ args := do
    let elements ← (Program.effect (.elementsOf (Argument.get args 0))).toHost
    match Argument.array (fun _ => elements.several?) args 0 "value" with
    | .ok elements => return (← (Program.effect (.newArray elements)).toHost).toValue
    | .error failure => throw failure

/-- A host function that fails with the text of its argument. -/
def failMessage : NamedHostFunction where
  name := "failMessage"
  length := 1
  code _ args := do
    match ← (Program.effect (.inspect (Argument.get args 0))).toHost with
    | .inspection i => throw (.message i.display)
    | _ => return .undefined

/-- A host function that calls its first argument with the others. -/
def callBack : NamedHostFunction where
  name := "callBack"
  length := 1
  code this args := do
    return (← (Program.ask (.call (Argument.get args 0) this args.tail)).toHost).toValue

/-- The host functions that scripts can name. -/
def hostFunctions : List NamedHostFunction :=
  [converting "argBool" Argument.bool .bool,
    converting "argNumber" Argument.number .number,
    converting "argString" Argument.string .string,
    converting "argObject" Argument.object .object,
    argArray,
    { name := "argValue", length := 1, code := fun _ args => pure (Argument.get args 0) },
    { name := "secondNumber", length := 2
      code := fun _ args => .done (.number <$> Argument.number args 1 "value") },
    failMessage,
    { name := "throwArg", length := 1
      code := fun _ args => throw (.abrupt (.thrown (Argument.get args 0))) },
    ending "terminate" .outOfFuel,
    ending "violate" (.broken (.unknownNode ⟨.symbol, 7⟩)),
    callBack,
    { name := "returnThis", length := 0, code := fun this _ => pure this }]

/-- The host function of a name, as a realm knows it. -/
def hostFunction? (name : String) : Option HostFunction :=
  (hostFunctions.zipIdx.find? (·.1.name == name)).map fun (f, i) =>
    { name := f.name, length := f.length, code := .supplied i }

end Retention.Script
