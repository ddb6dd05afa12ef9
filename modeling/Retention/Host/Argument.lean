import Retention.Failure

/-!
# Arguments of host functions

A host function asks for its arguments by place and type. A missing argument
is `undefined`; one of another type is a failure that names what was expected.
-/

namespace Retention.Argument

/-- An argument; `undefined` if absent. -/
def get (args : List Value) (i : Nat) : Value := args.getD i .undefined

/-- An argument of a type, which `convert?` recognises. -/
def typed {α : Type} (expected : String) (convert? : Value → Option α) (args : List Value)
    (i : Nat) (name : String) : Except HostFailure α :=
  match convert? (get args i) with
  | some a => .ok a
  | none => .error (.argumentType name expected (get args i).typeName)

def bool? : Value → Option Bool
  | .bool b => some b
  | _ => none

def number? : Value → Option Number
  | .number n => some n
  | _ => none

def string? : Value → Option String
  | .string s => some s
  | _ => none

def bool : List Value → Nat → String → Except HostFailure Bool := typed "boolean" bool?

def number : List Value → Nat → String → Except HostFailure Number := typed "number" number?

def string : List Value → Nat → String → Except HostFailure String := typed "string" string?

def object : List Value → Nat → String → Except HostFailure ObjectRef :=
  typed "object" Value.object?

/-- An array argument, as its elements; `elements?` tells what the elements of
an array are. -/
def array (elements? : Value → Option (List Value)) :
    List Value → Nat → String → Except HostFailure (List Value) :=
  typed "array" elements?

/-- An argument that must be an object or a symbol. -/
def withIdentity (args : List Value) (i : Nat) (name : String) : Except HostFailure Value :=
  typed "object or symbol" (fun v => if v.hasIdentity then some v else none) args i name

/-- A boolean argument that may be left out. -/
def optionalBool (default : Bool) (args : List Value) (i : Nat) (name : String) :
    Except HostFailure Bool :=
  if get args i = .undefined then .ok default else bool args i name

end Retention.Argument
