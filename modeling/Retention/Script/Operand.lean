import Retention.Guest.Program

/-!
# Operands

A script writes its operands down instead of computing them: as literals,
variables, or parts of what the script runs with.

* `Operand.eval`: the value of an operand.
-/

namespace Retention.Script

/-- What operands are read from. -/
structure Surroundings where
  vars : Variables := []
  activation : Activation := {}
  /-- Whether there is a realm, whose global object and intrinsics can be named. -/
  hasRealm : Bool := true
  /-- The object that an analyzer reads. -/
  expanding : Value := .undefined
deriving DecidableEq, Repr, Inhabited

/-- A written value. -/
inductive Operand where
  | literal (v : Value)
  | var (name : String)
  | arg (i : Nat)
  | capture (i : Nat)
  | receiver
  | callee
  | imported (specifier : String)
  | expanding
  | global
  | intrinsic (i : Intrinsic)
deriving DecidableEq, Repr, Inhabited

namespace Operand

/-- The value of an operand. -/
def eval (s : Surroundings) : Operand → Value
  | literal v => v
  | var name => s.vars.get name
  | arg i => s.activation.arg i
  | capture i => s.activation.capture i
  | receiver => s.activation.this
  | callee => s.activation.callee
  | imported specifier => s.activation.imported specifier
  | expanding => s.expanding
  | global => if s.hasRealm then .object globalRef else .undefined
  | intrinsic i => if s.hasRealm then .object i.ref else .undefined

/-- The property key that an operand is used as. -/
def key (s : Surroundings) (o : Operand) : PropertyKey := .ofValue (o.eval s)

/-- The object that an operand must be; `field` names it in the complaint. -/
def object (s : Surroundings) (field : String) (o : Operand) : Except Abrupt ObjectRef :=
  match o.eval s with
  | .object ref => .ok ref
  | _ => .error (.thrown (.string s!"driver: {field} is not an object"))

/-- The object that an operand must be, where there is an operand. -/
def object? (s : Surroundings) (field : String) (o? : Option Operand) :
    Except Abrupt (Option ObjectRef) :=
  match o? with
  | none => .ok none
  | some o => some <$> o.object s field

end Operand
end Retention.Script
