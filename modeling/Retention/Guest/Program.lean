import Retention.Guest.World

/-!
# Programs

Guest code is a program: it performs operations one after the other, each in
view of what the operations before it answered, until it is done. Programs are
finite trees; repetition comes from calls.

* `Program.run`: what a program does when its operations are handled.
-/

namespace Retention

/-- An operation that guest code can ask for. -/
inductive Operation where
  /-- An operation that the realm performs by itself. -/
  | effect (e : Effect)
  | call (callee this : Value) (args : List Value)
  /-- Calls a host function by its place in the realm's table. -/
  | dispatch (id : Nat) (this : Value) (args : List Value)
  /-- Runs jobs until none is left. -/
  | checkpoint
  /-- Runs jobs and takes in host work until nothing is left. -/
  | pump
  /-- Searches the heap as it is, and keeps the graph under a name. -/
  | search (options : Search.Options) (target : Value) (held : List Value) (name? : Option String)
  /-- A graph kept under a name. -/
  | graph (name : String)
  /-- Makes a note of a value. -/
  | note (v : Value)
  /-- The variables of the embedding. -/
  | vars
  /-- Sets variables to values, as many as there are of both. -/
  | assign (names : List String) (values : List Value)
deriving DecidableEq, Repr

/-- A program that ends with a result or fails. -/
inductive Program (ε α : Type) where
  | done (outcome : Except ε α)
  | perform (op : Operation) (next : Except Abrupt Answer → Program ε α)

namespace Program

variable {ε α β : Type}

def bind : Program ε α → (α → Program ε β) → Program ε β
  | done (.ok a), f => f a
  | done (.error e), _ => done (.error e)
  | perform op next, f => perform op fun outcome => (next outcome).bind f

instance : Monad (Program ε) where
  pure a := done (.ok a)
  bind := bind

def tryCatch : Program ε α → (ε → Program ε α) → Program ε α
  | done (.ok a), _ => done (.ok a)
  | done (.error e), f => f e
  | perform op next, f => perform op fun outcome => (next outcome).tryCatch f

instance : MonadExceptOf ε (Program ε) where
  throw e := done (.error e)
  tryCatch := tryCatch

/-- Performs one operation. -/
def ask (op : Operation) : Program Abrupt Answer := perform op done

/-- Performs one effect. -/
def effect (e : Effect) : Program Abrupt Answer := ask (.effect e)

/-- The variables of the embedding. -/
def vars : Program Abrupt Variables := Answer.toVariables <$> ask .vars

/-- A program whose failures are abrupt ends, as the code of a host function. -/
def toHost : Program Abrupt α → Program HostFailure α
  | done (.ok a) => done (.ok a)
  | done (.error cause) => done (.error (.abrupt cause))
  | perform op next => perform op fun outcome => (next outcome).toHost

/-- Runs a program, with a handler for its operations. -/
def run (handle : Operation → Machine Answer) : Program ε α → StateT World Option (Except ε α)
  | done outcome => pure outcome
  | perform op next => do
    let outcome ← (handle op).run
    (next outcome).run handle

theorem run_bind (handle : Operation → Machine Answer) (p : Program ε α) (f : α → Program ε β) :
    (p.bind f).run handle = (do
      match ← p.run handle with
      | .ok a => (f a).run handle
      | .error e => pure (.error e)) := by
  induction p with
  | done outcome => cases outcome <;> simp [bind, run]
  | perform op next ih => simp [bind, run, ih]

end Program

/-- What a piece of guest code runs with. -/
structure Activation where
  callee : Value := .undefined
  this : Value := .undefined
  args : List Value := []
  /-- The values of the captured bindings, as they were when the call started. -/
  captures : List Value := []
  /-- The namespaces that a module imports, by specifier. -/
  imports : List (String × Value) := []
deriving DecidableEq, Repr, Inhabited

namespace Activation

/-- An argument; `undefined` if absent. -/
def arg (a : Activation) (i : Nat) : Value := a.args.getD i .undefined

/-- A captured value; `undefined` if absent. -/
def capture (a : Activation) (i : Nat) : Value := a.captures.getD i .undefined

/-- An imported namespace; `undefined` if unknown or still being evaluated. -/
def imported (a : Activation) (specifier : String) : Value :=
  (a.imports.lookup specifier).getD .undefined

end Activation

/-- The code that an embedding supplies, by number, and the order in which its
host works end. -/
structure Embedding where
  /-- Closures, jobs and module bodies. -/
  code : Nat → Activation → Program Abrupt Value
  /-- Host functions, with their receiver and arguments. -/
  host : Nat → Value → List Value → Program HostFailure Value
  /-- Analyzers, with the variables at the time of the search. -/
  analyzer : Nat → Variables → Heap → ObjectRef → List Request
  order : HostOrder := .polled

end Retention
