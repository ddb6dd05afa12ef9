import Retention.Module.Specifier
import Retention.Sequence

/-!
# Loading modules

A run loads its entry module and everything that is requested from there, each
specifier once, depth first.

* `Inputs`: what a run is given by its embedding.
* `Loader.load`: loads a module with its dependencies.
-/

namespace Retention

/-- A module: the specifiers that it requests, in source order, and the number
of its code. -/
structure ModuleSource where
  requests : List String
  code : Nat
deriving DecidableEq, Repr, Inhabited

/-- What a run is given by its embedding. -/
structure Inputs where
  /-- The specifier of the module that the run starts with. -/
  entry : String
  /-- The module that a resolved specifier denotes. -/
  contents : String → Except HostFailure ModuleSource
  /-- The specifier that a target denotes in an importer. -/
  resolve : (target importer : String) → Except HostFailure String

/-- Modules registered under specifiers. Of two registered under one specifier
the later one counts; relative specifiers are resolved by their text. -/
def Inputs.ofModules (entry : String) (modules : List (String × Except HostFailure ModuleSource)) :
    Inputs where
  entry
  contents specifier :=
    (modules.reverse.lookup specifier).getD
      (.error (.message s!"no module is registered as {Text.quoted specifier}"))
  resolve := Specifier.resolve

/-- A loaded module. -/
structure LoadedModule where
  specifier : String
  code : Nat
  /-- The requests, each with the place of the module it denotes. -/
  dependencies : List (String × Nat) := []
deriving DecidableEq, Repr, Inhabited

/-- The modules loaded so far, in the order of their first request. -/
structure Loader where
  modules : Array LoadedModule := #[]
  /-- The specifiers whose contents the embedding was asked for, in order. -/
  asked : Sequence String := {}
deriving DecidableEq, Repr, Inhabited

/-- A step of loading. It may fail, or run out of steps. -/
abbrev LoadM (α : Type) := ExceptT RunFailure (StateT Loader Option) α

namespace Loader

/-- The place of the module of a specifier. -/
def place? (l : Loader) (specifier : String) : Option Nat :=
  l.modules.findIdx? (·.specifier == specifier)

/-- Asks the embedding for the module of a resolved specifier. -/
def ask (inputs : Inputs) (specifier : String) : LoadM ModuleSource := do
  modifyThe Loader fun l => { l with asked := l.asked.push specifier }
  match inputs.contents specifier with
  | .ok source => return source
  | .error cause => throw (.moduleLoad specifier cause)

/-- A new module without dependencies, and its place. -/
def add (specifier : String) (code : Nat) : LoadM Nat :=
  modifyGetThe Loader fun l =>
    (l.modules.size, { l with modules := l.modules.push { specifier, code } })

/-- One more dependency of a module. -/
def depend (i : Nat) (request : String) (dependency : Nat) : LoadM Unit :=
  modifyThe Loader fun l => { l with
    modules := l.modules.modify i fun m =>
      { m with dependencies := m.dependencies ++ [(request, dependency)] } }

/-- Loads a module with everything it requests, and answers its place. The
steps bound the depth of requests. -/
def load (inputs : Inputs) : Nat → String → LoadM Nat
  | 0, _ => fun _ => none
  | steps + 1, specifier => do
    if let some i := (← getThe Loader).place? specifier then return i
    let source ← ask inputs specifier
    let i ← add specifier source.code
    source.requests.forM fun request => do
      let resolved ← match inputs.resolve request specifier with
        | .ok resolved => pure resolved
        | .error cause => throw (.moduleResolution request specifier cause)
      depend i request (← load inputs steps resolved)
    return i

end Loader
end Retention
