import Retention.Realm.Basic

/-!
# Answers

What the operations of guest code answer.
-/

namespace Retention

/-- Named values, each name once. -/
abbrev Variables := List (String × Value)

/-- The value of a variable; `undefined` if it was never set. -/
def Variables.get (vars : Variables) (name : String) : Value := (vars.lookup name).getD .undefined

/-- Sets a variable. -/
def Variables.set (vars : Variables) (name : String) (v : Value) : Variables :=
  (name, v) :: vars.filter (·.1 != name)

theorem Variables.get_set_self (vars : Variables) (name : String) (v : Value) :
    (vars.set name v).get name = v := by
  simp [get, set]

/-- What can be told about a value by looking at it. -/
structure Inspection where
  type : String
  display : String
  /-- The kind of an object. -/
  kind? : Option BuiltinKind
  /-- Whether a reference leads to a slot of its kind; primitives have none. -/
  valid? : Option Bool
  callable : Bool
  weaklyHoldable : Bool
  isPromise : Bool
deriving DecidableEq, Repr

/-- The contents of a collection or a finalization registry. -/
inductive Contents where
  | entries (entries : List KeyedEntry)
  | members (values : List Value)
  | cells (cells : List Cell)
deriving DecidableEq, Repr

/-- The contents kept in internal slots. -/
def ObjectKind.contents? : ObjectKind → Option Contents
  | map entries | weakMap entries => some (.entries entries.toList)
  | set values | weakSet values => some (.members values.toList)
  | finalizationRegistry _ cells => some (.cells cells.toList)
  | _ => none

/-- How far a realm has come. -/
structure Status where
  heapSize : Nat
  jobs : Nat
  hostWork : Nat
  jobsRun : Nat
  quiescent : Bool
  searches : Nat
deriving DecidableEq, Repr

/-- What an operation answers. -/
inductive Answer where
  | unit
  | bool (b : Bool)
  | size (n : Nat)
  | value (v : Value)
  | several (vs : List Value)
  | object? (ref? : Option ObjectRef)
  | keys (keys : List PropertyKey)
  | property? (p? : Option Property)
  | properties (ps : List Property)
  | inspection (i : Inspection)
  | contents? (c? : Option Contents)
  | symbol? (s? : Option Symbol)
  /-- The answers of the three equalities, from the finest to plain equality. -/
  | comparison (sameValue sameValueZero equal : Bool)
  | status (s : Status)
  | hostFunction? (f? : Option HostFunction)
  | reports (rs : List (List String))
  | promise (slots : PromiseSlots)
  | kind? (k? : Option BuiltinKind)
  | analyzers (registry : AnalyzerRegistry)
  | graph (g : Graph)
  | graph? (g? : Option Graph)
  | results (rs : SearchResults)
  | vars (vars : Variables)
deriving DecidableEq, Repr

namespace Answer

/-- The object is answered as a value. -/
def ofRef (ref : ObjectRef) : Answer := value (.object ref)

/-- The value of an answer that is one value. An operation that has nothing to
tell answers `undefined`, and an object that is missing is `null`. -/
def value? : Answer → Option Value
  | unit => some .undefined
  | bool b => some (.bool b)
  | value v => some v
  | object? ref? => some (ref?.elim .null .object)
  | _ => none

/-- The values of an answer that consists of several values. -/
def several? : Answer → Option (List Value)
  | several vs => some vs
  | _ => none

/-- The value of an answer; `undefined` if it is not one value. -/
def toValue (a : Answer) : Value := a.value?.getD .undefined

/-- The variables, if they are what is answered. -/
def toVariables : Answer → Variables
  | vars vs => vs
  | _ => []

end Answer
end Retention
