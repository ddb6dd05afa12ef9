import Retention.Graph.Basic
import Retention.Heap.Basic

/-!
# What objects refer to

An analyzer reads an object and asks the search to record what it finds, as a
list of requests. This module holds the requests of the built-in analyzers,
one for each kind of object with internal slots, and those that are made for
every object: its prototype and its properties.

* `slotRequests`: what the internal slots of an object refer to.
* `ownRequests`: what its prototype and its properties refer to.
-/

namespace Retention

/-- How a reference holds its child. -/
inductive Strength where
  | strong
  /-- Never a reason to be alive, unless a search counts weak references. -/
  | weak
  /-- Strong once every owner is alive. -/
  | joint (owners : List Value)
deriving DecidableEq, Repr, Inhabited

/-- What an analyzer asks of a search. -/
inductive Request where
  /-- Record a reference. -/
  | edge (parent : ObjectRef) (kind : EdgeKind) (child : Value) (strength : Strength)
  /-- Record an entry of a collection, with the references to its key and value. -/
  | entry (collection : ObjectRef) (index : Nat) (key : Value) (keyStrength : Strength)
      (value? : Option (Value × Strength))
  /-- Record a property keyed by a symbol: the references to the symbol and to
  the value. -/
  | symbolProperty (parent : ObjectRef) (symbol : SymbolRef) (value : Value)
  /-- Record a value as a node. -/
  | node (value : Value)
  /-- Make a note of the options of the search. -/
  | noteOptions
  /-- Give up the search. -/
  | fail (cause : Abrupt)
deriving DecidableEq, Repr

namespace Request

/-- A strong reference by an internal slot. -/
def slot (parent : ObjectRef) (name : String) (child : Value) : Request :=
  edge parent (.slot name) child .strong

/-- A weak reference by an internal slot. -/
def weakSlot (parent : ObjectRef) (name : String) (child : Value) : Request :=
  edge parent (.slot name) child .weak

/-- A strong reference by an internal slot, unless the slot is empty. -/
def slot? (parent : ObjectRef) (name : String) (child? : Option ObjectRef) : List Request :=
  child?.toList.map fun child => slot parent name (.object child)

end Request

/-- Requests made for each item of a list, together with its place. -/
def numbered {α : Type} (items : List α) (requests : Nat → α → List Request) : List Request :=
  items.zipIdx.flatMap fun (item, i) => requests i item

/-- The references of a list of reactions. -/
def reactionRequests (ref : ObjectRef) (list : String) (reactions : Sequence Reaction) :
    List Request :=
  numbered reactions.toList fun i r =>
    Request.slot? ref s!"{list}[{i}].[[Handler]]" r.handler? ++
      Request.slot? ref s!"{list}[{i}].[[Capability]]" r.derived?

/-- The references of a finalization cell: the held value is kept alive, the
target and the token are not. -/
def cellRequests (ref : ObjectRef) (i : Nat) (cell : Cell) : List Request :=
  [.slot ref s!"[[Cells]][{i}].[[HeldValue]]" cell.held,
    .weakSlot ref s!"[[Cells]][{i}].[[WeakRefTarget]]" cell.target] ++
  cell.token?.toList.map (.weakSlot ref s!"[[Cells]][{i}].[[UnregisterToken]]")

/-- What the internal slots of an object refer to. A WeakMap's value is owned
by the map and the key together. -/
def kindRequests (ref : ObjectRef) : ObjectKind → List Request
  | .ordinary | .array | .error => []
  | .function _ _ captures =>
    captures.map fun b => .slot ref s!"[[Environment]].{b.name}" b.value
  | .boundFunction target this args =>
    .slot ref "[[BoundTargetFunction]]" (.object target) ::
      .slot ref "[[BoundThis]]" this ::
      numbered args fun i arg => [.slot ref s!"[[BoundArguments]][{i}]" arg]
  | .proxyRevoker proxy? => Request.slot? ref "[[RevocableProxy]]" proxy?
  | .proxy target? handler? =>
    Request.slot? ref "[[ProxyTarget]]" target? ++ Request.slot? ref "[[ProxyHandler]]" handler?
  | .weakRef target => [.weakSlot ref "[[WeakRefTarget]]" target]
  | .finalizationRegistry callback cells =>
    .slot ref "[[CleanupCallback]]" (.object callback) :: numbered cells.toList (cellRequests ref)
  | .map entries =>
    numbered entries.toList fun i e => [.entry ref i e.key .strong (some (e.value, .strong))]
  | .set values => numbered values.toList fun i v => [.entry ref i v .strong none]
  | .weakMap entries =>
    numbered entries.toList fun i e =>
      [.entry ref i e.key .weak (some (e.value, .joint [.object ref, e.key]))]
  | .weakSet values => numbered values.toList fun i v => [.entry ref i v .weak none]
  | .promise p =>
    .slot ref "[[PromiseResult]]" p.result ::
      (reactionRequests ref "[[PromiseFulfillReactions]]" p.onFulfilled ++
        reactionRequests ref "[[PromiseRejectReactions]]" p.onRejected)

/-- What an analyzer that expects another kind of object calls the kind it expects. -/
def BuiltinKind.analyzedAs : BuiltinKind → String
  | proxyRevoker => "proxy revoker"
  | kind => kind.name

/-- The requests of the built-in analyzer of a kind. -/
def slotRequests (kind : BuiltinKind) (h : Heap) (ref : ObjectRef) : List Request :=
  match h.kind ref with
  | .error cause => [.fail cause]
  | .ok slots =>
    if slots.builtin = kind then kindRequests ref slots
    else [.fail (.broken (.wrongObjectKind kind.analyzedAs))]

/-- The kinds of objects that have a built-in analyzer: those with internal slots. -/
def BuiltinKind.hasSlots : BuiltinKind → Bool
  | ordinary | array | error => false
  | _ => true

/-- What a property refers to. -/
def propertyRequest (ref : ObjectRef) (p : Property) : Request :=
  match p.key with
  | .symbol symbol => .symbolProperty ref symbol p.value
  | .string name =>
    match arrayIndex? name with
    | some i => .edge ref (.index i) p.value .strong
    | none => .edge ref (.property name) p.value .strong

/-- What an object's prototype and its properties refer to. -/
def ownRequests (ref : ObjectRef) (o : Object) : List Request :=
  Request.slot? ref "[[Prototype]]" o.prototype? ++
    (Properties.ordered o.properties).map (propertyRequest ref)

end Retention
