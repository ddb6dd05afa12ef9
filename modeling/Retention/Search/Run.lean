import Retention.Search.State

/-!
# Searches

A search starts from the held values and the target. It expands each object it
discovers once: the analyzer of the object's kind and the object's prototype
and properties say what the object refers to, and after each object liveness
spreads as far as the references found so far carry it.

* `Search.perform`: what one request does.
* `Search.expand`: the references of one object.
* `Search.run`: a whole search.
-/

namespace Retention

/-- Analyzers by the kind of object they read; kinds may have none. -/
abbrev AnalyzerTable := BuiltinKind → Option (Heap → ObjectRef → List Request)

/-- The built-in analyzers. -/
def AnalyzerTable.builtin : AnalyzerTable := fun kind =>
  if kind.hasSlots then some (slotRequests kind) else none

namespace Search

/-- A step of a search: it may fail, and its state outlives a failure. -/
abbrev Step (α : Type) := ExceptT Abrupt (StateM State) α

/-- The name of the kind of a value with identity. -/
def builtinName (h : Heap) : Identity → Except Abrupt String
  | .object ref => return (← h.kind ref).builtin.name
  | .symbol ref => do
    let _ ← h.symbol ref
    return "Symbol"

/-- The id of a value's node, which is made at first sight. -/
def register (h : Heap) (v : Identity) : Step NodeId := do
  match (← get).interner.id? v with
  | some id => return id
  | none =>
    let builtin ← builtinName h v
    modifyGet fun s =>
      let (id, interner) := s.interner.intern v
      (id, { s with interner, nodes := s.nodes.push { id, builtin, held := false } })

/-- The id of a value's node; an object is put on the agenda at first sight. -/
def discover (h : Heap) (v : Identity) : Step NodeId := do
  let id ← register h v
  match v with
  | .object ref =>
    modify fun s =>
      if s.scheduled.contains id then s
      else { s with scheduled := s.scheduled.insert id, agenda := s.agenda.push ref }
  | .symbol _ => pure ()
  return id

/-- The identity of a value that has to be a node. -/
def identity (v : Value) : Step Identity :=
  match Identity.ofValue v with
  | .ok i => pure i
  | .error violation => throw (.broken violation)

/-- The id of the node of a value. -/
def nodeFor (h : Heap) (v : Value) : Step NodeId := do discover h (← identity v)

/-- A value as the end of a reference. -/
def describe (h : Heap) (v : Value) : Step Endpoint := do
  match Identity.ofValue v with
  | .ok i => return .node (← discover h i)
  | .error _ => return .primitive v.typeName (v.primitiveText?.getD "")

/-- The next id for an edge or an entry. -/
def freshEdge : Step Nat :=
  modifyGet fun s => (s.nextEdge, { s with nextEdge := s.nextEdge + 1 })

/-- The nodes of the owners of a reference. -/
def ownerIds (h : Heap) : Strength → Step (List NodeId)
  | .joint owners => owners.mapM (nodeFor h)
  | .strong | .weak => pure []

/-- Remembers that a reference is recorded, and tells whether it is new. -/
def markRecorded (parent : NodeId) (kind : EdgeKind) (child? : Option NodeId) : Step Bool :=
  modifyGet fun s =>
    if s.recorded.contains (parent, kind, child?) then (false, s)
    else (true, { s with recorded := s.recorded.insert (parent, kind, child?) })

/-- What a new reference to a node does to the spread of liveness. -/
def carry (options : Options) (parent child : NodeId) (edge : Nat) (owners : List NodeId)
    (strength : Strength) (s : State) : State :=
  match strength with
  | .strong => s.propagate parent { child, edge, strong := true }
  | .weak => if options.strongOnly then s else s.propagate parent { child, edge, strong := false }
  | .joint _ => s.trackJoint child owners edge

/-- Records a reference from `parent`, unless the same reference is recorded. -/
def addEdge (h : Heap) (options : Options) (parent : ObjectRef) (kind : EdgeKind)
    (child : Value) (strength : Strength) : Step Unit := do
  let parentId ← discover h (.object parent)
  let childId? ← match Identity.ofValue child with
    | .ok i => some <$> discover h i
    | .error _ => pure none
  if childId?.isNone && !options.recordPrimitives then return
  if !(← markRecorded parentId kind childId?) then return
  let owners ← ownerIds h strength
  let edge ← freshEdge
  let endpoint ← describe h child
  modify fun s => { s with
    edges := s.edges.push
      { id := edge, parent := parentId, child := endpoint, kind
        strong := strength != .weak, owners } }
  match childId? with
  | some childId => modify (carry options parentId childId edge owners strength)
  | none => pure ()

/-- Records an entry of a collection, with the references to its key and value. -/
def addEntry (h : Heap) (options : Options) (collection : ObjectRef) (index : Nat) (key : Value)
    (keyStrength : Strength) (value? : Option (Value × Strength)) : Step Unit := do
  let collectionId ← discover h (.object collection)
  let keyEnd ← describe h key
  let valueEnd? ← match value? with
    | some (value, _) => some <$> describe h value
    | none => pure none
  let id ← freshEdge
  modify fun s => { s with
    entries := s.entries.push
      { id, collection := collectionId, entry := index, key := keyEnd
        keyIsStrong := keyStrength == .strong, value? := valueEnd? } }
  addEdge h options collection (.entryKey index) key keyStrength
  match value? with
  | some (value, strength) => addEdge h options collection (.entryValue index) value strength
  | none => pure ()

/-- What one request does. -/
def perform (h : Heap) (options : Options) : Request → Step Unit
  | .edge parent kind child strength => addEdge h options parent kind child strength
  | .entry collection index key keyStrength value? =>
    addEntry h options collection index key keyStrength value?
  | .symbolProperty parent symbol value => do
    let id ← nodeFor h (.symbol symbol)
    addEdge h options parent .symbolKey (.symbol symbol) .strong
    addEdge h options parent (.symbolValue id) value .strong
  | .node value => discard (nodeFor h value)
  | .noteOptions => modify fun s => { s with optionNotes := s.optionNotes + 1 }
  | .fail cause => throw cause

/-- The requests that are made for an object when it is expanded. -/
def requestsFor (h : Heap) (analyzers : AnalyzerTable) (ref : ObjectRef) :
    Except Abrupt (List Request) := do
  let o ← h.object ref
  let slots := match analyzers o.kind.builtin with
    | some analyze => analyze h ref
    | none => []
  return slots ++ ownRequests ref o

/-- Records the references of an object. -/
def expand (h : Heap) (options : Options) (analyzers : AnalyzerTable) (ref : ObjectRef) :
    Step Unit := do
  (← requestsFor h analyzers ref).forM (perform h options)

/-- Expands objects of the agenda, at most `steps` of them. -/
def expandWithin (h : Heap) (options : Options) (analyzers : AnalyzerTable) : Nat → Step Unit
  | 0 => pure ()
  | steps + 1 => do
    let s ← get
    match s.agenda[s.expanded]? with
    | none => pure ()
    | some ref =>
      modify fun s => { s with expanded := s.expanded + 1 }
      expand h options analyzers ref
      modify State.drain
      expandWithin h options analyzers steps

/-- Holds a value from the start; primitives are passed over. -/
def hold (h : Heap) (v : Value) : Step Unit := do
  match Identity.ofValue v with
  | .error _ => pure ()
  | .ok i =>
    let id ← discover h i
    modify fun s =>
      { s with nodes := s.nodes.modify id.index fun n => { n with held := true } }.push
        { child := id, owners := [], edge? := none, strong := true }

/-- The graph that a finished search publishes. -/
def State.graph (s : State) (target : NodeId) : Graph :=
  { target
    nodes := s.nodes.toList
    edges := s.edges.toList
    confirmations := s.confirmations.toList
    entries := s.entries.toList
    succeeded := s.reached.contains target }

/-- A whole search. Each object of the heap is expanded at most once, which
bounds the number of expansions. -/
def search (h : Heap) (options : Options) (analyzers : AnalyzerTable) (target : Value)
    (held : List Value) : Step Graph := do
  held.forM (hold h)
  let targetId ← register h (← identity target)
  modify State.drain
  expandWithin h options analyzers h.size
  return (← get).graph targetId

/-- A whole search from the start, and how often an analyzer made a note of the
options. -/
def run (h : Heap) (options : Options) (analyzers : AnalyzerTable) (target : Value)
    (held : List Value) : Except Abrupt Graph × Nat :=
  let (outcome, s) := ((search h options analyzers target held).run).run {}
  (outcome, s.optionNotes)

end Search
end Retention
