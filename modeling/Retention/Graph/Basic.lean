import Retention.Graph.NodeId
import Std.Data.HashMap

/-!
# Reference graphs

What a search publishes: the nodes it discovered, the references between them,
the entries of the collections among them, and for each node proven reachable
without being held the reference that proved it.

* `Graph.edge?`, `Graph.node?`: look-up by id.
* `Graph.confirmation?`: why a node was taken to be reachable.
* `Graph.pathTo`: the chain of confirmations from a held node down to a node.
-/

namespace Retention

/-- What a reference or a collection entry refers to: a node, or a primitive
value with its type and its text. -/
inductive Endpoint where
  | node (id : NodeId)
  | primitive (type : String) (rendered : String)
deriving DecidableEq, Repr, Inhabited

/-- The node at an endpoint. -/
def Endpoint.node? : Endpoint → Option NodeId
  | node id => some id
  | primitive .. => none

/-- The part of a parent by which it refers to a child. -/
inductive EdgeKind where
  /-- An internal slot. -/
  | slot (name : String)
  | index (index : Nat)
  | property (name : String)
  /-- The value of the property keyed by a symbol. -/
  | symbolValue (symbol : NodeId)
  /-- The symbol that keys a property. -/
  | symbolKey
  | entryKey (entry : Nat)
  | entryValue (entry : Nat)
deriving DecidableEq, Repr, Inhabited, Hashable

/-- A reference from a parent to a child. -/
structure Edge where
  id : Nat
  parent : NodeId
  child : Endpoint
  kind : EdgeKind
  /-- Whether the reference keeps its child alive, on its own or jointly. -/
  strong : Bool
  /-- The nodes that must all be alive for a joint reference to count. -/
  owners : List NodeId
deriving DecidableEq, Repr, Inhabited

/-- A reference is joint when it depends on owners besides its parent. -/
def Edge.isJoint (e : Edge) : Bool := !e.owners.isEmpty

/-- An entry of a keyed collection, or of a set when it has no value. -/
structure CollectionEntry where
  id : Nat
  collection : NodeId
  entry : Nat
  key : Endpoint
  keyIsStrong : Bool
  value? : Option Endpoint
deriving DecidableEq, Repr, Inhabited

/-- The reference that proved a node reachable, and the nodes that were
reachable before it: the reference's parent, or all its owners. -/
structure Confirmation where
  child : NodeId
  owners : List NodeId
  edge : Nat
  strong : Bool
deriving DecidableEq, Repr, Inhabited

/-- A node: its id, the name of its kind of object (or `Symbol`), and whether
the search held it from the start. -/
structure GraphNode where
  id : NodeId
  builtin : String
  held : Bool
deriving DecidableEq, Repr, Inhabited

/-- The result of one search. -/
structure Graph where
  target : NodeId
  nodes : List GraphNode
  edges : List Edge
  confirmations : List Confirmation
  entries : List CollectionEntry
  /-- Whether the target was proven reachable. -/
  succeeded : Bool
deriving DecidableEq, Repr, Inhabited

/-- The first item of each key. -/
def firstByKey {α κ : Type} [BEq κ] [Hashable κ] (key : α → κ) (items : List α) :
    Std.HashMap κ α :=
  items.foldl (fun found a => found.insertIfNew (key a) a) ∅

theorem getElem?_foldl_insertIfNew {α κ : Type} [BEq κ] [Hashable κ] [LawfulBEq κ] (key : α → κ)
    (items : List α) (found : Std.HashMap κ α) (k : κ) :
    (items.foldl (fun found a => found.insertIfNew (key a) a) found)[k]? =
      found[k]?.or (items.find? (key · == k)) := by
  induction items generalizing found with
  | nil => simp
  | cons a rest ih =>
    rw [List.foldl_cons, ih, Std.HashMap.getElem?_insertIfNew, List.find?_cons]
    by_cases hk : key a = k
    · subst hk
      by_cases hm : key a ∈ found
      · simp [hm]
      · simp [hm]
    · have hb : (key a == k) = false := beq_eq_false_iff_ne.mpr hk
      simp [hb]

/-- A look-up by key finds the first item of that key. -/
theorem getElem?_firstByKey {α κ : Type} [BEq κ] [Hashable κ] [LawfulBEq κ] (key : α → κ)
    (items : List α) (k : κ) : (firstByKey key items)[k]? = items.find? (key · == k) := by
  simp [firstByKey, getElem?_foldl_insertIfNew]

namespace Graph

/-- The node with the given id. -/
def node? (g : Graph) (id : NodeId) : Option GraphNode := g.nodes.find? (·.id == id)

/-- The reference with the given id. -/
def edge? (g : Graph) (id : Nat) : Option Edge := g.edges.find? (·.id == id)

/-- The references that a node makes. -/
def edgesFrom (g : Graph) (parent : NodeId) : List Edge := g.edges.filter (·.parent == parent)

/-- The references made to a node. -/
def edgesTo (g : Graph) (child : NodeId) : List Edge :=
  g.edges.filter (·.child.node? == some child)

/-- The confirmation of a node. -/
def confirmation? (g : Graph) (child : NodeId) : Option Confirmation :=
  g.confirmations.find? (·.child == child)

/-- The node that a confirmation was reached from: the parent of its reference. -/
def origin? (g : Graph) (c : Confirmation) : Option NodeId := (g.edge? c.edge).map Edge.parent

/-- The confirmations met on the way up from a node, itself first. At most
`steps` of them are followed to their parent; one that refers to its own child
ends the way. -/
def ascent (confirmation? : NodeId → Option Confirmation) (origin? : Confirmation → Option NodeId) :
    Nat → NodeId → List Confirmation
  | steps, child =>
    match confirmation? child with
    | none => []
    | some c =>
      c :: match steps, origin? c with
        | steps + 1, some parent =>
          if parent = child then [] else ascent confirmation? origin? steps parent
        | _, _ => []
termination_by steps => steps

/-- The chain of confirmations from a held node down to `child`, topmost
first. Joint references are followed through their parent. -/
def pathTo (g : Graph) (child : NodeId) : List Confirmation :=
  let confirmed := firstByKey Confirmation.child g.confirmations
  let recorded := firstByKey Edge.id g.edges
  (ascent (confirmed[·]?) (fun c => recorded[c.edge]?.map Edge.parent)
    g.confirmations.length child).reverse

/-- The way up is found by the look-ups of the graph. -/
theorem pathTo_eq (g : Graph) (child : NodeId) :
    g.pathTo child =
      (ascent g.confirmation? g.origin? g.confirmations.length child).reverse := by
  simp only [pathTo, getElem?_firstByKey]
  rfl

end Graph
end Retention
