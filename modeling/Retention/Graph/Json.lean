import Retention.Graph.Basic
import Retention.Json

/-!
# The written form of reference graphs
-/

namespace Retention

namespace NodeId

def toJson (id : NodeId) : Json := .text id.text

end NodeId

/-- An endpoint says which of its two forms it has. -/
def Endpoint.toJson : Endpoint → Json
  | node id => .record [("valueType", .text "node"), ("id", id.toJson)]
  | primitive type rendered => .record
      [("valueType", .text "primitive"), ("primitiveType", .text type), ("rendered", .text rendered)]

/-- The fields that tell the kind of a reference. -/
def EdgeKind.fields : EdgeKind → List (String × Json)
  | slot name => [("type", .text "internalSlot"), ("slotName", .text name)]
  | index i => [("type", .text "arrayIndex"), ("index", .number i)]
  | property name => [("type", .text "propertyName"), ("name", .text name)]
  | symbolValue symbol => [("type", .text "propertySymbol"), ("symbol", symbol.toJson)]
  | symbolKey => [("type", .text "symbolKey")]
  | entryKey n => [("type", .text "collectionKey"), ("entry", .number n)]
  | entryValue n => [("type", .text "collectionValue"), ("entry", .number n)]

/-- Owners are written only for joint references. -/
def Edge.toJson (e : Edge) : Json := .record <|
  [("edgeId", .number e.id), ("parentId", e.parent.toJson), ("child", e.child.toJson)] ++
    e.kind.fields ++ [("isStrongOwningReference", .bool e.strong)] ++
    if e.isJoint then [("jointOwnerIds", .list (e.owners.map NodeId.toJson))] else []

def Confirmation.toJson (c : Confirmation) : Json := .record
  [("childId", c.child.toJson), ("jointOwnerIds", .list (c.owners.map NodeId.toJson)),
    ("edgeId", .number c.edge), ("isStrongOwningReference", .bool c.strong)]

/-- The value is written only for keyed collections. -/
def CollectionEntry.toJson (e : CollectionEntry) : Json := .record <|
  [("edgeId", .number e.id), ("collectionId", e.collection.toJson), ("entry", .number e.entry),
    ("key", e.key.toJson), ("keyIsHeldStrongly", .bool e.keyIsStrong)] ++
    match e.value? with
    | some value => [("value", value.toJson)]
    | none => []

def GraphNode.toJson (n : GraphNode) : Json := .record
  [("id", n.id.toJson), ("builtin", .text n.builtin), ("isHeld", .bool n.held)]

namespace Graph

def toJson (g : Graph) : Json := .record
  [("targetId", g.target.toJson),
    ("nodes", .list (g.nodes.map GraphNode.toJson)),
    ("parentToChildEdges", .list (g.edges.map Edge.toJson)),
    ("childToParentEdges", .list (g.confirmations.map Confirmation.toJson)),
    ("collectionEntries", .list (g.entries.map CollectionEntry.toJson)),
    ("succeeded", .bool g.succeeded)]

/-- The written form of a graph. -/
def json (g : Graph) : String := g.toJson.pretty

end Graph
end Retention
