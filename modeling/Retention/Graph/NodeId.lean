/-!
# Node ids

A node of a reference graph is an object or a symbol. Its id carries which of
the two it is and a number; objects and symbols are numbered together.
-/

namespace Retention

/-- The two kinds of guest values that have identity. -/
inductive NodeKind where
  | object
  | symbol
deriving DecidableEq, Repr, Inhabited, Hashable

/-- The word in front of a node's number. -/
def NodeKind.label : NodeKind → String
  | object => "object"
  | symbol => "symbol"

/-- The id of a node: its kind and its number. -/
structure NodeId where
  kind : NodeKind
  index : Nat
deriving DecidableEq, Repr, Inhabited, Hashable

/-- The text of a node id, `object:7` for instance. -/
def NodeId.text (id : NodeId) : String := s!"{id.kind.label}:{id.index}"

end Retention
