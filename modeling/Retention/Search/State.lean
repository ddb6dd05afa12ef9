import Retention.Interning
import Retention.Search.JointIndex
import Retention.Search.Request
import Std.Data.HashSet

/-!
# The state of a search

A search discovers nodes and references, and settles which nodes are reached
and which of them strongly.

* `Search.State.drain`: liveness spreads along the references found so far.
-/

namespace Retention.Search

/-- The options of a search. -/
structure Options where
  /-- Whether weak references do not count. -/
  strongOnly : Bool := true
  /-- Whether references to primitives are recorded. -/
  recordPrimitives : Bool := true
deriving DecidableEq, Repr, Inhabited

/-- A reference that its parent can pass liveness along. -/
structure Passage where
  child : NodeId
  edge : Nat
  strong : Bool
deriving DecidableEq, Repr, Inhabited

/-- A proof that a node is reached: through an edge from its owners, or, without
an edge, because it is held. -/
structure Resolution where
  child : NodeId
  owners : List NodeId
  edge? : Option Nat
  strong : Bool
deriving DecidableEq, Repr, Inhabited

/-- The state of a search. -/
structure State where
  interner : Interner := .empty
  nodes : Array GraphNode := #[]
  edges : Array Edge := #[]
  /-- The references recorded, by parent, kind and child node. -/
  recorded : Std.HashSet (NodeId × EdgeKind × Option NodeId) := ∅
  entries : Array CollectionEntry := #[]
  confirmations : Array Confirmation := #[]
  /-- The place of each node's confirmation. -/
  confirmedAt : Std.HashMap NodeId Nat := ∅
  /-- The next id for an edge or an entry. -/
  nextEdge : Nat := 0
  /-- The objects to expand, in the order of their discovery. -/
  agenda : Array ObjectRef := #[]
  /-- The nodes of the objects on the agenda. -/
  scheduled : Std.HashSet NodeId := ∅
  /-- How many objects of the agenda are expanded. -/
  expanded : Nat := 0
  reached : Std.HashSet NodeId := ∅
  strong : Std.HashSet NodeId := ∅
  /-- The resolutions found, in order. -/
  resolutions : Array Resolution := #[]
  /-- How many of the resolutions have taken effect. -/
  resolved : Nat := 0
  /-- The references that pass liveness on, by parent. -/
  passages : Std.HashMap NodeId (Array Passage) := ∅
  /-- Joint references that wait for their owners to be reached. -/
  reachJoints : JointIndex := {}
  /-- Joint references that wait for their owners to be strongly reached. -/
  strongJoints : JointIndex := {}
  /-- How often an analyzer made a note of the options. -/
  optionNotes : Nat := 0

namespace State

/-- A new resolution, to take effect after those before it. -/
def push (s : State) (r : Resolution) : State := { s with resolutions := s.resolutions.push r }

/-- The resolution of a joint reference. -/
def pushJoint (strong : Bool) (s : State) (r : JointResolution Nat) : State :=
  s.push { child := r.child, owners := r.owners, edge? := some r.tag, strong }

/-- A node's confirmation, which takes the place of an earlier one. -/
def confirm (s : State) (c : Confirmation) : State :=
  match s.confirmedAt[c.child]? with
  | some i => { s with confirmations := s.confirmations.setIfInBounds i c }
  | none =>
    let place := s.confirmations.size
    { s with
      confirmedAt := s.confirmedAt.insert c.child place
      confirmations := s.confirmations.push c }

/-- A reference passes liveness on, at once if its parent is reached. -/
def propagate (s : State) (parent : NodeId) (p : Passage) : State :=
  let s := { s with passages := s.passages.insert parent ((s.passages.getD parent #[]).push p) }
  if s.reached.contains parent then
    s.push
      { child := p.child, owners := [parent], edge? := some p.edge
        strong := p.strong && s.strong.contains parent }
  else s

/-- A joint reference waits for its owners. -/
def trackJoint (s : State) (child : NodeId) (owners : List NodeId) (edge : Nat) : State :=
  let (reached?, reachJoints) := s.reachJoints.add s.reached.contains child owners edge
  let (strong?, strongJoints) := s.strongJoints.add s.strong.contains child owners edge
  let s := { s with reachJoints, strongJoints }
  match strong?, reached? with
  | some r, _ => pushJoint true s r
  | none, some r => pushJoint false s r
  | none, none => s

/-- A node passes its liveness on along one reference. Weak references have
passed it on when the node was first reached. -/
def passOn (id : NodeId) (newlyReached : Bool) (s : State) (p : Passage) : State :=
  if newlyReached || p.strong then
    s.push
      { child := p.child, owners := [id], edge? := some p.edge
        strong := p.strong && s.strong.contains id }
  else s

/-- A node settles the joint references that waited for it to be reached. -/
def settleReached (s : State) (id : NodeId) : State :=
  let (fired, reachJoints) := s.reachJoints.settle id
  fired.foldl (fun s r => pushJoint (r.owners.all s.strong.contains) s r)
    { s with reachJoints }

/-- A node settles the joint references that waited for it to be strongly reached. -/
def settleStrong (s : State) (id : NodeId) : State :=
  let (fired, strongJoints) := s.strongJoints.settle id
  fired.foldl (pushJoint true) { s with strongJoints }

/-- A resolution takes effect: its node is reached, strongly if the resolution
is strong, and what that brings about is queued. -/
def resolve (s : State) (r : Resolution) : State :=
  let newlyReached := !s.reached.contains r.child
  let newlyStrong := r.strong && !s.strong.contains r.child
  if !newlyReached && !newlyStrong then s
  else
    let s := { s with reached := s.reached.insert r.child }
    let s := if r.strong then { s with strong := s.strong.insert r.child } else s
    let s := match r.edge? with
      | some edge => s.confirm { child := r.child, owners := r.owners, edge, strong := r.strong }
      | none => s
    let s := (s.passages.getD r.child #[]).foldl (passOn r.child newlyReached) s
    let s := if newlyReached then s.settleReached r.child else s
    if newlyStrong then s.settleStrong r.child else s

/-- At most `steps` resolutions take effect, in order. -/
def drainWithin : Nat → State → State
  | 0, s => s
  | steps + 1, s =>
    match s.resolutions[s.resolved]? with
    | none => s
    | some r => drainWithin steps ({ s with resolved := s.resolved + 1 }.resolve r)

/-- A bound on the resolutions that can still take effect: those that wait, and
two for each reference, which passes on that its parent is reached and that it
is strongly reached. -/
def drainBound (s : State) : Nat :=
  (s.resolutions.size - s.resolved) + 2 * s.edges.size

/-- All resolutions take effect, with those that they bring about. -/
def drain (s : State) : State := s.drainWithin s.drainBound

end State
end Retention.Search
