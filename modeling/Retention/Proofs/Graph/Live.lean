import Mathlib.Logic.Relation
import Retention.Graph.Basic

/-!
# What a graph says about its nodes

A graph says on its own which of its nodes are alive (`Graph.Live`): those that
its held nodes keep alive along its references. Its confirmations should be
proofs of that, one for each node that is not held (`Graph.Certified`).
-/

namespace Retention

/-- The nodes that a reference needs: its owners, or its parent. -/
def Edge.premises (e : Edge) : List NodeId := if e.isJoint then e.owners else [e.parent]

namespace Graph

/-- A node that the search held from the start. -/
def Holds (g : Graph) (id : NodeId) : Prop := ∃ n ∈ g.nodes, n.held = true ∧ n.id = id

/-- The least set of nodes that holds the held nodes, the children of references
whose parent it holds, and those of joint references all of whose owners it
holds. Weak references count unless only strong ones do. -/
inductive Live (g : Graph) (strongOnly : Bool) : NodeId → Prop where
  | held {id : NodeId} (hid : g.Holds id) : g.Live strongOnly id
  | edge {e : Edge} {child : NodeId} (he : e ∈ g.edges) (hj : e.isJoint = false)
    (hc : e.child = .node child) (hs : strongOnly = true → e.strong = true)
    (hp : g.Live strongOnly e.parent) : g.Live strongOnly child
  | joint {e : Edge} {child : NodeId} (he : e ∈ g.edges) (hj : e.isJoint = true)
    (hc : e.child = .node child) (ho : ∀ o ∈ e.owners, g.Live strongOnly o) :
    g.Live strongOnly child

variable {g : Graph} {strongOnly : Bool}

/-- A reference keeps its child alive once the nodes it needs are. -/
theorem Live.of_premises {e : Edge} {child : NodeId} (he : e ∈ g.edges)
    (hc : e.child = .node child) (hs : strongOnly = true → e.strong = true)
    (hp : ∀ o ∈ e.premises, g.Live strongOnly o) : g.Live strongOnly child := by
  unfold Edge.premises at hp
  cases hj : e.isJoint with
  | false =>
    rw [hj] at hp
    exact .edge he hj hc hs (hp e.parent List.mem_cons_self)
  | true =>
    rw [hj] at hp
    exact .joint he hj hc hp

/-- What is alive is told by the nodes and the references. -/
theorem Live.congr {g' : Graph} {id : NodeId} (hn : g'.nodes = g.nodes) (he : g'.edges = g.edges)
    (hid : g.Live strongOnly id) : g'.Live strongOnly id := by
  induction hid with
  | held hid => exact .held (by rw [Holds, hn]; exact hid)
  | edge hmem hj hc hs _ ih => exact .edge (he ▸ hmem) hj hc hs ih
  | joint hmem hj hc _ ih => exact .joint (he ▸ hmem) hj hc ih

/-- An owner of a node's confirmation. -/
def IsOwner (g : Graph) (owner id : NodeId) : Prop :=
  ∃ c ∈ g.confirmations, c.child = id ∧ owner ∈ c.owners

/-- The confirmations of a graph are a proof of what is alive: each node that
is alive and not held has one, and no other node does; a confirmation names a
reference to its node and the nodes that the reference needs; these are held or
confirmed in turn, strongly if the confirmation is strong; and no node is
confirmed by itself in the end. -/
structure Certified (g : Graph) (strongOnly : Bool) : Prop where
  confirmed_iff : ∀ id, (∃ c ∈ g.confirmations, c.child = id) ↔ g.Live strongOnly id ∧ ¬g.Holds id
  unique : (g.confirmations.map Confirmation.child).Nodup
  edge : ∀ c ∈ g.confirmations, ∃ e, g.edge? c.edge = some e ∧ e.child = .node c.child ∧
    c.owners = e.premises ∧ (c.strong = true → e.strong = true)
  owners : ∀ c ∈ g.confirmations, ∀ o ∈ c.owners,
    g.Holds o ∨ ∃ d ∈ g.confirmations, d.child = o ∧ (c.strong = true → d.strong = true)
  strong : strongOnly = true → ∀ c ∈ g.confirmations, c.strong = true
  acyclic : ∀ id, ¬Relation.TransGen g.IsOwner id id

end Graph

end Retention
