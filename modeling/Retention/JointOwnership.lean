import Retention.Graph.NodeId

/-!
# Joint ownership

A jointly owned child is alive once all its owners are: a WeakMap's value, for
instance, once both the map and the key are.

* `JointOwnership.settle`: an owner turns out to be alive.
* `JointOwnership.fire?`: the resolution, yielded once and only when no owner
  is pending.
-/

namespace Retention

/-- What a joint ownership yields once all its owners are alive. -/
structure JointResolution (α : Type) where
  child : NodeId
  owners : List NodeId
  tag : α
deriving DecidableEq, Repr

/-- A child, its owners, and those of them that are not known to be alive. -/
structure JointOwnership (α : Type) where
  child : NodeId
  owners : List NodeId
  /-- The owners still waited for, in owner order and as often as they occur. -/
  pending : List NodeId
  tag : α
  fired : Bool
deriving DecidableEq, Repr

namespace JointOwnership

variable {α : Type}

/-- Owners for which `alive` holds are not waited for. -/
def new (alive : NodeId → Bool) (child : NodeId) (owners : List NodeId) (tag : α) :
    JointOwnership α :=
  { child, owners, pending := owners.filter (!alive ·), tag, fired := false }

/-- Whether an owner is still waited for. -/
def isPending (j : JointOwnership α) : Bool := !j.pending.isEmpty

/-- Whether a node is an owner still waited for. -/
def awaits (j : JointOwnership α) (id : NodeId) : Bool := j.pending.contains id

/-- A node turns out to be alive. -/
def settle (j : JointOwnership α) (id : NodeId) : JointOwnership α :=
  { j with pending := j.pending.filter (· != id) }

/-- The resolution, if no owner is pending and it was not yielded before. -/
def fire? (j : JointOwnership α) : Option (JointResolution α) × JointOwnership α :=
  if j.fired || j.isPending then (none, j)
  else (some ⟨j.child, j.owners, j.tag⟩, { j with fired := true })

theorem pending_settle (j : JointOwnership α) (id : NodeId) :
    (j.settle id).pending = j.pending.filter (· != id) := rfl

theorem awaits_settle (j : JointOwnership α) (id other : NodeId) :
    (j.settle id).awaits other = (j.awaits other && other != id) := by
  rw [Bool.eq_iff_iff]
  simp [awaits, settle, List.mem_filter]

/-- Settling is independent of the order of the owners. -/
theorem settle_comm (j : JointOwnership α) (a b : NodeId) :
    (j.settle a).settle b = (j.settle b).settle a := by
  simp [settle, List.filter_filter, Bool.and_comm]

theorem fire?_fire? (j : JointOwnership α) (h : j.fire?.1.isSome = true) :
    j.fire?.2.fire?.1 = none := by
  unfold fire? at h ⊢
  split <;> simp_all

end JointOwnership
end Retention
