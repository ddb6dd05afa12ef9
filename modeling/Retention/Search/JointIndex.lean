import Retention.JointOwnership
import Std.Data.HashMap

/-!
# The joint references of a search

A search keeps its joint references under the owners that they wait for, so
that a node that turns out to be alive finds those it completes.

* `JointIndex.add`: a new joint reference, and its resolution if it is complete.
* `JointIndex.settle`: a node turns out to be alive; the resolutions it completes.
-/

namespace Retention

/-- Joint references, each tagged with the id of its edge, and for each owner
the places of those that wait for it. -/
structure JointIndex where
  joints : Array (JointOwnership Nat) := #[]
  waiting : Std.HashMap NodeId (List Nat) := ∅

namespace JointIndex

/-- Lists place `i` under an owner. -/
def listUnder (i : Nat) (waiting : Std.HashMap NodeId (List Nat)) (owner : NodeId) :
    Std.HashMap NodeId (List Nat) :=
  waiting.insert owner (waiting.getD owner [] ++ [i])

/-- A new joint reference. -/
def add (x : JointIndex) (alive : NodeId → Bool) (child : NodeId) (owners : List NodeId)
    (edge : Nat) : Option (JointResolution Nat) × JointIndex :=
  let (fired?, joint) := (JointOwnership.new alive child owners edge).fire?
  let waiting := joint.pending.foldl (listUnder x.joints.size) x.waiting
  (fired?, { joints := x.joints.push joint, waiting })

/-- Settles an owner of the joint references at the given places. -/
def settleAt (id : NodeId) :
    List Nat → Array (JointOwnership Nat) → List (JointResolution Nat) × Array (JointOwnership Nat)
  | [], joints => ([], joints)
  | i :: rest, joints =>
    match joints[i]? with
    | none => settleAt id rest joints
    | some joint =>
      let (fired?, joint) := (joint.settle id).fire?
      let (more, joints) := settleAt id rest (joints.setIfInBounds i joint)
      (fired?.toList ++ more, joints)

/-- A node turns out to be alive. -/
def settle (x : JointIndex) (id : NodeId) : List (JointResolution Nat) × JointIndex :=
  let (fired, joints) := settleAt id (x.waiting.getD id []) x.joints
  (fired, { joints, waiting := x.waiting.erase id })

/-- The number of joint references with an owner still waited for. -/
def pending (x : JointIndex) : Nat := x.joints.countP (·.isPending)

end JointIndex
end Retention
