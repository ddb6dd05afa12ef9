import Mathlib.Data.Finset.Basic
import Mathlib.Data.Finset.Dedup
import Retention.Proofs.Search.JointIndex

/-!
# Histories of joint ownerships

A joint ownership is told of nodes that are alive and asked for its resolution, in
any order and any number of times. What it waits for, and whether it yields its
resolution, follows from the calls that were made so far.

* `JointOwnership.pending_after`: the owners that are waited for.
* `JointOwnership.fired_after_iff`: when the resolution was yielded.
* `JointOwnership.after_perm`: the order in which nodes turn out to be alive is lost.
* `OwnerSet.view_after`: the same from a set of owners beside their list.
* `JointOwnership.yields_once`: the four together.
-/

namespace Retention

/-- A call on a joint ownership: a node is alive, or the resolution is asked for. -/
inductive OwnershipCall where
  | settle (id : NodeId)
  | fire
deriving DecidableEq, Repr

/-- What a call answers: whether the node was waited for, or the resolution if it is
yielded. -/
inductive OwnershipReply (α : Type) where
  | awaited (yes : Bool)
  | resolution (r? : Option (JointResolution α))
deriving DecidableEq, Repr

namespace JointOwnership

variable {α : Type}

/-- What a call answers, and the joint ownership after it. -/
def perform (j : JointOwnership α) : OwnershipCall → OwnershipReply α × JointOwnership α
  | .settle id => (.awaited (j.awaits id), j.settle id)
  | .fire => (.resolution j.fire?.1, j.fire?.2)

/-- The joint ownership after a sequence of calls. -/
def after (j : JointOwnership α) (calls : List OwnershipCall) : JointOwnership α :=
  calls.foldl (fun j call => (j.perform call).2) j

/-- What a sequence of calls answers. -/
def replies (j : JointOwnership α) : List OwnershipCall → List (OwnershipReply α)
  | [] => []
  | call :: rest => (j.perform call).1 :: (j.perform call).2.replies rest

theorem after_cons (j : JointOwnership α) (call : OwnershipCall) (rest : List OwnershipCall) :
    j.after (call :: rest) = (j.perform call).2.after rest := rfl

theorem after_append (j : JointOwnership α) (calls rest : List OwnershipCall) :
    j.after (calls ++ rest) = (j.after calls).after rest := List.foldl_append

/-! ## One call -/

@[simp] theorem pending_fire (j : JointOwnership α) : (j.perform .fire).2.pending = j.pending := by
  rw [perform, fire?_eq]

@[simp] theorem fired_fire (j : JointOwnership α) :
    (j.perform .fire).2.fired = (j.fired || j.pending.isEmpty) := by
  rw [perform, fire?_eq]

@[simp] theorem pending_settled (j : JointOwnership α) (id : NodeId) :
    (j.perform (.settle id)).2.pending = j.pending.filter (· != id) := rfl

theorem resolution_perform (j : JointOwnership α) (call : OwnershipCall) :
    (j.perform call).2.resolution = j.resolution := by
  cases call with
  | settle id => rfl
  | fire => rw [perform, fire?_eq]; rfl

/-! ## Any number of calls -/

theorem resolution_after (j : JointOwnership α) (calls : List OwnershipCall) :
    (j.after calls).resolution = j.resolution := by
  induction calls generalizing j with
  | nil => rfl
  | cons call rest ih => rw [after_cons, ih, resolution_perform]

/-- The owners that are waited for are those that no call said to be alive. -/
theorem pending_after (j : JointOwnership α) (calls : List OwnershipCall) :
    (j.after calls).pending = j.pending.filter (fun o => decide (.settle o ∉ calls)) := by
  induction calls generalizing j with
  | nil => simp [after]
  | cons call rest ih =>
    rw [after_cons, ih]
    cases call with
    | fire => simp
    | settle id =>
      rw [pending_settled, List.filter_filter]
      refine List.filter_congr fun o _ => ?_
      rw [Bool.eq_iff_iff]
      simp [and_comm]

/-- The resolution was yielded if it was asked for while no owner was waited for. -/
theorem fired_after_iff (j : JointOwnership α) (calls : List OwnershipCall) :
    (j.after calls).fired = true ↔
      j.fired = true ∨
        ∃ before rest, calls = before ++ .fire :: rest ∧ (j.after before).pending = [] := by
  induction calls generalizing j with
  | nil => simp [after]
  | cons call rest ih =>
    rw [after_cons, ih]
    constructor
    · rintro (hfired | ⟨before, later, rfl, hnone⟩)
      · cases call with
        | settle id => exact .inl hfired
        | fire =>
          rw [fired_fire, Bool.or_eq_true, List.isEmpty_iff] at hfired
          exact hfired.imp_right fun hnone => ⟨[], rest, rfl, hnone⟩
      · exact .inr ⟨call :: before, later, rfl, hnone⟩
    · rintro (hfired | ⟨before, later, hcalls, hnone⟩)
      · refine .inl ?_
        cases call with
        | settle id => exact hfired
        | fire => rw [fired_fire, hfired, Bool.true_or]
      · cases before with
        | nil =>
          obtain ⟨rfl, rfl⟩ := List.cons.inj hcalls
          have hempty : j.pending = [] := hnone
          exact .inl (by rw [fired_fire, hempty, List.isEmpty_nil, Bool.or_true])
        | cons first before =>
          obtain ⟨rfl, rfl⟩ := List.cons.inj hcalls
          exact .inr ⟨before, later, rfl, hnone⟩

theorem fire?_eq_some_iff {j : JointOwnership α} {r : JointResolution α} :
    j.fire?.1 = some r ↔ r = j.resolution ∧ j.pending = [] ∧ j.fired = false := by
  rw [fire?_eq]
  simp only [Option.ite_none_right_eq_some, Option.some.injEq]
  tauto

/-- It does not matter in which order nodes turn out to be alive. -/
theorem after_perm {ids ids' : List NodeId} (h : ids.Perm ids') (j : JointOwnership α) :
    j.after (ids.map .settle) = j.after (ids'.map .settle) := by
  induction h generalizing j with
  | nil => rfl
  | cons id _ ih => exact ih (j.settle id)
  | swap a b ids => exact congrArg (after · (ids.map .settle)) (settle_comm j b a)
  | trans _ _ ih ih' => exact (ih j).trans (ih' j)

end JointOwnership

/-! ## Owners in a set -/

/-- A joint ownership that keeps the owners that are waited for as a set, beside the
list of all its owners. -/
structure OwnerSet (α : Type) where
  child : NodeId
  owners : List NodeId
  waiting : Finset NodeId
  tag : α
  fired : Bool
  mem_owners : ∀ id ∈ waiting, id ∈ owners

namespace OwnerSet

variable {α : Type}

/-- Owners for which `alive` holds are not waited for. -/
def new (alive : NodeId → Bool) (child : NodeId) (owners : List NodeId) (tag : α) : OwnerSet α where
  child := child
  owners := owners
  waiting := (owners.filter (!alive ·)).toFinset
  tag := tag
  fired := false
  mem_owners _ h := List.mem_of_mem_filter (List.mem_toFinset.mp h)

/-- The owners that are waited for, in owner order and as often as they occur. -/
def pending (t : OwnerSet α) : List NodeId := t.owners.filter (· ∈ t.waiting)

/-- A node turns out to be alive, and is taken out of the set. -/
def settle (t : OwnerSet α) (id : NodeId) : OwnerSet α :=
  { t with
    waiting := t.waiting.erase id
    mem_owners := fun o h => t.mem_owners o (Finset.mem_of_mem_erase h) }

/-- What a call answers, and the joint ownership after it. -/
def perform (t : OwnerSet α) : OwnershipCall → OwnershipReply α × OwnerSet α
  | .settle id => (.awaited (decide (id ∈ t.waiting)), t.settle id)
  | .fire =>
    if t.fired = true ∨ t.waiting.Nonempty then (.resolution none, t)
    else (.resolution (some ⟨t.child, t.owners, t.tag⟩), { t with fired := true })

/-- The joint ownership after a sequence of calls. -/
def after (t : OwnerSet α) (calls : List OwnershipCall) : OwnerSet α :=
  calls.foldl (fun t call => (t.perform call).2) t

/-- What a sequence of calls answers. -/
def replies (t : OwnerSet α) : List OwnershipCall → List (OwnershipReply α)
  | [] => []
  | call :: rest => (t.perform call).1 :: (t.perform call).2.replies rest

/-- The joint ownership with the list of the owners that are waited for. -/
def view (t : OwnerSet α) : JointOwnership α :=
  { child := t.child, owners := t.owners, pending := t.pending, tag := t.tag, fired := t.fired }

theorem mem_pending {t : OwnerSet α} {id : NodeId} : id ∈ t.pending ↔ id ∈ t.waiting := by
  rw [pending, List.mem_filter, decide_eq_true_eq]
  exact and_iff_right_of_imp (t.mem_owners id)

theorem view_new (alive : NodeId → Bool) (child : NodeId) (owners : List NodeId) (tag : α) :
    (new alive child owners tag).view = .new alive child owners tag := by
  have hpending : (new alive child owners tag).pending = owners.filter (!alive ·) :=
    List.filter_congr fun o ho => by
      have ho : o ∈ owners := ho
      simp [new, ho]
  rw [view, hpending]
  rfl

theorem view_settle (t : OwnerSet α) (id : NodeId) : (t.settle id).view = t.view.settle id := by
  have hpending : (t.settle id).pending = t.pending.filter (· != id) := by
    rw [pending, pending, List.filter_filter]
    refine List.filter_congr fun o _ => ?_
    rw [Bool.eq_iff_iff]
    simp [settle]
  rw [view, hpending]
  rfl

/-- A call answers the same from the set and from the list, and leaves the same. -/
theorem view_perform (t : OwnerSet α) (call : OwnershipCall) :
    t.view.perform call = ((t.perform call).1, (t.perform call).2.view) := by
  cases call with
  | settle id =>
    have hawaits : t.view.awaits id = decide (id ∈ t.waiting) := by
      rw [JointOwnership.awaits, Bool.eq_iff_iff, List.contains_iff_mem, decide_eq_true_eq]
      exact mem_pending
    rw [JointOwnership.perform, hawaits, ← view_settle]
    rfl
  | fire =>
    have hpending : t.view.isPending = true ↔ t.waiting.Nonempty := by
      rw [JointOwnership.isPending, Bool.not_eq_true', List.isEmpty_eq_false_iff_exists_mem]
      exact exists_congr fun id => mem_pending
    by_cases hnone : t.fired = true ∨ t.waiting.Nonempty
    · have hview : (t.view.fired || t.view.isPending) = true :=
        Bool.or_eq_true_iff.mpr (hnone.imp_right hpending.mpr)
      rw [JointOwnership.perform, JointOwnership.fire?, if_pos hview, perform, if_pos hnone]
    · have hview : ¬ (t.view.fired || t.view.isPending) = true := fun h =>
        hnone ((Bool.or_eq_true_iff.mp h).imp_right hpending.mp)
      rw [JointOwnership.perform, JointOwnership.fire?, if_neg hview, perform, if_neg hnone]
      rfl

theorem view_after (t : OwnerSet α) (calls : List OwnershipCall) :
    (t.after calls).view = t.view.after calls ∧ t.replies calls = t.view.replies calls := by
  induction calls generalizing t with
  | nil => exact ⟨rfl, rfl⟩
  | cons call rest ih =>
    obtain ⟨hafter, hreplies⟩ := ih (t.perform call).2
    rw [JointOwnership.after_cons, JointOwnership.replies, view_perform]
    exact ⟨hafter, congrArg ((t.perform call).1 :: ·) hreplies⟩

end OwnerSet

/-- What a joint ownership waits for and yields after any calls. It waits for the owners
that were not alive at first and that no call said to be, in owner order and as often as
they occur; a node was waited for if it is among them; the resolution is yielded by the
first call that asks for it while no owner is waited for, and by no other; and the order
in which nodes turn out to be alive changes nothing that comes later. A set of owners
beside their list gives the same answers. -/
theorem JointOwnership.yields_once {α : Type} (alive : NodeId → Bool) (child : NodeId)
    (owners : List NodeId) (tag : α) (calls : List OwnershipCall) :
    let start := JointOwnership.new alive child owners tag
    let j := start.after calls
    j.pending = owners.filter (fun o => !alive o && decide (.settle o ∉ calls)) ∧
      (∀ id, (j.perform (.settle id)).1 = .awaited (decide (id ∈ j.pending))) ∧
      (∀ r, j.fire?.1 = some r ↔
        r = ⟨child, owners, tag⟩ ∧ j.pending = [] ∧
          ∀ before rest, calls = before ++ .fire :: rest → (start.after before).pending ≠ []) ∧
      (∀ (ids ids' : List NodeId) (later : List OwnershipCall), ids.Perm ids' →
        (j.after (ids.map .settle ++ later)).pending =
            (j.after (ids'.map .settle ++ later)).pending ∧
          (j.after (ids.map .settle)).replies later = (j.after (ids'.map .settle)).replies later) ∧
      (OwnerSet.new alive child owners tag).replies calls = start.replies calls ∧
      ((OwnerSet.new alive child owners tag).after calls).pending = j.pending := by
  intro start j
  have hpending : j.pending = owners.filter (fun o => !alive o && decide (.settle o ∉ calls)) := by
    have hstart : start.pending = owners.filter (!alive ·) := rfl
    rw [pending_after, hstart, List.filter_filter]
    exact List.filter_congr fun o _ => Bool.and_comm _ _
  have hyields : ∀ r, j.fire?.1 = some r ↔ r = ⟨child, owners, tag⟩ ∧ j.pending = [] ∧
      ∀ before rest, calls = before ++ .fire :: rest → (start.after before).pending ≠ [] := by
    intro r
    have hresolution : j.resolution = ⟨child, owners, tag⟩ := resolution_after start calls
    have hfired : j.fired = false ↔
        ∀ before rest, calls = before ++ .fire :: rest → (start.after before).pending ≠ [] := by
      rw [← Bool.not_eq_true, fired_after_iff]
      simp [start, JointOwnership.new]
    rw [fire?_eq_some_iff, hresolution, hfired]
  obtain ⟨hview, hreplies⟩ := OwnerSet.view_after (.new alive child owners tag) calls
  rw [OwnerSet.view_new] at hview hreplies
  refine ⟨hpending, fun id => ?_, hyields, fun ids ids' later hperm => ?_, hreplies,
    congrArg JointOwnership.pending hview⟩
  · rw [perform, awaits, List.contains_eq_mem]
  · rw [after_append, after_append, after_perm hperm]
    exact ⟨rfl, rfl⟩

/-- Three owners, one of them alive at first and one named twice: it does not matter which
of the other two turns out to be alive first, and the resolution comes once. -/
theorem JointOwnership.yields_once_swapped :
    let start := JointOwnership.new (· == ⟨.object, 0⟩) ⟨.object, 9⟩
      [⟨.object, 1⟩, ⟨.object, 0⟩, ⟨.symbol, 2⟩, ⟨.object, 1⟩] "edge"
    let r : JointResolution String :=
      ⟨⟨.object, 9⟩, [⟨.object, 1⟩, ⟨.object, 0⟩, ⟨.symbol, 2⟩, ⟨.object, 1⟩], "edge"⟩
    (start.after [.fire]).pending = [⟨.object, 1⟩, ⟨.symbol, 2⟩, ⟨.object, 1⟩] ∧
      [(⟨.object, 1⟩ : NodeId), ⟨.symbol, 2⟩].Perm [⟨.symbol, 2⟩, ⟨.object, 1⟩] ∧
      ((start.after [.fire]).after [.settle ⟨.object, 1⟩, .settle ⟨.symbol, 2⟩]).replies [.fire, .fire] =
        ((start.after [.fire]).after [.settle ⟨.symbol, 2⟩, .settle ⟨.object, 1⟩]).replies
          [.fire, .fire] ∧
      ((start.after [.fire]).after [.settle ⟨.symbol, 2⟩, .settle ⟨.object, 1⟩]).replies
        [.fire, .fire] = [.resolution (some r), .resolution none] := by
  intro start r
  obtain ⟨hpending, -, -, hswap, -⟩ := yields_once (· == ⟨.object, 0⟩) ⟨.object, 9⟩
    [⟨.object, 1⟩, ⟨.object, 0⟩, ⟨.symbol, 2⟩, ⟨.object, 1⟩] "edge" [.fire]
  have hperm : [(⟨.object, 1⟩ : NodeId), ⟨.symbol, 2⟩].Perm [⟨.symbol, 2⟩, ⟨.object, 1⟩] :=
    .swap _ _ _
  exact ⟨hpending.trans (by decide), hperm, (hswap _ _ [.fire, .fire] hperm).2, by decide⟩

end Retention
