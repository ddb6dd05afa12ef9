import Retention.Proofs.Search.Liveness

/-!
# Draining

Draining a search lets every resolution take effect (`Budgeted.drained_drain`):
the bound on its steps is never what ends it. Each reference is due twice, once
for being reached and once for being strongly reached, and what a resolution
brings about is taken from what is due (`State.due`).

In a drained search the nodes that are reached, and those strongly reached, are
the least sets that hold the held nodes and are closed under the rules
(`Coherent.reached_iff_spreads`, `Coherent.strong_iff_spreads`).
-/

namespace Retention.Search

/-- Whether a reference has no joint owners. -/
def ofParent (e : Edge) : Bool := e.owners.isEmpty

/-- The references of one owner whose parent is not alive yet. -/
def waiting (alive : NodeId → Bool) (edges : List Edge) : Nat :=
  edges.countP fun e => ofParent e && !alive e.parent

/-- A node that turns out to be alive takes its references from those that wait. -/
theorem waiting_eq {alive alive' : NodeId → Bool} {id : NodeId} (hid : alive id = false)
    (ha : ∀ o, alive' o = (id == o || alive o)) (edges : List Edge) :
    waiting alive edges =
      waiting alive' edges + edges.countP fun e => ofParent e && e.parent == id := by
  induction edges with
  | nil => rfl
  | cons e rest ih =>
    unfold waiting at ih ⊢
    rw [List.countP_cons, List.countP_cons, List.countP_cons, ih, ha]
    by_cases he : e.parent = id
    · rw [he, hid]
      cases ofParent e
      · simp
      · simp [Nat.add_assoc]
    · rw [beq_eq_false_iff_ne.mpr he, beq_eq_false_iff_ne.mpr (Ne.symm he)]
      simp only [Bool.false_or, Bool.and_false, Bool.false_eq_true, ↓reduceIte]
      omega

theorem waiting_le (alive : NodeId → Bool) (edges : List Edge) :
    waiting alive edges ≤ edges.countP ofParent :=
  List.countP_mono_left fun _ _ h => (Bool.and_eq_true_iff.mp h).1

namespace State

variable {s : State} {r : Resolution}

/-- What can still be passed on: twice along each reference. -/
def due (s : State) : Nat :=
  waiting s.reached.contains s.edges.toList + waiting s.strong.contains s.edges.toList +
    (s.reachJoints.unresolved + s.strongJoints.unresolved)

/-- Whatever passes liveness on does so for a reference of its own. -/
structure Budgeted (s : State) : Prop where
  passages : ∀ id, (s.passages.getD id #[]).size ≤
    s.edges.toList.countP fun e => ofParent e && e.parent == id
  reachJoints : s.reachJoints.unresolved ≤ s.edges.toList.countP (!ofParent ·)
  strongJoints : s.strongJoints.unresolved ≤ s.edges.toList.countP (!ofParent ·)

theorem Budgeted.init : Budgeted {} where
  passages := by simp
  reachJoints := by simp [JointIndex.unresolved]
  strongJoints := by simp [JointIndex.unresolved]

theorem Budgeted.due_le (h : s.Budgeted) : s.due ≤ 2 * s.edges.size := by
  have hsplit := List.length_eq_countP_add_countP ofParent (l := s.edges.toList)
  have hr := waiting_le s.reached.contains s.edges.toList
  have hs := waiting_le s.strong.contains s.edges.toList
  have hrj := h.reachJoints
  have hsj := h.strongJoints
  simp only [Array.length_toList, Bool.not_eq_true, Bool.decide_eq_false] at hsplit
  unfold due
  omega

/-- What a node that turns out to be alive takes from the references that wait. -/
theorem waiting_accept (alive alive' : NodeId → Bool) (new : Bool) (id : NodeId)
    (hnew : new = true → alive id = false) (ha : ∀ o, alive' o = (new && id == o || alive o))
    (edges : List Edge) :
    waiting alive' edges +
      (if new then edges.countP fun e => ofParent e && e.parent == id else 0) =
        waiting alive edges := by
  cases new with
  | false =>
    obtain rfl : alive' = alive := funext fun o => by rw [ha, Bool.false_and, Bool.false_or]
    rfl
  | true =>
    exact (waiting_eq (hnew rfl) (fun o => by rw [ha, Bool.true_and]) edges).symm

theorem length_joint (strong : JointResolution Nat → Bool) (fired : List (JointResolution Nat)) :
    (joint strong fired).length = fired.length :=
  List.length_map _

/-- A node passes its liveness on along references of its own. -/
theorem Budgeted.length_passed (h : s.Budgeted) (r : Resolution) (newlyReached : Bool) :
    ((s.accept r).passed r.child newlyReached).length ≤
      s.edges.toList.countP fun e => ofParent e && e.parent == r.child := by
  have hp : (s.accept r).passages = s.passages := by rw [accept_eq]
  rw [passed, List.length_map, hp]
  exact Nat.le_trans (List.length_filter_le ..) (h.passages r.child)

/-- What a new resolution brings about is no longer due. -/
theorem Budgeted.length_broughtAbout (h : s.Budgeted)
    (hnew : (s.isNewlyReached r || s.isNewlyStrong r) = true) :
    (s.broughtAbout r).length + (s.next.resolve r).due ≤ s.due := by
  have hreach := waiting_accept s.reached.contains (s.accept r).reached.contains
    (s.isNewlyReached r) r.child
    (by simp [isNewlyReached]) (fun o => by
      rw [contains_reached_accept, isNewlyReached]
      by_cases ho : r.child = o
      · subst ho; cases s.reached.contains r.child <;> simp
      · rw [beq_eq_false_iff_ne.mpr ho, Bool.and_false]) s.edges.toList
  have hstrong := waiting_accept s.strong.contains (s.accept r).strong.contains
    (s.isNewlyStrong r) r.child
    (by simp [isNewlyStrong]) (fun o => by
      rw [contains_strong_accept, isNewlyStrong]
      by_cases ho : r.child = o
      · subst ho; cases r.strong <;> cases s.strong.contains r.child <;> simp
      · rw [beq_eq_false_iff_ne.mpr ho, Bool.and_false, Bool.and_false]) s.edges.toList
  have hpassed := h.length_passed r (s.isNewlyReached r)
  have hrj := s.reachJoints.length_settle r.child
  have hsj := s.strongJoints.length_settle r.child
  have hdue : (s.next.resolve r).due =
      waiting (s.accept r).reached.contains s.edges.toList +
        waiting (s.accept r).strong.contains s.edges.toList +
        ((if s.isNewlyReached r then (s.reachJoints.settle r.child).2
            else s.reachJoints).unresolved +
          (if s.isNewlyStrong r then (s.strongJoints.settle r.child).2
            else s.strongJoints).unresolved) := by
    rw [State.resolve_of_new (s := s.next) hnew, accept_next, accept_eq]
    rfl
  rw [hdue, broughtAbout, List.length_append, List.length_append, due]
  cases hr : s.isNewlyReached r <;> cases hs : s.isNewlyStrong r <;>
    simp only [hr, hs, Bool.or_self, Bool.false_eq_true, ↓reduceIte, length_joint,
      List.length_nil] at hnew hreach hstrong hpassed ⊢ <;>
    omega

/-- The next resolution takes effect on a state that keeps its references. -/
theorem Budgeted.resolve (h : s.Budgeted) (r : Resolution) : (s.next.resolve r).Budgeted := by
  by_cases hnew : (s.isNewlyReached r || s.isNewlyStrong r) = true
  · have hrj := s.reachJoints.length_settle r.child
    have hsj := s.strongJoints.length_settle r.child
    rw [State.resolve_of_new (s := s.next) hnew, accept_next, accept_eq]
    refine ⟨h.passages, Nat.le_trans ?_ h.reachJoints, Nat.le_trans ?_ h.strongJoints⟩
    · show (if s.isNewlyReached r then (s.reachJoints.settle r.child).2
        else s.reachJoints).unresolved ≤ _
      split <;> omega
    · show (if s.isNewlyStrong r then (s.strongJoints.settle r.child).2
        else s.strongJoints).unresolved ≤ _
      split <;> omega
  · rw [Bool.not_eq_true, Bool.or_eq_false_iff] at hnew
    rw [resolve_of_not_new (s := s.next) hnew.1 hnew.2]
    exact ⟨h.passages, h.reachJoints, h.strongJoints⟩

/-- What is reached once a resolution has taken effect. -/
theorem contains_reached_resolve (s : State) (r : Resolution) (id : NodeId) :
    (s.next.resolve r).reached.contains id =
      (s.isNewlyReached r && r.child == id || s.reached.contains id) := by
  by_cases hnew : (s.isNewlyReached r || s.isNewlyStrong r) = true
  · rw [State.resolve_of_new (s := s.next) hnew, accept_next]
    show (s.accept r).reached.contains id = _
    rw [contains_reached_accept, isNewlyReached]
    by_cases hid : r.child = id
    · subst hid
      cases s.reached.contains r.child <;> simp
    · rw [beq_eq_false_iff_ne.mpr hid, Bool.and_false]
  · rw [Bool.not_eq_true, Bool.or_eq_false_iff] at hnew
    rw [resolve_of_not_new (s := s.next) hnew.1 hnew.2, hnew.1]
    rfl

/-- What is strongly reached once a resolution has taken effect. -/
theorem contains_strong_resolve (s : State) (r : Resolution) (id : NodeId) :
    (s.next.resolve r).strong.contains id =
      (s.isNewlyStrong r && r.child == id || s.strong.contains id) := by
  by_cases hnew : (s.isNewlyReached r || s.isNewlyStrong r) = true
  · rw [State.resolve_of_new (s := s.next) hnew, accept_next]
    show (s.accept r).strong.contains id = _
    rw [contains_strong_accept, isNewlyStrong]
    by_cases hid : r.child = id
    · subst hid
      cases r.strong <;> cases s.strong.contains r.child <;> simp
    · rw [beq_eq_false_iff_ne.mpr hid, Bool.and_false, Bool.and_false]
  · rw [Bool.not_eq_true, Bool.or_eq_false_iff] at hnew
    rw [resolve_of_not_new (s := s.next) hnew.1 hnew.2, hnew.2]
    rfl

/-- Every resolution has taken effect. -/
def Drained (s : State) : Prop := s.settled = s.log

/-- As many steps as resolutions wait and are due are enough. -/
theorem Budgeted.drained_drainWithin (h : s.Budgeted) (hle : s.resolved ≤ s.log.length)
    {steps : Nat} (hsteps : s.log.length - s.resolved + s.due ≤ steps) :
    (s.drainWithin steps).Drained := by
  induction steps generalizing s with
  | zero => exact List.take_of_length_le (show s.log.length ≤ s.resolved by omega)
  | succ steps ih =>
    unfold drainWithin
    split
    · rename_i hnone
      exact List.take_of_length_le (by simpa [log] using hnone)
    · rename_i r hr
      have hlt : s.resolved < s.log.length := (Array.getElem?_eq_some_iff.mp hr).1
      show ((s.next.resolve r).drainWithin steps).Drained
      by_cases hnew : (s.isNewlyReached r || s.isNewlyStrong r) = true
      · have hresolved : (s.next.resolve r).resolved = s.resolved + 1 := by
          rw [State.resolve_of_new (s := s.next) hnew, accept_next]; rfl
        have hlog := congrArg List.length (log_resolve_of_new hnew)
        have hdue := h.length_broughtAbout hnew
        rw [List.length_append] at hlog
        exact ih (h.resolve r) (by omega) (by omega)
      · rw [Bool.not_eq_true, Bool.or_eq_false_iff] at hnew
        have hkept := resolve_of_not_new (s := s.next) hnew.1 hnew.2
        have hdue : s.next.due = s.due := rfl
        have hlog : s.next.log = s.log := rfl
        have hresolved : s.next.resolved = s.resolved + 1 := rfl
        have hb := h.resolve r
        rw [hkept] at hb ⊢
        exact ih hb (by rw [hlog, hresolved]; omega) (by rw [hlog, hresolved, hdue]; omega)

/-- Draining lets every resolution take effect. -/
theorem Budgeted.drained_drain (h : s.Budgeted) (hle : s.resolved ≤ s.log.length) :
    s.drain.Drained := by
  have hdue := h.due_le
  have hsize : s.log.length = s.resolutions.size := Array.length_toList
  exact h.drained_drainWithin hle (by unfold drainBound; omega)

/-! ## New references -/

/-- A reference that passes nothing on. -/
theorem Budgeted.addEdge (h : s.Budgeted) (e : Edge) :
    { s with edges := s.edges.push e }.Budgeted := by
  have hpush : ∀ p : Edge → Bool, s.edges.toList.countP p ≤ (s.edges.push e).toList.countP p :=
    fun p => by rw [Array.toList_push, List.countP_append]; exact Nat.le_add_right ..
  exact ⟨fun id => Nat.le_trans (h.passages id) (hpush _), Nat.le_trans h.reachJoints (hpush _),
    Nat.le_trans h.strongJoints (hpush _)⟩

/-- A reference that its parent passes liveness along. -/
theorem Budgeted.propagate (h : s.Budgeted) {e : Edge} (he : e.owners = []) (p : Passage) :
    ({ s with edges := s.edges.push e }.propagate e.parent p).Budgeted := by
  have hb := h.addEdge e
  rw [propagate_eq]
  refine ⟨fun id => ?_, hb.reachJoints, hb.strongJoints⟩
  show ((s.passages.insert e.parent ((s.passages.getD e.parent #[]).push p)).getD id #[]).size ≤
    (s.edges.push e).toList.countP _
  rw [Std.HashMap.getD_insert]
  by_cases hid : e.parent = id
  · subst hid
    have hp := h.passages e.parent
    rw [if_pos BEq.rfl, Array.size_push, Array.toList_push, List.countP_append,
      List.countP_singleton, ofParent, he, if_pos (by simp)]
    exact Nat.succ_le_succ hp
  · rw [beq_eq_false_iff_ne.mpr hid, if_neg Bool.false_ne_true]
    exact hb.passages id

/-- A joint reference. -/
theorem Budgeted.trackJoint (h : s.Budgeted) (e : Edge) (child : NodeId) (edge : Nat) :
    ({ s with edges := s.edges.push e }.trackJoint child e.owners edge).Budgeted := by
  have hadd : ∀ (x : JointIndex) (alive : NodeId → Bool),
      x.unresolved ≤ s.edges.toList.countP (!ofParent ·) →
      (x.add alive child e.owners edge).2.unresolved ≤
        (s.edges.push e).toList.countP (!ofParent ·) := fun x alive hx => by
    rw [JointIndex.unresolved_add, Array.toList_push, List.countP_append, List.countP_singleton]
    have hjoint : ofParent e = e.owners.isEmpty := rfl
    cases ho : e.owners with
    | nil => simpa [hjoint, ho] using hx
    | cons o rest =>
      rw [hjoint, ho, List.isEmpty_cons, Bool.not_false, if_pos rfl]
      split <;> omega
  rw [trackJoint_eq]
  exact ⟨(h.addEdge e).passages, hadd _ _ h.reachJoints, hadd _ _ h.strongJoints⟩

/-! ## What liveness spreads to -/

/-- The least set that holds the held nodes and is closed under the rules, or
under the strong ones among them. -/
inductive Spreads (s : State) (strongly : Bool) : NodeId → Prop where
  | held {r : Resolution} (hr : r ∈ s.log) (hh : r.IsHeld) : s.Spreads strongly r.child
  | rule {ρ : Rule} (hρ : s.HasRule ρ) (hs : strongly = true → ρ.strong = true)
    (hp : ∀ o ∈ ρ.premises, s.Spreads strongly o) : s.Spreads strongly ρ.child

end State

/-- What holds of a resolution once it holds of those that support it. -/
theorem Grounded.forall_mem {log : List Resolution} (h : Grounded log) {P : Resolution → Prop}
    (hstep : ∀ r ∈ log, (∀ o ∈ r.owners, ∃ q, q.child = o ∧ (r.strong = true → q.strong = true) ∧
      P q) → P r) : ∀ r ∈ log, P r := by
  induction h with
  | nil => simp
  | @snoc log r hlog hr ih =>
    have hold := ih fun q hq => hstep q (List.mem_append_left _ hq)
    intro q hq
    rw [List.mem_append, List.mem_singleton] at hq
    rcases hq with hq | rfl
    · exact hold q hq
    · refine hstep q (List.mem_append_right _ (List.mem_singleton_self q)) fun o ho => ?_
      obtain ⟨q', hq', hqo, hqs⟩ := hr o ho
      exact ⟨q', hqo, hqs, hold q' hq'⟩

namespace State

variable {s : State}

/-- The nodes of the log are alive, and strongly so where it says it. -/
theorem Coherent.spreads_of_mem (h : s.Coherent) : ∀ r ∈ s.log,
    s.Spreads false r.child ∧ (r.strong = true → s.Spreads true r.child) :=
  h.grounded.forall_mem fun r hr hown => by
    rcases h.sound r hr with hh | ⟨ρ, hρ, hby⟩
    · exact ⟨.held hr hh, fun _ => .held hr hh⟩
    · rw [hby.owners] at hown
      rw [hby.child]
      refine ⟨.rule hρ (by simp) fun o ho => ?_, fun hs => .rule hρ (fun _ => hby.strong hs)
        fun o ho => ?_⟩
      · obtain ⟨q, rfl, -, hq, -⟩ := hown o ho
        exact hq
      · obtain ⟨q, rfl, hqs, -, hq⟩ := hown o ho
        exact hq (hqs hs)

/-- In a drained search the nodes that are reached are those that liveness
spreads to. -/
theorem Coherent.reached_iff_spreads (h : s.Coherent) (hd : s.Drained) (id : NodeId) :
    s.reached.contains id = true ↔ s.Spreads false id := by
  refine ⟨fun hid => ?_, fun hid => ?_⟩
  · obtain ⟨r, hr, rfl⟩ := (h.reached_iff id).mp hid
    exact (h.spreads_of_mem r (List.mem_of_mem_take hr)).1
  · induction hid with
    | held hr hh => exact (h.reached_iff _).mpr ⟨_, hd.symm ▸ hr, rfl⟩
    | rule hρ _ _ ih =>
      obtain ⟨r, hr, hby⟩ := h.complete _ hρ ih
      exact (h.reached_iff _).mpr ⟨r, hd.symm ▸ hr, hby.child⟩

/-- In a drained search the nodes that are strongly reached are those that
liveness spreads to along strong rules. -/
theorem Coherent.strong_iff_spreads (h : s.Coherent) (hd : s.Drained) (id : NodeId) :
    s.strong.contains id = true ↔ s.Spreads true id := by
  refine ⟨fun hid => ?_, fun hid => ?_⟩
  · obtain ⟨r, hr, rfl, hs⟩ := (h.strong_iff id).mp hid
    exact (h.spreads_of_mem r (List.mem_of_mem_take hr)).2 hs
  · induction hid with
    | held hr hh => exact (h.strong_iff _).mpr ⟨_, hd.symm ▸ hr, rfl, hh.2.2⟩
    | rule hρ hs _ ih =>
      obtain ⟨r, hr, hby, hrs⟩ := h.strongComplete _ hρ (hs rfl) ih
      exact (h.strong_iff _).mpr ⟨r, hd.symm ▸ hr, hby.child, hrs⟩

end State
end Retention.Search
