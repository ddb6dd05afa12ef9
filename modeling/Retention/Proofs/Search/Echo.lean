import Mathlib.Data.List.Forall2
import Retention.Proofs.Search.Draining

/-!
# Liveness under other numbers

How liveness spreads does not depend on the numbers of the references: two
searches whose references correspond, by numbers that do, know the same about
their nodes and queue the same resolutions, but for the numbers
(`State.Echoes`).

* `Echoes.propagate`, `Echoes.trackJoint`: corresponding references;
* `Echoes.drain`: resolutions that take effect.
-/

namespace Retention

/-! ## Related lists -/

section

variable {α β : Type} {R : α → β → Prop} {as : List α} {bs : List β}

theorem rel_getElem? (h : List.Forall₂ R as bs) (i : Nat) : Option.Rel R as[i]? bs[i]? := by
  induction h generalizing i with
  | nil => exact .none
  | cons hab _ ih =>
    cases i with
    | zero => exact .some hab
    | succ i => exact ih i

theorem rel_set (h : List.Forall₂ R as bs) (i : Nat) {a : α} {b : β} (hab : R a b) :
    List.Forall₂ R (as.set i a) (bs.set i b) := by
  induction h generalizing i with
  | nil => exact .nil
  | cons hcd hrest ih =>
    cases i with
    | zero => exact .cons hab hrest
    | succ i => exact .cons hcd (ih i)

theorem rel_snoc (h : List.Forall₂ R as bs) {a : α} {b : β} (hab : R a b) :
    List.Forall₂ R (as ++ [a]) (bs ++ [b]) := List.rel_append h (.cons hab .nil)

theorem rel_toList {a? : Option α} {b? : Option β} (h : Option.Rel R a? b?) :
    List.Forall₂ R a?.toList b?.toList := by
  cases h with
  | none => exact .nil
  | some hab => exact .cons hab .nil

theorem rel_weaken {S : α → β → Prop} {a? : Option α} {b? : Option β} (h : Option.Rel R a? b?)
    (hRS : ∀ {a b}, R a b → S a b) : Option.Rel S a? b? := by
  cases h with
  | none => exact .none
  | some hab => exact .some (hRS hab)

end

variable {num num' : Nat → Nat → Prop}

/-! ## Joint references -/

/-- What a joint reference yields, under corresponding numbers. -/
structure JointResolution.Echoes (num : Nat → Nat → Prop) (r q : JointResolution Nat) : Prop where
  child : r.child = q.child
  owners : r.owners = q.owners
  tag : num r.tag q.tag

/-- The same joint reference under corresponding numbers. -/
structure JointOwnership.Echoes (num : Nat → Nat → Prop) (j k : JointOwnership Nat) : Prop where
  child : j.child = k.child
  owners : j.owners = k.owners
  pending : j.pending = k.pending
  tag : num j.tag k.tag
  fired : j.fired = k.fired

theorem JointOwnership.Echoes.settle {j k : JointOwnership Nat} (h : j.Echoes num k) (id : NodeId) :
    (j.settle id).Echoes num (k.settle id) :=
  ⟨h.child, h.owners, congrArg (·.filter (· != id)) h.pending, h.tag, h.fired⟩

theorem JointOwnership.Echoes.fire? {j k : JointOwnership Nat} (h : j.Echoes num k) :
    Option.Rel (JointResolution.Echoes num) j.fire?.1 k.fire?.1 ∧ j.fire?.2.Echoes num k.fire?.2 := by
  have hpending : j.isPending = k.isPending := by rw [isPending, isPending, h.pending]
  unfold JointOwnership.fire?
  rw [h.fired, hpending]
  split
  · exact ⟨.none, h⟩
  · exact ⟨.some ⟨h.child, h.owners, h.tag⟩, h.child, h.owners, h.pending, h.tag, rfl⟩

/-- The same joint references under corresponding numbers. -/
structure JointIndex.Echoes (num : Nat → Nat → Prop) (x y : JointIndex) : Prop where
  joints : List.Forall₂ (JointOwnership.Echoes num) x.joints.toList y.joints.toList
  waiting : x.waiting = y.waiting

namespace JointIndex

variable {x y : JointIndex}

theorem Echoes.mono (h : x.Echoes num y) (hnum : ∀ {m n}, num m n → num' m n) : x.Echoes num' y where
  joints := h.joints.imp fun _ _ h => ⟨h.child, h.owners, h.pending, hnum h.tag, h.fired⟩
  waiting := h.waiting

theorem Echoes.add (h : x.Echoes num y) {alive alive' : NodeId → Bool} (halive : alive = alive')
    (child : NodeId) (owners : List NodeId) {m n : Nat} (hmn : num m n) :
    (x.add alive child owners m).2.Echoes num (y.add alive' child owners n).2 := by
  subst halive
  have hnew : (JointOwnership.new alive child owners m).Echoes num
      (JointOwnership.new alive child owners n) := ⟨rfl, rfl, rfl, hmn, rfl⟩
  have hfired := hnew.fire?.2
  have hsize : x.joints.size = y.joints.size := by
    rw [← Array.length_toList, ← Array.length_toList]
    exact h.joints.length_eq
  constructor
  · show List.Forall₂ _ (x.joints.push _).toList (y.joints.push _).toList
    rw [Array.toList_push, Array.toList_push]
    exact rel_snoc h.joints hfired
  · show List.foldl _ _ (JointOwnership.new alive child owners m).fire?.2.pending =
      List.foldl _ _ (JointOwnership.new alive child owners n).fire?.2.pending
    rw [hfired.pending, h.waiting, hsize]

theorem rel_settleAt (id : NodeId) (places : List Nat) {js ks : Array (JointOwnership Nat)}
    (h : List.Forall₂ (JointOwnership.Echoes num) js.toList ks.toList) :
    List.Forall₂ (JointResolution.Echoes num) (settleAt id places js).1 (settleAt id places ks).1 ∧
      List.Forall₂ (JointOwnership.Echoes num) (settleAt id places js).2.toList
        (settleAt id places ks).2.toList := by
  induction places generalizing js ks with
  | nil => exact ⟨.nil, h⟩
  | cons i rest ih =>
    have hi := rel_getElem? h i
    rw [Array.getElem?_toList, Array.getElem?_toList] at hi
    unfold settleAt
    revert hi
    cases js[i]? <;> cases ks[i]? <;> intro hi <;> cases hi
    · exact ih h
    · rename_i hjk
      obtain ⟨hfired, hjoint⟩ := (hjk.settle id).fire?
      have hset := rel_set h i hjoint
      rw [← Array.toList_setIfInBounds, ← Array.toList_setIfInBounds] at hset
      exact ⟨List.rel_append (rel_toList hfired) (ih hset).1, (ih hset).2⟩

theorem Echoes.settle (h : x.Echoes num y) (id : NodeId) :
    List.Forall₂ (JointResolution.Echoes num) (x.settle id).1 (y.settle id).1 ∧
      (x.settle id).2.Echoes num (y.settle id).2 := by
  unfold JointIndex.settle
  rw [h.waiting]
  obtain ⟨hfired, hjoints⟩ := rel_settleAt id (y.waiting.getD id []) h.joints
  exact ⟨hfired, hjoints, rfl⟩

end JointIndex

/-- The same confirmation under corresponding numbers. -/
structure Confirmation.Echoes (num : Nat → Nat → Prop) (c d : Confirmation) : Prop where
  child : c.child = d.child
  owners : c.owners = d.owners
  edge : num c.edge d.edge
  strong : c.strong = d.strong

namespace Search

/-- The same resolution under corresponding numbers. -/
structure Resolution.Echoes (num : Nat → Nat → Prop) (r q : Resolution) : Prop where
  child : r.child = q.child
  owners : r.owners = q.owners
  edge : Option.Rel num r.edge? q.edge?
  strong : r.strong = q.strong

/-- The same passage under corresponding numbers. -/
structure Passage.Echoes (num : Nat → Nat → Prop) (p q : Passage) : Prop where
  child : p.child = q.child
  edge : num p.edge q.edge
  strong : p.strong = q.strong

namespace State

/-- Two states know the same about liveness, under corresponding numbers of the
references. -/
structure Echoes (num : Nat → Nat → Prop) (s t : State) : Prop where
  confirmations : List.Forall₂ (Confirmation.Echoes num) s.confirmations.toList
    t.confirmations.toList
  confirmedAt : s.confirmedAt = t.confirmedAt
  reached : s.reached = t.reached
  strong : s.strong = t.strong
  log : List.Forall₂ (Resolution.Echoes num) s.log t.log
  resolved : s.resolved = t.resolved
  passages : ∀ id, List.Forall₂ (Passage.Echoes num) (s.passages.getD id #[]).toList
    (t.passages.getD id #[]).toList
  reachJoints : s.reachJoints.Echoes num t.reachJoints
  strongJoints : s.strongJoints.Echoes num t.strongJoints

theorem Echoes.init : Echoes num {} {} where
  confirmations := .nil
  confirmedAt := rfl
  reached := rfl
  strong := rfl
  log := .nil
  resolved := rfl
  passages id := by simp
  reachJoints := ⟨.nil, rfl⟩
  strongJoints := ⟨.nil, rfl⟩

variable {s s' t t' : State}

/-- More numbers may correspond. -/
theorem Echoes.mono (h : s.Echoes num t) (hnum : ∀ {m n}, num m n → num' m n) :
    s.Echoes num' t where
  confirmations := h.confirmations.imp fun _ _ h => ⟨h.child, h.owners, hnum h.edge, h.strong⟩
  confirmedAt := h.confirmedAt
  reached := h.reached
  strong := h.strong
  log := h.log.imp fun _ _ h => ⟨h.child, h.owners, rel_weaken h.edge hnum, h.strong⟩
  resolved := h.resolved
  passages id := (h.passages id).imp fun _ _ h => ⟨h.child, hnum h.edge, h.strong⟩
  reachJoints := h.reachJoints.mono hnum
  strongJoints := h.strongJoints.mono hnum

/-- New resolutions that correspond. -/
theorem Echoes.pushAll (h : s.Echoes num t) {news news' : List Resolution}
    (hnews : List.Forall₂ (Resolution.Echoes num) news news') :
    (s.pushAll news).Echoes num (t.pushAll news') :=
  { h with
    log := by
      rw [log_pushAll, log_pushAll]
      exact List.rel_append h.log hnews
    passages := h.passages }

theorem Echoes.propagate (h : s.Echoes num t) (parent : NodeId) {p q : Passage}
    (hpq : p.Echoes num q) : (s.propagate parent p).Echoes num (t.propagate parent q) := by
  have hpassed : State.Echoes num
      { s with passages := s.passages.insert parent ((s.passages.getD parent #[]).push p) }
      { t with passages := t.passages.insert parent ((t.passages.getD parent #[]).push q) } :=
    { h with
      log := h.log
      passages := fun id => by
        simp only [Std.HashMap.getD_insert]
        split
        · rw [Array.toList_push, Array.toList_push]
          exact rel_snoc (h.passages parent) hpq
        · exact h.passages id }
  have hnews : List.Forall₂ (Resolution.Echoes num) (s.propagated parent p)
      (t.propagated parent q) := by
    unfold propagated
    rw [h.reached, h.strong, hpq.child, hpq.strong]
    split
    · exact .cons ⟨rfl, rfl, .some hpq.edge, rfl⟩ .nil
    · exact .nil
  rw [propagate_eq, propagate_eq]
  exact hpassed.pushAll hnews

/-- Other joint references that correspond. -/
theorem Echoes.withJoints (h : s.Echoes num t) {reach reach' strong strong' : JointIndex}
    (hreach : reach.Echoes num reach') (hstrong : strong.Echoes num strong') :
    State.Echoes num { s with reachJoints := reach, strongJoints := strong }
      { t with reachJoints := reach', strongJoints := strong' } :=
  { h with log := h.log, passages := h.passages, reachJoints := hreach, strongJoints := hstrong }

theorem Echoes.trackJoint (h : s.Echoes num t) (child : NodeId) (owners : List NodeId) {m n : Nat}
    (hmn : num m n) : (s.trackJoint child owners m).Echoes num (t.trackJoint child owners n) := by
  have hnews : List.Forall₂ (Resolution.Echoes num) (s.tracked child owners m)
      (t.tracked child owners n) := by
    unfold tracked
    rw [h.reached, h.strong]
    split
    · exact .cons ⟨rfl, rfl, .some hmn, rfl⟩ .nil
    · split
      · exact .cons ⟨rfl, rfl, .some hmn, rfl⟩ .nil
      · exact .nil
  rw [trackJoint_eq, trackJoint_eq]
  exact (h.withJoints (h.reachJoints.add (by rw [h.reached]) child owners hmn)
    (h.strongJoints.add (by rw [h.strong]) child owners hmn)).pushAll hnews

/-! ## Resolutions that take effect -/

theorem Echoes.confirm (h : s.Echoes num t) {c d : Confirmation} (hcd : c.Echoes num d) :
    (s.confirm c).Echoes num (t.confirm d) := by
  have hsize : s.confirmations.size = t.confirmations.size := by
    rw [← Array.length_toList, ← Array.length_toList]
    exact h.confirmations.length_eq
  unfold State.confirm
  rw [h.confirmedAt, hcd.child]
  split
  · exact { h with
      confirmedAt := rfl
      confirmations := by
        rw [Array.toList_setIfInBounds, Array.toList_setIfInBounds]
        exact rel_set h.confirmations _ hcd
      log := h.log
      passages := h.passages }
  · exact { h with
      confirmedAt := by rw [hsize]
      confirmations := by
        rw [Array.toList_push, Array.toList_push]
        exact rel_snoc h.confirmations hcd
      log := h.log
      passages := h.passages }

variable {r q : Resolution}

theorem Echoes.accept (h : s.Echoes num t) (hrq : r.Echoes num q) :
    (s.accept r).Echoes num (t.accept q) := by
  obtain ⟨child, owners, edge?, strong⟩ := r
  obtain ⟨child', owners', edge?', strong'⟩ := q
  obtain ⟨rfl, rfl, hedge, rfl⟩ := hrq
  have hreached : State.Echoes num { s with reached := s.reached.insert child }
      { t with reached := t.reached.insert child } :=
    { h with reached := congrArg (·.insert child) h.reached, log := h.log, passages := h.passages }
  have hstrong : State.Echoes num
      (if strong then
        { s with reached := s.reached.insert child, strong := s.strong.insert child }
      else { s with reached := s.reached.insert child })
      (if strong then
        { t with reached := t.reached.insert child, strong := t.strong.insert child }
      else { t with reached := t.reached.insert child }) := by
    split
    · exact { hreached with
        strong := congrArg (·.insert child) h.strong, log := h.log, passages := h.passages }
    · exact hreached
  cases hedge with
  | none => exact hstrong
  | some hmn => exact hstrong.confirm ⟨rfl, rfl, hmn, rfl⟩

theorem rel_joint {strong strong' : JointResolution Nat → Bool}
    (hstrong : ∀ {j k : JointResolution Nat}, j.Echoes num k → strong j = strong' k)
    {fired fired' : List (JointResolution Nat)}
    (h : List.Forall₂ (JointResolution.Echoes num) fired fired') :
    List.Forall₂ (Resolution.Echoes num) (joint strong fired) (joint strong' fired') :=
  List.rel_map (fun _ _ hjk => ⟨hjk.child, hjk.owners, .some hjk.tag, hstrong hjk⟩) h

theorem Echoes.passed (h : s.Echoes num t) (id : NodeId) (newlyReached : Bool) :
    List.Forall₂ (Resolution.Echoes num) (s.passed id newlyReached) (t.passed id newlyReached) := by
  unfold State.passed
  rw [h.strong]
  refine List.rel_map (fun p q hpq => ?_) (List.rel_filter (fun p q hpq => ?_) (h.passages id))
  · exact ⟨hpq.child, rfl, .some hpq.edge, by rw [hpq.strong]⟩
  · show (newlyReached || p.strong) = true ↔ (newlyReached || q.strong) = true
    rw [hpq.strong]

theorem Echoes.broughtAbout (h : s.Echoes num t) (hrq : r.Echoes num q) :
    List.Forall₂ (Resolution.Echoes num) (s.broughtAbout r) (t.broughtAbout q) := by
  have haccept := h.accept hrq
  have hreached : s.isNewlyReached r = t.isNewlyReached q := by
    rw [isNewlyReached, isNewlyReached, h.reached, hrq.child]
  have hstrong : s.isNewlyStrong r = t.isNewlyStrong q := by
    rw [isNewlyStrong, isNewlyStrong, h.strong, hrq.child, hrq.strong]
  unfold State.broughtAbout
  rw [hreached, hstrong, hrq.child]
  refine List.rel_append (haccept.passed q.child _) (List.rel_append ?_ ?_)
  · split
    · refine rel_joint (fun hjk => ?_) (h.reachJoints.settle q.child).1
      rw [hjk.owners, haccept.strong]
    · exact .nil
  · split
    · exact rel_joint (fun _ => rfl) (h.strongJoints.settle q.child).1
    · exact .nil

/-- Corresponding resolutions take effect alike. -/
theorem Echoes.resolve (h : s.Echoes num t) (hrq : r.Echoes num q) :
    (s.resolve r).Echoes num (t.resolve q) := by
  have hreached : s.isNewlyReached r = t.isNewlyReached q := by
    rw [isNewlyReached, isNewlyReached, h.reached, hrq.child]
  have hstrong : s.isNewlyStrong r = t.isNewlyStrong q := by
    rw [isNewlyStrong, isNewlyStrong, h.strong, hrq.child, hrq.strong]
  by_cases hnew : (s.isNewlyReached r || s.isNewlyStrong r) = true
  · rw [resolve_of_new hnew, resolve_of_new (by rwa [← hreached, ← hstrong])]
    have haccept := h.accept hrq
    have hreach : JointIndex.Echoes num
        (if s.isNewlyReached r then (s.reachJoints.settle r.child).2 else s.reachJoints)
        (if t.isNewlyReached q then (t.reachJoints.settle q.child).2 else t.reachJoints) := by
      rw [← hreached, hrq.child]
      split
      · exact (h.reachJoints.settle q.child).2
      · exact h.reachJoints
    have hstrongly : JointIndex.Echoes num
        (if s.isNewlyStrong r then (s.strongJoints.settle r.child).2 else s.strongJoints)
        (if t.isNewlyStrong q then (t.strongJoints.settle q.child).2 else t.strongJoints) := by
      rw [← hstrong, hrq.child]
      split
      · exact (h.strongJoints.settle q.child).2
      · exact h.strongJoints
    exact (haccept.withJoints hreach hstrongly).pushAll (h.broughtAbout hrq)
  · rw [Bool.not_eq_true, Bool.or_eq_false_iff] at hnew
    rw [resolve_of_not_new hnew.1 hnew.2,
      resolve_of_not_new (hreached ▸ hnew.1) (hstrong ▸ hnew.2)]
    exact h

theorem Echoes.drainWithin (h : s.Echoes num t) (steps : Nat) :
    (s.drainWithin steps).Echoes num (t.drainWithin steps) := by
  induction steps generalizing s t with
  | zero => exact h
  | succ steps ih =>
    have hlog := rel_getElem? h.log s.resolved
    rw [State.log, State.log, Array.getElem?_toList, Array.getElem?_toList] at hlog
    unfold State.drainWithin
    rw [← h.resolved]
    revert hlog
    cases s.resolutions[s.resolved]? <;> cases t.resolutions[s.resolved]? <;> intro hlog <;>
      cases hlog
    · exact h
    · rename_i hrq
      have hnext : State.Echoes num { s with resolved := s.resolved + 1 }
          { t with resolved := s.resolved + 1 } :=
        { h with resolved := rfl, log := h.log, passages := h.passages }
      exact ih (hnext.resolve hrq)

/-- Where nothing is left to resolve, more steps change nothing. -/
theorem drainWithin_add {steps : Nat} (hd : (s.drainWithin steps).Drained) (more : Nat) :
    s.drainWithin (steps + more) = s.drainWithin steps := by
  induction steps generalizing s with
  | zero =>
    have hnone : s.resolutions[s.resolved]? = none := by
      have hlen := congrArg List.length hd
      rw [settled, List.length_take] at hlen
      refine Array.getElem?_eq_none_iff.mpr ?_
      have hsize : s.log.length = s.resolutions.size := Array.length_toList
      show s.resolutions.size ≤ s.resolved
      have : min s.resolved s.log.length = s.log.length := hlen
      omega
    cases more with
    | zero => rfl
    | succ more =>
      rw [Nat.zero_add]
      show State.drainWithin (more + 1) s = s
      rw [State.drainWithin, hnone]
  | succ steps ih =>
    rw [Nat.add_right_comm]
    unfold State.drainWithin at hd ⊢
    split
    · rfl
    · rename_i hr
      simp only [hr] at hd
      exact ih hd

/-- Two searches that echo each other do so once nothing is left to resolve. -/
theorem Echoes.drain (h : s.Echoes num t) (hs : s.drain.Drained) (ht : t.drain.Drained) :
    s.drain.Echoes num t.drain := by
  have hdrain := h.drainWithin (s.drainBound + t.drainBound)
  rw [drainWithin_add hs, Nat.add_comm, drainWithin_add ht] at hdrain
  exact hdrain

end State
end Search
end Retention
