import Retention.Proofs.Realm.History

/-!
# Handlers attached before and after settlement

Handlers can be attached to a pending promise before it is settled or after.
Both take different ways: reactions that are attached first wait with the
promise, and those attached later become jobs at once, for which the promise may
have to be taken off the list of unhandled rejections. The realm that is left is
the same (`Realm.exec_attach_settle`).

* `PromiseSlots.after_attach_settle`, `PromiseSlots.due_attach_settle`: the slots
  of the promise, and the jobs.
* `Realm.acted_attach_settle`: the realm.
-/

namespace Retention

namespace PromiseSlots

variable {slots : PromiseSlots} (hpending : slots.state = .pending) (a : Attachment)
  (settlement : Settlement)

include hpending

theorem after_attach_settle :
    (slots.after (.attach a)).after (.settle settlement) =
      (slots.after (.settle settlement)).after (.attach a) := by
  cases settlement <;> simp only [after, hpending, Settlement.state]

/-- The reactions that wait become jobs before the one that is attached last. -/
theorem due_attach_settle :
    slots.due (.attach a) ++ (slots.after (.attach a)).due (.settle settlement) =
      slots.due (.settle settlement) ++ (slots.after (.settle settlement)).due (.attach a) := by
  have hnone : slots.due (.attach a) = [] := by
    rw [due, settlement?_eq_none_iff.mpr hpending]
    rfl
  have hone : (slots.after (.settle settlement)).due (.attach a) = [a.job settlement] := by
    rw [due, settlement?_settle]
    rfl
  rw [hnone, hone]
  cases settlement <;> simp [due, reactions, after, hpending, Attachment.job]

end PromiseSlots

namespace Realm

variable {r : Realm} {promise : ObjectRef} {slots : PromiseSlots}

/-- A promise that is rejected is unhandled until a handler is attached. -/
theorem unhandled_attach_settle (hpending : slots.state = .pending)
    (hnew : promise ∉ r.unhandled.toList) (a : Attachment) (settlement : Settlement) :
    ((r.acted promise slots (.attach a)).acted promise (slots.after (.attach a))
        (.settle settlement)).unhandled =
      ((r.acted promise slots (.settle settlement)).acted promise (slots.after (.settle settlement))
        (.attach a)).unhandled := by
  cases settlement with
  | fulfilled value =>
    simp [acted, unhandledAfter, PromiseSlots.after, hpending, Settlement.state]
  | rejected reason =>
    have hkept : r.unhandled.filter (· != promise) = r.unhandled := by
      refine Sequence.toList_injective ?_
      rw [Sequence.toList_filter, List.filter_eq_self]
      exact fun other hother => bne_iff_ne.mpr fun heq => hnew (heq ▸ hother)
    have hforgotten : (r.unhandled.push promise).filter (· != promise) = r.unhandled := by
      refine Sequence.toList_injective ?_
      rw [Sequence.toList_filter, Sequence.toList_push, List.filter_append,
        ← Sequence.toList_filter, hkept]
      simp
    cases hhandled : slots.handled <;>
      simp [acted, unhandledAfter, PromiseSlots.after, hpending, hhandled, hkept, hforgotten,
        Settlement.state]

theorem acted_attach_settle (hpending : slots.state = .pending)
    (hnew : promise ∉ r.unhandled.toList) (a : Attachment) (settlement : Settlement) :
    (r.acted promise slots (.attach a)).acted promise (slots.after (.attach a))
        (.settle settlement) =
      (r.acted promise slots (.settle settlement)).acted promise (slots.after (.settle settlement))
        (.attach a) := by
  have hjobs := congrArg r.jobs.pushAll (PromiseSlots.due_attach_settle hpending a settlement)
  rw [JobQueue.pushAll_append, JobQueue.pushAll_append] at hjobs
  have hunhandled := unhandled_attach_settle hpending hnew a settlement
  simp only [acted, Heap.withPromise_withPromise, Realm.mk.injEq, true_and, and_true]
    at hunhandled ⊢
  exact ⟨congrArg _ (PromiseSlots.after_attach_settle hpending a settlement), hjobs, hunhandled⟩

/-- What happens to a promise makes no slots. -/
theorem size_acted (r : Realm) (promise : ObjectRef) (slots : PromiseSlots) (act : PromiseAct) :
    (r.acted promise slots act).heap.size = r.heap.size :=
  Heap.size_withPromise ..

/-- A promise can be made before or after something happens to another. -/
theorem withNewPromise_acted (hs : r.heap.promiseSlots? promise = some slots) (act : PromiseAct) :
    (r.acted promise slots act).withNewPromise = r.withNewPromise.acted promise slots act := by
  simp only [withNewPromise, acted, Heap.alloc_withPromise hs]
  rfl

/-- Whether handlers can be called does not depend on a promise. -/
theorem handlers_acted (hs : r.heap.promiseSlots? promise = some slots) (act : PromiseAct)
    (onFulfilled onRejected : Value) (derived : ObjectRef) :
    (r.acted promise slots act).handlers onFulfilled onRejected derived =
      r.handlers onFulfilled onRejected derived := by
  simp only [handlers, acted, Heap.callable?_withPromise hs]

/-- Handlers that are attached to a pending promise before it is settled and
after leave the same realm, with the same derived promise. -/
theorem exec_attach_settle (hs : r.heap.promiseSlots? promise = some slots)
    (hpending : slots.state = .pending) (hnew : promise ∉ r.unhandled.toList)
    (onFulfilled onRejected : Value) (settlement : Settlement) :
    ∃ derived r',
      exec (do
        let derived ← promiseThen promise onFulfilled onRejected
        settlePromise promise settlement
        return derived) r = (.ok derived, r') ∧
      exec (do
        settlePromise promise settlement
        promiseThen promise onFulfilled onRejected) r = (.ok derived, r') := by
  have hs' : r.withNewPromise.heap.promiseSlots? promise = some slots :=
    Heap.promiseSlots?_alloc hs _ _
  let a := r.handlers onFulfilled onRejected ⟨r.heap.size⟩
  refine ⟨⟨r.heap.size⟩, (r.withNewPromise.acted promise slots (.attach a)).acted promise
    (slots.after (.attach a)) (.settle settlement), ?_, ?_⟩
  · have hattached := promiseSlots?_acted hs' (.attach a)
    have hwaits : (slots.after (.attach a)).state = .pending := by
      simp only [PromiseSlots.after, hpending]
    rw [exec_bind_of_ok (exec_promiseThen hs ..),
      exec_bind_of_ok (exec_settlePromise hattached hwaits settlement)]
    rfl
  · have hsettled := promiseSlots?_acted hs (.settle settlement)
    rw [exec_bind_of_ok (exec_settlePromise hs hpending settlement), exec_promiseThen hsettled,
      withNewPromise_acted hs, handlers_acted hs, size_acted,
      ← acted_attach_settle (r := r.withNewPromise) hpending hnew]

end Realm
end Retention
