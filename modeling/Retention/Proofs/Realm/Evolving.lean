import Retention.Proofs.Realm.Changing
import Retention.Proofs.Walking

/-!
# Changes go along histories

Whatever changes an operation on a realm makes, they go along a history of the
promises of the realm (`Changes.exists_history`).
-/

namespace Retention.Realm

variable {fresh : PromiseSlots → Prop} {host : Prop} {r r' : Realm} {h : Heap}

/-! ## Quiet changes -/

theorem Quiet.withHeap (hleaves : r.heap.LeavesPromises fresh h) :
    Quiet fresh r { r with heap := h } :=
  ⟨hleaves, List.suffix_rfl, rfl⟩

/-- A change of what has nothing to do with promises. -/
theorem Quiet.of_eq {r' : Realm} (hheap : r'.heap = r.heap) (hjobs : r'.jobs = r.jobs)
    (hunhandled : r'.unhandled = r.unhandled) : Quiet fresh r r' where
  heap := hheap ▸ .refl _
  reactions := by
    have hsame : r'.waitingReactions = r.waitingReactions :=
      congrArg (fun q : JobQueue => (q.jobs.toList.map QueuedJob.toJob).filter Job.isReaction) hjobs
    exact hsame ▸ List.suffix_rfl
  unhandled := hunhandled

/-- Anything but a reaction may be enqueued. -/
theorem Quiet.enqueue {job : Job} (hjob : job.isReaction = false) :
    Quiet fresh r { r with jobs := r.jobs.push job } :=
  ⟨.refl _, (waitingReactions_push hjob).symm ▸ List.suffix_rfl, rfl⟩

theorem Quiet.takeJob : Quiet fresh r { r with jobs := r.jobs.pop.2 } :=
  ⟨.refl _, waitingReactions_pop r, rfl⟩

/-! ## Histories -/

theorem Quiet.history (hquiet : Quiet fresh r r') : ∃ events, History fresh r events r' :=
  ⟨[], .quiet .nil hquiet⟩

theorem Change.exists_history (hchange : Change fresh host r r') :
    ∃ events, History fresh r events r' := by
  cases hchange with
  | push allowed => exact (Quiet.withHeap (Heap.leavesPromises_push allowed)).history
  | update same => exact (Quiet.withHeap (Heap.leavesPromises_update same)).history
  | setKind there plain other =>
    have hnone := Heap.promiseSlots?_of_kind_ne there plain.promise
    exact (Quiet.withHeap (Heap.leavesPromises_setKind hnone other)).history
  | @rebind func name behaviour captures captures' there =>
    have hne : ∀ bindings, (ObjectKind.function name behaviour bindings).builtin ≠ .promise :=
      fun _ => nofun
    have hnone := Heap.promiseSlots?_of_kind_ne there (hne captures)
    exact (Quiet.withHeap (Heap.leavesPromises_setKind hnone (hne captures'))).history
  | act there admitted => exact ⟨_, History.nil.acted there admitted⟩
  | enqueue reaction => exact (Quiet.enqueue reaction).history
  | tables | newLatch | latch =>
    refine Quiet.history ?_
    exact .of_eq rfl rfl rfl
  | kept allowed reactions => exact Quiet.history ⟨.refl _, reactions, rfl⟩

theorem Changes.exists_history (h : Changes fresh host r r') :
    ∃ events, History fresh r events r' := by
  refine keeps_of_steps (P := fun r' => ∃ events, History fresh r events r') ?_ ⟨[], .nil⟩ h
  rintro r' r'' ⟨events, hhistory⟩ hchange
  obtain ⟨events', hhistory'⟩ := hchange.exists_history
  exact ⟨events ++ events', hhistory.trans hhistory'⟩

end Retention.Realm
