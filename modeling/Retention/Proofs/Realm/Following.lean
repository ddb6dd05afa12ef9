import Retention.Proofs.Realm.History

/-!
# Realms follow their histories

What a history tells of a promise determines its slots, and what it tells of all
of them determines the unhandled rejections (`Realm.Follows`).

* `PromiseSlots.Waits`, `PromiseSlots.SettledBy`: a promise before and after it is
  settled.
* `PromiseSlots.Reflects.after`: one more thing happens to a promise.
* `Realm.follows_of_history`: a realm follows its history.
-/

namespace Retention

open PromiseEvent

/-! ## One promise -/

/-- A promise was not settled so far, and the reactions attached to it wait. -/
structure PromiseSlots.Waits (slots : PromiseSlots) (events : List PromiseEvent) : Prop where
  result : slots.result = .undefined
  onFulfilled : slots.onFulfilled.toList = (attachments events).map Attachment.onFulfilled
  onRejected : slots.onRejected.toList = (attachments events).map Attachment.onRejected
  settlements : settlements events = []
  jobs : jobsOf events = []

/-- A promise was settled once, and every reaction attached to it, before or
after, became a job. -/
structure PromiseSlots.SettledBy (slots : PromiseSlots) (settlement : Settlement)
    (events : List PromiseEvent) : Prop where
  onFulfilled : slots.onFulfilled = {}
  onRejected : slots.onRejected = {}
  settlements : settlements events = [settlement]
  jobs : jobsOf events = (attachments events).map (·.job settlement)

/-- The slots of a promise are what happened to it. -/
structure PromiseSlots.Reflects (slots : PromiseSlots) (events : List PromiseEvent) : Prop where
  handled : slots.handled = events.any (·.act.handles)
  pending : slots.state = .pending → slots.Waits events
  settled : ∀ {settlement}, slots.settlement? = some settlement →
    slots.SettledBy settlement events

namespace PromiseSlots

variable {slots : PromiseSlots} {events : List PromiseEvent}

/-- A new promise, to which nothing happened. -/
theorem reflects_nil : ({} : PromiseSlots).Reflects [] where
  handled := rfl
  pending _ := ⟨rfl, rfl, rfl, rfl, rfl⟩
  settled hs := nomatch hs

/-- Reactions wait with a promise that is pending. -/
theorem Waits.attach (h : slots.Waits events) (hpending : slots.state = .pending)
    (promise : ObjectRef) (a : Attachment) :
    (slots.after (.attach a)).Waits
      (events ++ [⟨promise, .attach a, slots.due (.attach a)⟩]) where
  result := by simp only [after, hpending, h.result]
  onFulfilled := by simp [after, hpending, h.onFulfilled, attachments, PromiseAct.attachment?]
  onRejected := by simp [after, hpending, h.onRejected, attachments, PromiseAct.attachment?]
  settlements := by
    rw [PromiseEvent.settlements, List.filterMap_append]
    exact List.append_eq_nil_iff.mpr ⟨h.settlements, rfl⟩
  jobs := by
    rw [jobsOf, List.flatMap_append]
    refine List.append_eq_nil_iff.mpr ⟨h.jobs, ?_⟩
    simp [due, settlement?_eq_none_iff.mpr hpending]

/-- Reactions to a settled promise become jobs at once. -/
theorem SettledBy.attach {settlement : Settlement} (h : slots.SettledBy settlement events)
    (hs : slots.settlement? = some settlement) (promise : ObjectRef) (a : Attachment) :
    (slots.after (.attach a)).SettledBy settlement
      (events ++ [⟨promise, .attach a, slots.due (.attach a)⟩]) := by
  have hslots : slots.after (.attach a) = { slots with handled := true } := by
    cases hstate : slots.state with
    | pending => rw [settlement?_eq_none_iff.mpr hstate] at hs; cases hs
    | _ => simp only [PromiseSlots.after, hstate]
  rw [hslots]
  refine ⟨h.onFulfilled, h.onRejected, ?_, ?_⟩
  · rw [PromiseEvent.settlements, List.filterMap_append]
    exact congrArg (· ++ []) h.settlements
  · have hjobs := h.jobs
    simp only [jobsOf, attachments] at hjobs ⊢
    simp [hjobs, due, hs, PromiseAct.attachment?]

/-- The reactions that waited become jobs. -/
theorem Waits.settle (h : slots.Waits events) (promise : ObjectRef) (settlement : Settlement) :
    (slots.after (.settle settlement)).SettledBy settlement
      (events ++ [⟨promise, .settle settlement, slots.due (.settle settlement)⟩]) where
  onFulfilled := rfl
  onRejected := rfl
  settlements := by
    rw [PromiseEvent.settlements, List.filterMap_append]
    exact congrArg (· ++ [settlement]) h.settlements
  jobs := by
    have hjobs := h.jobs
    simp only [jobsOf, attachments] at hjobs ⊢
    cases settlement with
    | fulfilled value =>
      simp [hjobs, due, reactions, h.onFulfilled, attachments, PromiseAct.attachment?,
        Attachment.job]
    | rejected reason =>
      simp [hjobs, due, reactions, h.onRejected, attachments, PromiseAct.attachment?,
        Attachment.job]

theorem any_handles_append (events : List PromiseEvent) (e : PromiseEvent) :
    (events ++ [e]).any (·.act.handles) = (events.any (·.act.handles) || e.act.handles) := by
  simp

/-- One more thing happens to a promise. -/
theorem Reflects.after (h : slots.Reflects events) (promise : ObjectRef) {act : PromiseAct}
    (hact : slots.Admits act) :
    (slots.after act).Reflects (events ++ [⟨promise, act, slots.due act⟩]) := by
  cases act with
  | attach a =>
    refine ⟨?_, fun hstate => ?_, fun {settlement} hs => ?_⟩
    · rw [any_handles_append]
      cases hstate : slots.state <;> simp [PromiseSlots.after, hstate, PromiseAct.handles]
    · rw [← settlement?_eq_none_iff, settlement?_attach, settlement?_eq_none_iff] at hstate
      exact (h.pending hstate).attach hstate promise a
    · rw [settlement?_attach] at hs
      exact (h.settled hs).attach hs promise a
  | settle settlement =>
    refine ⟨?_, fun hstate => ?_, fun {settlement'} hs => ?_⟩
    · rw [any_handles_append, ← h.handled]
      exact (Bool.or_false _).symm
    · cases settlement <;> cases hstate
    · rw [settlement?_settle] at hs
      obtain rfl := Option.some.inj hs
      exact (h.pending hact).settle promise settlement
  | handle =>
    have hattachments : attachments (events ++ [⟨promise, .handle, []⟩]) = attachments events := by
      simp [attachments, PromiseAct.attachment?]
    have hsettlements : settlements (events ++ [⟨promise, .handle, []⟩]) = settlements events := by
      simp [PromiseEvent.settlements, PromiseAct.settlement?]
    have hjobs : jobsOf (events ++ [⟨promise, .handle, []⟩]) = jobsOf events := by
      simp [jobsOf]
    refine ⟨?_, fun hstate => ?_, fun {settlement} hs => ?_⟩
    · rw [any_handles_append]
      exact (Bool.or_true _).symm
    · have hwaits := h.pending hstate
      exact ⟨hwaits.result, hattachments ▸ hwaits.onFulfilled, hattachments ▸ hwaits.onRejected,
        hsettlements ▸ hwaits.settlements, hjobs ▸ hwaits.jobs⟩
    · have hsettled := h.settled hs
      refine ⟨hsettled.onFulfilled, hsettled.onRejected, hsettlements ▸ hsettled.settlements, ?_⟩
      exact (hjobs.trans hsettled.jobs).trans (congrArg _ hattachments.symm)

end PromiseSlots

/-! ## A realm -/

namespace Realm

variable {events events' : List PromiseEvent} {r r' : Realm}

/-- A realm is what its history tells. -/
structure Follows (r : Realm) (events : List PromiseEvent) : Prop where
  promises : ∀ {promise slots}, r.heap.promiseSlots? promise = some slots →
    slots.Reflects (of promise events)
  known : ∀ e ∈ events, (r.heap.promiseSlots? e.promise).isSome = true
  reactions : r.waitingReactions <:+ jobsOf events
  unhandled : r.unhandled.toList = (PromiseEvent.unhandled events).map Prod.fst
  nodup : ((rejections events).map Prod.fst).Nodup

theorem of_append (promise : ObjectRef) (events : List PromiseEvent) (e : PromiseEvent) :
    of promise (events ++ [e]) =
      of promise events ++ if e.promise = promise then [e] else [] := by
  by_cases heq : e.promise = promise <;> simp [of, heq]

theorem isHandled_append (events : List PromiseEvent) (e : PromiseEvent) (promise : ObjectRef) :
    isHandled (events ++ [e]) promise =
      (isHandled events promise || (e.promise == promise && e.act.handles)) := by
  by_cases heq : e.promise = promise <;> simp [isHandled, of, heq]

theorem isHandled_eq_false_iff {promise : ObjectRef} :
    isHandled events promise = false ↔
      ∀ e ∈ events, e.promise = promise → e.act.handles = false := by
  simp [isHandled, of]

theorem reason?_eq_some_iff {act : PromiseAct} {reason : Value} :
    act.reason? = some reason ↔ act.settlement? = some (.rejected reason) := by
  cases act with
  | settle settlement => cases settlement <;> simp [PromiseAct.reason?, PromiseAct.settlement?]
  | _ => simp [PromiseAct.reason?, PromiseAct.settlement?]

/-- A promise was rejected if a rejection is what settled it. -/
theorem mem_rejections {promise : ObjectRef} {reason : Value} :
    (promise, reason) ∈ rejections events ↔ .rejected reason ∈ settlements (of promise events) := by
  simp only [rejections, settlements, of, List.mem_filterMap, List.mem_filter,
    Option.map_eq_some_iff, reason?_eq_some_iff, Prod.mk.injEq, decide_eq_true_eq]
  constructor
  · rintro ⟨e, he, reason, hreason, rfl, rfl⟩
    exact ⟨e, ⟨he, rfl⟩, hreason⟩
  · rintro ⟨e, ⟨he, rfl⟩, hreason⟩
    exact ⟨e, he, reason, hreason, rfl, rfl⟩

/-- A promise that is handled is no longer among the unhandled ones. -/
theorem unhandled_append_of_handles (events : List PromiseEvent) {e : PromiseEvent}
    (he : e.act.handles = true) :
    (PromiseEvent.unhandled (events ++ [e])).map Prod.fst =
      ((PromiseEvent.unhandled events).map Prod.fst).filter (· != e.promise) := by
  have hreason : e.act.reason? = none := by
    cases hact : e.act with
    | settle settlement => rw [hact] at he; cases he
    | _ => rfl
  have hrejections : rejections (events ++ [e]) = rejections events := by
    simp [rejections, hreason]
  rw [PromiseEvent.unhandled, hrejections, PromiseEvent.unhandled, List.filter_map,
    List.filter_filter]
  congr 1
  refine List.filter_congr fun rejection _ => ?_
  rw [isHandled_append, he, Bool.and_true, Bool.not_or, BEq.comm, Bool.and_comm]
  rfl

/-- A rejection is unhandled if its promise was not handled before. -/
theorem unhandled_append_settle (events : List PromiseEvent) (promise : ObjectRef)
    (settlement : Settlement) (jobs : List Job) :
    PromiseEvent.unhandled (events ++ [⟨promise, .settle settlement, jobs⟩]) =
      PromiseEvent.unhandled events ++
        ((PromiseAct.settle settlement).reason?.map (promise, ·)).toList.filter
          fun _ => !isHandled events promise := by
  have hhandled : ∀ other, isHandled (events ++ [⟨promise, .settle settlement, jobs⟩]) other =
      isHandled events other := fun other => by
    rw [isHandled_append]
    simp [PromiseAct.handles]
  simp only [PromiseEvent.unhandled, hhandled]
  rw [rejections, List.filterMap_append, List.filter_append, ← rejections]
  cases settlement <;> simp [PromiseAct.reason?, List.filter_cons]

/-- A fresh realm, in which nothing happened. -/
theorem follows_fresh (options : Options) : ({ options } : Realm).Follows [] where
  promises {promise slots} hs := by
    rw [show ({ options } : Realm).heap = .initial from rfl, Heap.promiseSlots?_initial] at hs
    cases hs
  known _ he := absurd he List.not_mem_nil
  reactions := List.suffix_rfl
  unhandled := rfl
  nodup := List.nodup_nil

namespace Follows

variable (h : r.Follows events)

include h

/-- Nothing happened to a promise that is not there. -/
theorem of_eq_nil {promise : ObjectRef} (hs : r.heap.promiseSlots? promise = none) :
    of promise events = [] := by
  refine List.filter_eq_nil_iff.mpr fun e he heq => ?_
  have hknown := h.known e he
  rw [of_decide_eq_true heq, hs] at hknown
  cases hknown

theorem quiet (hquiet : Quiet (· = {}) r r') : r'.Follows events where
  promises {promise slots} hs := by
    cases hold : r.heap.promiseSlots? promise with
    | some slots' =>
      rw [hquiet.heap.kept hold] at hs
      exact Option.some.inj hs ▸ h.promises hold
    | none =>
      obtain hs | rfl := hquiet.heap.new hs
      · exact h.promises hs
      · rw [h.of_eq_nil hold]
        exact PromiseSlots.reflects_nil
  known e he := by
    obtain ⟨slots, hs⟩ := Option.isSome_iff_exists.mp (h.known e he)
    exact Option.isSome_iff_exists.mpr ⟨slots, hquiet.heap.kept hs⟩
  reactions := hquiet.reactions.trans h.reactions
  unhandled := hquiet.unhandled ▸ h.unhandled
  nodup := h.nodup

variable {promise : ObjectRef} {slots : PromiseSlots}
  (hs : r.heap.promiseSlots? promise = some slots)

include hs

/-- A promise that is among the rejected ones was rejected with that reason. -/
theorem settlement?_of_mem_rejections {reason : Value}
    (hmem : (promise, reason) ∈ rejections events) :
    slots.settlement? = some (.rejected reason) := by
  have hsettled := mem_rejections.mp hmem
  cases hsettlement : slots.settlement? with
  | none =>
    have hpending := PromiseSlots.settlement?_eq_none_iff.mp hsettlement
    rw [((h.promises hs).pending hpending).settlements] at hsettled
    cases hsettled
  | some settlement =>
    rw [((h.promises hs).settled hsettlement).settlements, List.mem_singleton] at hsettled
    rw [hsettled]

/-- A promise that was not rejected is not among those that were. -/
theorem not_mem_rejections (hstate : slots.state ≠ .rejected) :
    promise ∉ (rejections events).map Prod.fst := by
  intro hmem
  obtain ⟨⟨other, reason⟩, hrejected, heq⟩ := List.mem_map.mp hmem
  obtain rfl : other = promise := heq
  exact hstate (PromiseSlots.settlement?_eq_some_iff.mp
    (h.settlement?_of_mem_rejections hs hrejected)).1

theorem isHandled_eq : isHandled events promise = slots.handled := (h.promises hs).handled.symm

theorem unhandledAfter {act : PromiseAct} (hact : slots.Admits act) :
    (r.unhandledAfter promise slots act).toList =
      (PromiseEvent.unhandled (events ++ [⟨promise, act, slots.due act⟩])).map Prod.fst := by
  cases act with
  | attach a =>
    rw [unhandled_append_of_handles events rfl, ← h.unhandled, Realm.unhandledAfter]
    by_cases hstate : slots.state = .rejected
    · rw [if_pos hstate, Sequence.toList_filter]
    · rw [if_neg hstate, List.filter_eq_self.mpr]
      intro other hother
      rw [h.unhandled] at hother
      obtain ⟨rejection, hrejection, rfl⟩ := List.mem_map.mp hother
      rw [bne_iff_ne]
      rintro rfl
      exact h.not_mem_rejections hs hstate (List.mem_map_of_mem (List.mem_filter.mp hrejection).1)
  | settle settlement =>
    rw [unhandled_append_settle, List.map_append, ← h.unhandled, Realm.unhandledAfter.eq_def,
      h.isHandled_eq hs]
    cases settlement with
    | fulfilled value => simp [PromiseAct.reason?]
    | rejected reason => cases slots.handled <;> simp [PromiseAct.reason?]
  | handle =>
    rw [unhandled_append_of_handles events rfl, ← h.unhandled, Realm.unhandledAfter,
      Sequence.toList_filter]

theorem acted {act : PromiseAct} (hact : slots.Admits act) :
    (r.acted promise slots act).Follows (events ++ [⟨promise, act, slots.due act⟩]) where
  promises {other slots'} hs' := by
    by_cases hne : other = promise
    · subst hne
      obtain rfl := Option.some.inj ((promiseSlots?_acted hs _).symm.trans hs')
      rw [of_append, if_pos rfl]
      exact (h.promises hs).after other hact
    · rw [of_append, if_neg (Ne.symm hne), List.append_nil]
      exact h.promises ((promiseSlots?_acted_of_ne hne _).symm.trans hs')
  known e he := by
    by_cases heq : e.promise = promise
    · rw [heq]
      exact Option.isSome_of_eq_some (promiseSlots?_acted hs _)
    · have hmem : e ∈ events := by
        refine (List.mem_append.mp he).resolve_right fun hlast => heq ?_
        rw [List.mem_singleton.mp hlast]
      exact (congrArg _ (promiseSlots?_acted_of_ne heq _)).trans (h.known e hmem)
  reactions := by
    rw [waitingReactions_acted, jobsOf, List.flatMap_append, List.flatMap_singleton]
    obtain ⟨taken, htaken⟩ := h.reactions
    exact ⟨taken, by rw [← List.append_assoc, htaken, jobsOf]⟩
  unhandled := h.unhandledAfter hs hact
  nodup := by
    rw [rejections, List.filterMap_append, ← rejections, List.map_append]
    cases act with
    | settle settlement =>
      cases settlement with
      | fulfilled value => simpa [PromiseAct.reason?] using h.nodup
      | rejected reason =>
        have hpending : slots.state = .pending := hact
        have hnew := h.not_mem_rejections hs (by rw [hpending]; decide)
        refine List.nodup_append.mpr ⟨h.nodup, List.pairwise_singleton _ _, ?_⟩
        rintro other hmem _ hlast rfl
        rw [List.mem_singleton.mp hlast] at hmem
        exact hnew hmem
    | _ => simpa [PromiseAct.reason?] using h.nodup

end Follows

/-- A realm is what its history tells, from a fresh realm on. -/
theorem follows_of_history {options : Options} (h : History (· = {}) { options } events r) :
    r.Follows events :=
  History.induct (motive := fun events r => r.Follows events) (follows_fresh options)
    (fun hfollows hquiet => hfollows.quiet hquiet)
    (fun hfollows hs hact => hfollows.acted hs hact) h

end Realm
end Retention
