import Retention.Proofs.Realm.Settling

/-!
# Histories of promises

A realm changes quietly if nothing happens to its promises: there may be new
ones, jobs may be taken, and anything but reactions may be enqueued
(`Realm.Quiet`). A history from one realm to another lists what happened to
promises on the way, each time with the reactions that became jobs
(`Realm.History`).

* `History.induct`: something happens to one promise after another.
* `IsSettled.history`: a settled promise stays as it is.
* `isSettled_of_mem_unhandled`: the unhandled rejections are rejections.
* `History.recorded`: what each operation adds to a history.
-/

namespace Retention

/-! ## What happens -/

/-- A job that is a reaction to a settlement. -/
def Job.isReaction (job : Job) : Bool :=
  match job.work with
  | .react .. => true
  | _ => false

/-- Something happened to a promise, for which jobs were enqueued. -/
structure PromiseEvent where
  promise : ObjectRef
  act : PromiseAct
  jobs : List Job
deriving DecidableEq, Repr

namespace PromiseAct

/-- The reactions that are attached. -/
def attachment? : PromiseAct → Option Attachment
  | attach a => some a
  | settle _ | handle => none

/-- The settlement. -/
def settlement? : PromiseAct → Option Settlement
  | settle settlement => some settlement
  | attach _ | handle => none

/-- Whether a rejection is no longer one that nothing handles. -/
def handles : PromiseAct → Bool
  | attach _ | handle => true
  | settle _ => false

/-- The reason for a rejection. -/
def reason? : PromiseAct → Option Value
  | settle (.rejected reason) => some reason
  | settle (.fulfilled _) | attach _ | handle => none

end PromiseAct

namespace PromiseEvent

/-- What happened to one promise. -/
def of (promise : ObjectRef) (events : List PromiseEvent) : List PromiseEvent :=
  events.filter (·.promise = promise)

/-- The reactions that were attached, in order. -/
def attachments (events : List PromiseEvent) : List Attachment :=
  events.filterMap (·.act.attachment?)

/-- The settlements. -/
def settlements (events : List PromiseEvent) : List Settlement :=
  events.filterMap (·.act.settlement?)

/-- The jobs that were enqueued, in order. -/
def jobsOf (events : List PromiseEvent) : List Job := events.flatMap jobs

/-- The promises that were rejected, with the reasons, in order. -/
def rejections (events : List PromiseEvent) : List (ObjectRef × Value) :=
  events.filterMap fun e => e.act.reason?.map (e.promise, ·)

/-- Whether reactions were attached to a promise, or it was marked as handled. -/
def isHandled (events : List PromiseEvent) (promise : ObjectRef) : Bool :=
  (of promise events).any (·.act.handles)

/-- The promises that were rejected, with the reasons, and that nothing handled. -/
def unhandled (events : List PromiseEvent) : List (ObjectRef × Value) :=
  (rejections events).filter fun rejection => !isHandled events rejection.1

end PromiseEvent

namespace Realm

/-- The reactions that wait to be run, the next one first. -/
def waitingReactions (r : Realm) : List Job :=
  (r.jobs.jobs.toList.map QueuedJob.toJob).filter Job.isReaction

/-- Nothing happens to the promises of a realm. -/
structure Quiet (fresh : PromiseSlots → Prop) (r r' : Realm) : Prop where
  heap : r.heap.LeavesPromises fresh r'.heap
  reactions : r'.waitingReactions <:+ r.waitingReactions
  unhandled : r'.unhandled = r.unhandled

/-- What happened to the promises of a realm until it became another. New
promises have slots that are allowed. -/
inductive History (fresh : PromiseSlots → Prop) (r : Realm) : List PromiseEvent → Realm → Prop
  | nil : History fresh r [] r
  | quiet {events r' r''} (before : History fresh r events r') (change : Quiet fresh r' r'') :
    History fresh r events r''
  | act {events r' r'' promise slots act jobs} (before : History fresh r events r')
    (there : r'.heap.promiseSlots? promise = some slots) (admitted : slots.Admits act)
    (happens : exec (act.run promise) r' = (.ok (), r''))
    (enqueued : r''.waitingReactions = r'.waitingReactions ++ jobs) :
    History fresh r (events ++ [⟨promise, act, jobs⟩]) r''

variable {fresh : PromiseSlots → Prop} {r r' r'' : Realm} {events events' : List PromiseEvent}

theorem Quiet.trans (h : Quiet fresh r r') (h' : Quiet fresh r' r'') : Quiet fresh r r'' :=
  ⟨h.heap.trans h'.heap, h'.reactions.trans h.reactions, h'.unhandled.trans h.unhandled⟩

theorem History.trans (h : History fresh r events r') (h' : History fresh r' events' r'') :
    History fresh r (events ++ events') r'' := by
  induction h' with
  | nil => rwa [List.append_nil]
  | quiet _ change ih => exact ih.quiet change
  | act _ there admitted happens enqueued ih =>
    rw [← List.append_assoc]
    exact ih.act there admitted happens enqueued

/-! ## The jobs that become due -/

theorem toList_pushAll (q : JobQueue) (jobs : List Job) :
    ((q.pushAll jobs).jobs.toList.map QueuedJob.toJob) =
      q.jobs.toList.map QueuedJob.toJob ++ jobs := by
  induction jobs generalizing q with
  | nil => simp [JobQueue.pushAll]
  | cons job rest ih =>
    have hrest := ih (q.push job)
    rw [JobQueue.toList_jobs_push, List.map_append, List.append_assoc] at hrest
    exact hrest

theorem isReaction_of_mem_due {slots : PromiseSlots} {act : PromiseAct} {job : Job}
    (hjob : job ∈ slots.due act) : job.isReaction = true := by
  cases act with
  | attach a =>
    obtain ⟨settlement, -, rfl⟩ := List.mem_map.mp hjob
    cases settlement <;> rfl
  | settle settlement =>
    obtain ⟨reaction, -, rfl⟩ := List.mem_map.mp hjob
    rfl
  | handle => cases hjob

theorem waitingReactions_acted (r : Realm) (promise : ObjectRef) (slots : PromiseSlots)
    (act : PromiseAct) :
    (r.acted promise slots act).waitingReactions = r.waitingReactions ++ slots.due act := by
  have hdue : (slots.due act).filter Job.isReaction = slots.due act :=
    List.filter_eq_self.mpr fun _ => isReaction_of_mem_due
  rw [waitingReactions, acted, toList_pushAll, List.filter_append, hdue, waitingReactions]

/-- Something happens to a promise that is there. -/
theorem History.acted (h : History fresh r events r') {promise : ObjectRef} {slots : PromiseSlots}
    {act : PromiseAct} (hs : r'.heap.promiseSlots? promise = some slots) (hact : slots.Admits act) :
    History fresh r (events ++ [⟨promise, act, slots.due act⟩])
      (r'.acted promise slots act) :=
  h.act hs hact (exec_act hs hact) (waitingReactions_acted ..)

/-- Histories are extended in these two ways. -/
theorem History.induct {motive : List PromiseEvent → Realm → Prop} (nil : motive [] r)
    (quiet : ∀ {events r' r''}, motive events r' → Quiet fresh r' r'' → motive events r'')
    (acted : ∀ {events r' promise slots act}, motive events r' →
      r'.heap.promiseSlots? promise = some slots → slots.Admits act →
      motive (events ++ [⟨promise, act, slots.due act⟩]) (r'.acted promise slots act))
    (h : History fresh r events r') : motive events r' := by
  induction h with
  | nil => exact nil
  | quiet _ change ih => exact quiet ih change
  | act _ there admitted happens enqueued ih =>
    obtain rfl := (Prod.mk.inj ((exec_act there admitted).symm.trans happens)).2
    rw [waitingReactions_acted] at enqueued
    obtain rfl := List.append_cancel_left enqueued
    exact acted ih there admitted

/-! ## What stays as it is -/

variable {promise : ObjectRef} {slots : PromiseSlots} {settlement : Settlement}

/-- A promise was settled in some way. -/
def IsSettled (r : Realm) (promise : ObjectRef) (settlement : Settlement) : Prop :=
  ∃ slots, r.heap.promiseSlots? promise = some slots ∧ slots.settlement? = some settlement

theorem IsSettled.quiet (h : r.IsSettled promise settlement) (hquiet : Quiet fresh r r') :
    r'.IsSettled promise settlement := by
  obtain ⟨slots, hs, hsettled⟩ := h
  exact ⟨slots, hquiet.heap.kept hs, hsettled⟩

theorem IsSettled.acted (h : r.IsSettled promise settlement) {other : ObjectRef}
    (hs : r.heap.promiseSlots? other = some slots) {act : PromiseAct} (hact : slots.Admits act) :
    (r.acted other slots act).IsSettled promise settlement := by
  obtain ⟨slots', hs', hsettled⟩ := h
  by_cases hne : promise = other
  · subst hne
    obtain rfl := Option.some.inj (hs.symm.trans hs')
    refine ⟨slots.after act, promiseSlots?_acted hs _, ?_⟩
    cases act with
    | attach a => rwa [PromiseSlots.settlement?_attach]
    | settle _ =>
      rw [PromiseSlots.settlement?_eq_none_iff.mpr hact] at hsettled
      cases hsettled
    | handle => exact hsettled
  · exact ⟨slots', (promiseSlots?_acted_of_ne hne _).trans hs', hsettled⟩

/-- A promise that was settled stays settled in the same way. -/
theorem IsSettled.history (h : r.IsSettled promise settlement)
    (hhistory : History fresh r events r') : r'.IsSettled promise settlement :=
  History.induct (motive := fun _ r' => r'.IsSettled promise settlement) h
    (fun hsettled hquiet => hsettled.quiet hquiet)
    (fun hsettled hs hact => hsettled.acted hs hact) hhistory

/-- A settled promise keeps its state and its result. -/
theorem History.keeps_settled (hhistory : History fresh r events r')
    (hs : r.heap.promiseSlots? promise = some slots) (hsettled : slots.state ≠ .pending) :
    ∃ slots', r'.heap.promiseSlots? promise = some slots' ∧
      slots'.state = slots.state ∧ slots'.result = slots.result := by
  obtain ⟨settlement, hsettlement⟩ : ∃ settlement, slots.settlement? = some settlement :=
    Option.ne_none_iff_exists'.mp (mt PromiseSlots.settlement?_eq_none_iff.mp hsettled)
  obtain ⟨slots', hs', hsettlement'⟩ := IsSettled.history ⟨slots, hs, hsettlement⟩ hhistory
  have his := PromiseSlots.settlement?_eq_some_iff.mp hsettlement
  have his' := PromiseSlots.settlement?_eq_some_iff.mp hsettlement'
  exact ⟨slots', hs', his'.1.trans his.1.symm, his'.2.trans his.2.symm⟩

/-- Only a rejection adds a promise to those whose rejection nothing handled. -/
theorem mem_unhandledAfter {other : ObjectRef} {act : PromiseAct}
    (hmem : promise ∈ (r.unhandledAfter other slots act).toList) :
    promise ∈ r.unhandled.toList ∨
      promise = other ∧ ∃ reason, act = .settle (.rejected reason) := by
  have hfilter : promise ∈ (r.unhandled.filter (· != other)).toList →
      promise ∈ r.unhandled.toList := fun hmem => by
    rw [Sequence.toList_filter] at hmem
    exact (List.mem_filter.mp hmem).1
  cases act with
  | attach a =>
    rw [unhandledAfter] at hmem
    split at hmem
    · exact .inl (hfilter hmem)
    · exact .inl hmem
  | settle settlement =>
    cases settlement with
    | fulfilled value => exact .inl hmem
    | rejected reason =>
      rw [unhandledAfter] at hmem
      split at hmem
      · exact .inl hmem
      · rw [Sequence.toList_push, List.mem_append, List.mem_singleton] at hmem
        exact hmem.imp_right fun heq => ⟨heq, reason, rfl⟩
  | handle => exact .inl (hfilter hmem)

/-- The promises whose rejection nothing handled were rejected. -/
theorem isSettled_of_mem_unhandled {options : Options}
    (h : History fresh { options } events r) (hmem : promise ∈ r.unhandled.toList) :
    ∃ reason, r.IsSettled promise (.rejected reason) := by
  refine History.induct (motive := fun _ r => ∀ promise ∈ r.unhandled.toList,
    ∃ reason, r.IsSettled promise (.rejected reason)) (fun _ hmem => absurd hmem List.not_mem_nil)
    (fun ih hquiet promise hmem => ?_) (fun {_ r' other slots act} ih hs hact promise hmem => ?_)
    h promise hmem
  · rw [hquiet.unhandled] at hmem
    obtain ⟨reason, hsettled⟩ := ih promise hmem
    exact ⟨reason, hsettled.quiet hquiet⟩
  · obtain hmem | ⟨rfl, reason, rfl⟩ := mem_unhandledAfter hmem
    · obtain ⟨reason, hsettled⟩ := ih promise hmem
      exact ⟨reason, hsettled.acted hs hact⟩
    · exact ⟨reason, slots.after (.settle (.rejected reason)),
        promiseSlots?_acted hs _, PromiseSlots.settlement?_settle ..⟩

/-! ## What operations add -/

/-- A history that leads to a realm goes on with what an operation does next: one
event, about the promise that the operation concerns, with the jobs that are due. -/
structure Recorded (fresh : PromiseSlots → Prop) (start : Realm) (events : List PromiseEvent)
    (r : Realm) : Prop where
  /-- Handlers are attached once, and they settle a new promise. -/
  attaches : ∀ {promise slots}, r.heap.promiseSlots? promise = some slots →
    ∀ onFulfilled onRejected : Value, ∃ derived r',
      exec (promiseThen promise onFulfilled onRejected) r = (.ok derived, r') ∧
      r.heap.promiseSlots? derived = none ∧ r'.heap.promiseSlots? derived = some {} ∧
      History fresh start (events ++ [⟨promise,
        .attach (r.handlers onFulfilled onRejected derived),
        slots.due (.attach (r.handlers onFulfilled onRejected derived))⟩]) r'
  /-- A pending promise that is resolved with another one waits for it, and is left
  as it is. -/
  adopts : ∀ {promise slots adopted slots'}, r.heap.promiseSlots? promise = some slots →
    slots.state = .pending → r.heap.promiseSlots? adopted = some slots' → adopted ≠ promise →
    ∃ r', exec (resolvePromise promise (.object adopted)) r = (.ok (), r') ∧
      r'.heap.promiseSlots? promise = some slots ∧
      History fresh start (events ++ [⟨adopted, .attach (.passOn promise),
        slots'.due (.attach (.passOn promise))⟩]) r'
  /-- A pending promise is settled. -/
  settles : ∀ {promise slots}, r.heap.promiseSlots? promise = some slots →
    slots.state = .pending → ∀ settlement : Settlement,
    ∃ r', exec (settlePromise promise settlement) r = (.ok (), r') ∧
      History fresh start (events ++ [⟨promise, .settle settlement,
        slots.due (.settle settlement)⟩]) r'
  /-- Nothing happens to a promise that is settled or resolved once more. -/
  stays : ∀ {promise slots}, r.heap.promiseSlots? promise = some slots →
    slots.state ≠ .pending →
      (∀ settlement, exec (settlePromise promise settlement) r = (.ok (), r)) ∧
      ∀ value, exec (resolvePromise promise value) r = (.ok (), r)
  /-- A promise is marked as handled. -/
  handles : ∀ {promise slots}, r.heap.promiseSlots? promise = some slots →
    ∃ r', exec (markHandled promise) r = (.ok (), r') ∧
      History fresh start (events ++ [⟨promise, .handle, []⟩]) r'

/-- Nothing happens to the other promises when one is made. -/
theorem quiet_withNewPromise (hfresh : fresh {}) (r : Realm) : Quiet fresh r r.withNewPromise where
  heap := Heap.leavesPromises_alloc fun _ heq => ObjectKind.promise.inj heq ▸ hfresh
  reactions := List.suffix_rfl
  unhandled := rfl

theorem History.recorded (hfresh : fresh {}) (h : History fresh r events r') :
    Recorded fresh r events r' where
  attaches {promise slots} hs onFulfilled onRejected := by
    have hnone := r'.heap.promiseSlots?_size
    have hne : (⟨r'.heap.size⟩ : ObjectRef) ≠ promise := fun heq => by
      rw [heq, hs] at hnone
      cases hnone
    refine ⟨_, _, exec_promiseThen hs onFulfilled onRejected, hnone, ?_, ?_⟩
    · rw [promiseSlots?_acted_of_ne hne]
      exact Heap.promiseSlots?_alloc_self ..
    · exact (h.quiet (quiet_withNewPromise hfresh r')).acted (Heap.promiseSlots?_alloc hs _ _)
        trivial
  adopts {promise slots adopted slots'} hs hpending hs' hne :=
    ⟨_, exec_resolvePromise_adopt ⟨slots, hs, hpending⟩ hs' hne,
      (promiseSlots?_acted_of_ne hne.symm _).trans hs, h.acted hs' trivial⟩
  settles hs hpending settlement :=
    ⟨_, exec_settlePromise hs hpending settlement, h.acted hs hpending⟩
  stays hs hsettled :=
    ⟨exec_settlePromise_of_settled hs hsettled, exec_resolvePromise_of_settled hs hsettled⟩
  handles hs := ⟨_, exec_markHandled hs, h.acted hs trivial⟩

end Realm
end Retention
