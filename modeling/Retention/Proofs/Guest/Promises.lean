import Mathlib.Data.List.Basic
import Retention.Proofs.Guest.Deferring
import Retention.Proofs.Guest.Evolution
import Retention.Proofs.Realm.Attaching
import Retention.Proofs.Realm.Evolving
import Retention.Proofs.Realm.Following

/-!
# Promises over whole runs

What happens to promises while guest code runs, from a fresh realm on: after
operations (`Machine.Runs`), and whatever a world goes through in the midst of jobs
(`Machine.Proceeds`). The promises that the code allocates by hand have slots that
are allowed: any at all, or only those of a new promise.

* `Realm.promises_of_history`: a promise is settled once, and each reaction that
  was attached to it becomes one job, in order.
* `Realm.promiseThen_settlePromise`: it does not matter whether handlers are
  attached before or after a settlement.
* `Realm.unhandled_of_history`: the unhandled rejections are those that were
  never handled, and each of them is reported.
-/

namespace Retention

open PromiseEvent Relation

namespace Machine

variable {fresh : PromiseSlots → Prop} {e : Embedding} {w w' : World}

/-- One operation. If it allocates a promise by hand, the internal slots are
allowed. -/
def Runs (fresh : PromiseSlots → Prop) (e : Embedding) (w w' : World) : Prop :=
  ∃ steps op outcome, op.Makes fresh ∧ (perform e steps op).run.run w = some (outcome, w')

/-- What a world goes through, also in the midst of a job or a pump. -/
inductive Proceeds (fresh : PromiseSlots → Prop) (e : Embedding) (w : World) : World → Prop
  /-- Guest code performs an operation, which may fail. -/
  | performs {w' : World} (runs : Runs fresh e w w') : Proceeds fresh e w w'
  /-- The next job is taken and started. -/
  | starts {job : QueuedJob} (next : w.realm.jobs.pop.1 = some job) :
    Proceeds fresh e w (w.starts job)
  /-- A job ends, which may have failed. -/
  | ends {steps : Nat} {job : Job} {outcome : Except Abrupt Unit} {w' : World}
    (ran : (runJob e steps job).run.run w = some (outcome, w')) : Proceeds fresh e w w'
  /-- The outcome of host work that arrives next becomes a job. -/
  | receives {work : HostWork} {hostWork : Queue HostWork}
    (next : e.order.next w.realm.hostWork = some (work, hostWork)) :
    Proceeds fresh e w (w.receives work hostWork)

theorem proceeds_of_runs (h : ReflTransGen (Runs fresh e) w w') :
    ReflTransGen (Proceeds fresh e) w w' :=
  ReflTransGen.mono (fun _ _ => .performs) _ _ h

theorem Proceeds.changes (he : e.Makes fresh) (hfresh : fresh {}) (h : Proceeds fresh e w w') :
    w.Changes fresh w' := by
  cases h with
  | performs runs =>
    obtain ⟨steps, op, outcome, hop, hrun⟩ := runs
    exact .of_steps (((evolving hfresh he steps).perform hop).steps hrun)
  | starts next => exact .single (.kept trivial (Realm.waitingReactions_pop w.realm))
  | ends ran => exact .of_steps (((evolving hfresh he _).runJob _).steps ran)
  | receives next => exact .single (.kept trivial ⟨[], Realm.waitingReactions_push rfl⟩)

/-- Whatever a world goes through, the history of its realm goes on. -/
theorem exists_history (he : e.Makes fresh) (hfresh : fresh {})
    (h : ReflTransGen (Proceeds fresh e) w w') {start : Realm} {events : List PromiseEvent}
    (hhistory : Realm.History fresh start events w.realm) :
    ∃ events', Realm.History fresh start (events ++ events') w'.realm := by
  have hchanges : w.Changes fresh w' := by
    refine World.Changes.of_steps ?_
    induction h with
    | refl => exact .refl
    | tail _ hstep ih => exact ih.tail (hstep.changes he hfresh)
  obtain ⟨events', hhistory'⟩ := hchanges.exists_history
  exact ⟨events', hhistory.trans hhistory'⟩

/-! ### Some promises -/

/-- Guest code that does nothing. -/
def idle : Embedding where
  code _ _ := pure .undefined
  host _ _ _ := pure .undefined
  analyzer _ _ _ _ := []

theorem makes_idle (fresh : PromiseSlots → Prop) : idle.Makes fresh where
  code _ _ := trivial
  host _ _ _ := trivial

/-- The world after effects, one after the other. -/
def afterEffects (effects : List Effect) (w : World) : World :=
  effects.foldl (fun w e => ((perform idle 1 (.effect e)).run.run w).elim w Prod.snd) w

/-- An effect always comes to an end. -/
theorem exists_run_effect (e : Embedding) (effect : Effect) (w : World) :
    ∃ outcome w', (perform e 1 (.effect effect)).run.run w = some (outcome, w') := by
  have hlift : (lift effect.run).run.run w =
      some ((Realm.exec effect.run w.realm).1,
        { w with realm := (Realm.exec effect.run w.realm).2 }) := rfl
  unfold perform
  simp only [ExceptT.run_bind, StateT.run_bind, hlift]
  cases (Realm.exec effect.run w.realm).1 with
  | ok answer => exact ⟨_, _, rfl⟩
  | error cause => exact ⟨_, _, rfl⟩

theorem runs_afterEffects {effects : List Effect} (heffects : ∀ e ∈ effects, e.Makes fresh)
    (w : World) : ReflTransGen (Runs fresh idle) w (afterEffects effects w) := by
  induction effects generalizing w with
  | nil => exact .refl
  | cons e rest ih =>
    obtain ⟨he, hrest⟩ := List.forall_mem_cons.mp heffects
    obtain ⟨outcome, w', hrun⟩ := exists_run_effect idle e w
    have hnext : afterEffects (e :: rest) w = afterEffects rest w' := by
      simp only [afterEffects, List.foldl_cons, hrun, Option.elim_some]
    rw [hnext]
    exact .head ⟨1, .effect e, outcome, he, hrun⟩ (ih hrest w')

/-- A new promise, to which handlers were attached of which none can be called.
A promise was derived for them. -/
def awaited : World :=
  afterEffects [.newPromise, .promiseThen ⟨14⟩ .undefined .undefined] { realm := {} }

/-- Two new promises. Handlers were attached to the first one, and the second one was
resolved with it. -/
def joined : World :=
  afterEffects [.newPromise, .newPromise, .promiseThen ⟨14⟩ .undefined .undefined,
    .resolvePromise ⟨15⟩ (.object ⟨14⟩)] { realm := {} }

/-- The first promise was fulfilled. -/
def answered : World := afterEffects [.fulfillPromise ⟨14⟩ (.bool true)] joined

/-- The first promise was to be rejected after that. -/
def disputed : World := afterEffects [.rejectPromise ⟨14⟩ .null] answered

/-- Four new promises, all of which were rejected. Before that handlers were attached
to the first one, the third one was resolved with the second, and the fourth one was
marked as handled. The promise that was derived was rejected too. -/
def refused : World :=
  afterEffects [.newPromise, .newPromise, .newPromise, .newPromise,
    .promiseThen ⟨14⟩ .undefined .undefined, .resolvePromise ⟨16⟩ (.object ⟨15⟩),
    .markHandled ⟨17⟩, .rejectPromise ⟨14⟩ (.bool true), .rejectPromise ⟨15⟩ (.bool true),
    .rejectPromise ⟨17⟩ (.bool true), .rejectPromise ⟨18⟩ (.bool false)] { realm := {} }

theorem runs_awaited : ReflTransGen (Runs fresh idle) { realm := {} } awaited :=
  runs_afterEffects (by simp [Effect.Makes]) _

theorem proceeds_joined : ReflTransGen (Proceeds fresh idle) { realm := {} } joined :=
  proceeds_of_runs (runs_afterEffects (by simp [Effect.Makes]) _)

theorem proceeds_disputed : ReflTransGen (Proceeds fresh idle) answered disputed :=
  proceeds_of_runs (runs_afterEffects (by simp [Effect.Makes]) _)

theorem proceeds_refused : ReflTransGen (Proceeds fresh idle) { realm := {} } refused :=
  proceeds_of_runs (runs_afterEffects (by simp [Effect.Makes]) _)

end Machine

namespace Realm

variable {options : Options} {events : List PromiseEvent} {r : Realm}

/-! ## Settlement -/

/-- Whatever a world goes through, the history of its realm goes on, and a settled
promise stays as it is. In every realm that has a history, what an operation does to a
promise adds one event to it. A pending promise has no result, its
reactions wait in the order in which they were attached, in pairs that settle the same
promise, and none of them became a job. A settled promise stays as it is, none of its
reactions waits, and each reaction that was ever attached to it became one job, with
its outcome, in the order in which they were attached. No other reaction waits to be
run. -/
theorem promises_of_history (options : Options) :
    (∀ {e : Embedding} {w w' : World}, e.Makes (· = {}) →
      ReflTransGen (Machine.Proceeds (· = {}) e) w w' →
      (∀ {start : Realm} {events : List PromiseEvent}, History (· = {}) start events w.realm →
        ∃ events', History (· = {}) start (events ++ events') w'.realm) ∧
      ∀ {promise : ObjectRef} {slots : PromiseSlots},
        w.realm.heap.promiseSlots? promise = some slots → slots.state ≠ .pending →
        ∃ slots', w'.realm.heap.promiseSlots? promise = some slots' ∧
          slots'.state = slots.state ∧ slots'.result = slots.result) ∧
    ∀ {events : List PromiseEvent} {r : Realm}, History (· = {}) { options } events r →
      Recorded (· = {}) { options } events r ∧
      r.waitingReactions <:+ jobsOf events ∧
      ∀ {promise : ObjectRef} {slots : PromiseSlots}, r.heap.promiseSlots? promise = some slots →
        (slots.state = .pending →
          slots.result = .undefined ∧
          slots.onFulfilled.toList = (attachments (of promise events)).map Attachment.onFulfilled ∧
          slots.onRejected.toList = (attachments (of promise events)).map Attachment.onRejected ∧
          slots.onFulfilled.toList.map Reaction.derived? =
            slots.onRejected.toList.map Reaction.derived? ∧
          jobsOf (of promise events) = []) ∧
        (slots.state ≠ .pending →
          slots.onFulfilled = {} ∧ slots.onRejected = {} ∧
          (∃ settlement : Settlement,
            slots.state = settlement.state ∧ slots.result = settlement.value ∧
            jobsOf (of promise events) =
              (attachments (of promise events)).map (·.job settlement)) ∧
          ∀ {events' r'}, History (· = {}) r events' r' →
            ∃ slots', r'.heap.promiseSlots? promise = some slots' ∧
              slots'.state = slots.state ∧ slots'.result = slots.result) := by
  refine ⟨fun {e w w'} he hproceeds =>
    ⟨Machine.exists_history he rfl hproceeds, fun hs hsettled => ?_⟩, fun {events r} h => ?_⟩
  · obtain ⟨events', h'⟩ := Machine.exists_history he rfl hproceeds .nil
    exact h'.keeps_settled hs hsettled
  have hfollows := follows_of_history h
  refine ⟨h.recorded rfl, hfollows.reactions, fun {promise slots} hs =>
    ⟨fun hpending => ?_, fun hsettled => ?_⟩⟩
  · have hwaits := (hfollows.promises hs).pending hpending
    refine ⟨hwaits.result, hwaits.onFulfilled, hwaits.onRejected, ?_, hwaits.jobs⟩
    rw [hwaits.onFulfilled, hwaits.onRejected, List.map_map, List.map_map]
    rfl
  · obtain ⟨settlement, hsettlement⟩ : ∃ settlement, slots.settlement? = some settlement :=
      Option.ne_none_iff_exists'.mp (mt PromiseSlots.settlement?_eq_none_iff.mp hsettled)
    have hby := (hfollows.promises hs).settled hsettlement
    have his := PromiseSlots.settlement?_eq_some_iff.mp hsettlement
    exact ⟨hby.onFulfilled, hby.onRejected, ⟨settlement, his.1, his.2, hby.jobs⟩,
      fun h' => h'.keeps_settled hs hsettled⟩

/-- A derived promise and one that was resolved with the same promise wait for it.
When it is fulfilled, the two reactions become jobs, in this order. After that it
cannot be rejected. -/
theorem promises_of_history_answered :
    (∃ events r', History (· = {}) { options := {} } events r' ∧
      exec (settlePromise ⟨14⟩ (.fulfilled (.bool true))) Machine.joined.realm = (.ok (), r') ∧
      jobsOf (of ⟨14⟩ events) = [(Attachment.passOn ⟨16⟩).job (.fulfilled (.bool true)),
        (Attachment.passOn ⟨15⟩).job (.fulfilled (.bool true))]) ∧
    ∃ slots, Machine.disputed.realm.heap.promiseSlots? ⟨14⟩ = some slots ∧
      slots.state = .fulfilled ∧ slots.result = .bool true := by
  obtain ⟨hgoes, hrealm⟩ := promises_of_history {}
  constructor
  · obtain ⟨events, h⟩ := (hgoes (Machine.makes_idle _) Machine.proceeds_joined).1 .nil
    obtain ⟨hrecorded, -, hpromise⟩ := hrealm h
    obtain ⟨slots, hs, hpending, hwaiting⟩ : ∃ slots : PromiseSlots,
        Machine.joined.realm.heap.promiseSlots? ⟨14⟩ = some slots ∧ slots.state = .pending ∧
          slots.onFulfilled.toList =
            [(Attachment.passOn ⟨16⟩).onFulfilled, (Attachment.passOn ⟨15⟩).onFulfilled] :=
      ⟨_, rfl, rfl, rfl⟩
    obtain ⟨-, -, -, -, hnone⟩ := (hpromise hs).1 hpending
    obtain ⟨r', hexec, h'⟩ := hrecorded.settles hs hpending (.fulfilled (.bool true))
    refine ⟨_, r', h', hexec, ?_⟩
    -- None of the reactions became a job before.
    rw [of_append, if_pos rfl, jobsOf, List.flatMap_append, ← jobsOf, hnone]
    simp [PromiseSlots.due, PromiseSlots.reactions, hwaiting, Attachment.job]
  · obtain ⟨slots, hs, hstate, hresult⟩ : ∃ slots : PromiseSlots,
        Machine.answered.realm.heap.promiseSlots? ⟨14⟩ = some slots ∧
          slots.state = .fulfilled ∧ slots.result = .bool true := ⟨_, rfl, rfl, rfl⟩
    have hsettled : slots.state ≠ .pending := by simp [hstate]
    obtain ⟨slots', hs', hstate', hresult'⟩ :=
      (hgoes (Machine.makes_idle _) Machine.proceeds_disputed).2 hs hsettled
    exact ⟨slots', hs', hstate'.trans hstate, hresult'.trans hresult⟩

/-! ## Handlers before and after a settlement -/

/-- What guest code does has a history. In every realm that has one, handlers
that are attached to a pending promise before it is settled and after leave the
same realm, with the same derived promise. -/
theorem promiseThen_settlePromise (options : Options) :
    (∀ {e : Embedding} {w : World},
      ReflTransGen (Machine.Runs (fun _ => True) e) { realm := { options } } w →
      ∃ events, History (fun _ => True) { options } events w.realm) ∧
    ∀ {events : List PromiseEvent} {r : Realm}, History (fun _ => True) { options } events r →
      ∀ {promise : ObjectRef} {slots : PromiseSlots}, r.heap.promiseSlots? promise = some slots →
        slots.state = .pending →
        ∀ (onFulfilled onRejected : Value) (settlement : Settlement), ∃ derived r',
          exec (do
            let derived ← promiseThen promise onFulfilled onRejected
            settlePromise promise settlement
            return derived) r = (.ok derived, r') ∧
          exec (do
            settlePromise promise settlement
            promiseThen promise onFulfilled onRejected) r = (.ok derived, r') := by
  refine ⟨fun {e w} hruns =>
    Machine.exists_history e.makes_any trivial (Machine.proceeds_of_runs hruns) .nil,
    fun h promise slots hs hpending => exec_attach_settle hs hpending fun hmem => ?_⟩
  obtain ⟨reason, slots', hs', hrejected⟩ := isSettled_of_mem_unhandled h hmem
  obtain rfl := Option.some.inj (hs.symm.trans hs')
  rw [PromiseSlots.settlement?_eq_none_iff.mpr hpending] at hrejected
  cases hrejected

/-- More handlers are attached to the promise, before or after it is rejected. -/
theorem promiseThen_settlePromise_awaited :
    ∃ derived r',
      exec (do
        let derived ← promiseThen ⟨14⟩ .undefined .undefined
        settlePromise ⟨14⟩ (.rejected .null)
        return derived) Machine.awaited.realm = (.ok derived, r') ∧
      exec (do
        settlePromise ⟨14⟩ (.rejected .null)
        promiseThen ⟨14⟩ .undefined .undefined) Machine.awaited.realm = (.ok derived, r') := by
  obtain ⟨hruns, heither⟩ := promiseThen_settlePromise {}
  obtain ⟨events, h⟩ := hruns Machine.runs_awaited
  obtain ⟨slots, hs, hpending⟩ : ∃ slots : PromiseSlots,
      Machine.awaited.realm.heap.promiseSlots? ⟨14⟩ = some slots ∧ slots.state = .pending :=
    ⟨_, rfl, rfl⟩
  exact heither h hs hpending _ _ _

/-! ## Unhandled rejections -/

namespace Follows

variable (h : r.Follows events)

include h

/-- A promise that is among the rejected ones is there, and its result is the
reason. -/
theorem exists_of_mem_rejections {promise : ObjectRef} {reason : Value}
    (hmem : (promise, reason) ∈ rejections events) :
    ∃ slots, r.heap.promiseSlots? promise = some slots ∧ slots.state = .rejected ∧
      slots.result = reason := by
  obtain ⟨e, he, heq⟩ := List.mem_filterMap.mp hmem
  obtain ⟨_, -, heq⟩ := Option.map_eq_some_iff.mp heq
  obtain ⟨slots, hs⟩ := Option.isSome_iff_exists.mp (h.known e he)
  rw [(Prod.mk.inj heq).1] at hs
  have his := PromiseSlots.settlement?_eq_some_iff.mp (h.settlement?_of_mem_rejections hs hmem)
  exact ⟨slots, hs, his.1, his.2⟩

theorem mem_unhandled_iff {promise : ObjectRef} :
    promise ∈ r.unhandled.toList ↔ isHandled events promise = false ∧
      ∃ slots, r.heap.promiseSlots? promise = some slots ∧ slots.state = .rejected := by
  rw [h.unhandled]
  constructor
  · intro hmem
    obtain ⟨⟨other, reason⟩, hunhandled, heq⟩ := List.mem_map.mp hmem
    obtain rfl : other = promise := heq
    obtain ⟨hrejected, hhandled⟩ := List.mem_filter.mp hunhandled
    obtain ⟨slots, hs, hstate, -⟩ := h.exists_of_mem_rejections hrejected
    exact ⟨by simpa using hhandled, slots, hs, hstate⟩
  · rintro ⟨hhandled, slots, hs, hstate⟩
    have hsettlement : slots.settlement? = some (.rejected slots.result) :=
      PromiseSlots.settlement?_eq_some_iff.mpr ⟨hstate, rfl⟩
    have hsettled := (h.promises hs).settled hsettlement
    have hrejected : (promise, slots.result) ∈ rejections events := by
      rw [mem_rejections, hsettled.settlements]
      exact List.mem_singleton_self _
    refine List.mem_map.mpr ⟨(promise, slots.result), List.mem_filter.mpr ⟨hrejected, ?_⟩, rfl⟩
    rw [hhandled]
    rfl

/-- Each unhandled rejection is reported with its reason. -/
theorem exec_reportUnhandled :
    exec reportUnhandled r =
      (.ok (r.unhandled.toList.map fun promise =>
        (promise, r.display (r.heap.promiseResult promise))), { r with unhandled := {} }) := by
  refine Prod.ext (congrArg Except.ok ?_) rfl
  refine List.filterMap_eq_map_iff_forall_eq_some.mpr fun promise hmem => ?_
  obtain ⟨hhandled, slots, hs, hstate⟩ := h.mem_unhandled_iff.mp hmem
  rw [h.isHandled_eq hs] at hhandled
  have hkind := Heap.kind_of_promiseSlots? hs
  obtain ⟨state, result, onFulfilled, onRejected, handled⟩ := slots
  obtain rfl : state = .rejected := hstate
  obtain rfl : handled = false := hhandled
  simp only [hkind, Heap.promiseResult, hs, Option.elim_some]

end Follows

/-- Whatever a world goes through, the history of its realm goes on. In every realm that
has a history, what an operation does to a promise adds one event to it. The unhandled
rejections are, in the order of their rejection and each of them once, the promises
that are rejected and to which no reaction was ever attached, and which were never
marked as handled. A report names each of them, with its own result, and no other. -/
theorem unhandled_of_history (options : Options) :
    (∀ {e : Embedding} {w w' : World}, e.Makes (· = {}) →
      ReflTransGen (Machine.Proceeds (· = {}) e) w w' →
      ∀ {start : Realm} {events : List PromiseEvent}, History (· = {}) start events w.realm →
        ∃ events', History (· = {}) start (events ++ events') w'.realm) ∧
    ∀ {events : List PromiseEvent} {r : Realm}, History (· = {}) { options } events r →
      Recorded (· = {}) { options } events r ∧
      r.unhandled.toList.Nodup ∧
      r.unhandled.toList =
        ((rejections events).map Prod.fst).filter (fun promise => !isHandled events promise) ∧
      (∀ promise, promise ∈ r.unhandled.toList ↔
        (∀ e ∈ events, e.promise = promise → e.act.handles = false) ∧
        ∃ slots, r.heap.promiseSlots? promise = some slots ∧ slots.state = .rejected) ∧
      exec reportUnhandled r =
        (.ok (r.unhandled.toList.map fun promise =>
          (promise, r.display (r.heap.promiseResult promise))), { r with unhandled := {} }) := by
  refine ⟨fun he hproceeds => Machine.exists_history he rfl hproceeds, fun {events r} h => ?_⟩
  have hfollows := follows_of_history h
  have hlist : r.unhandled.toList =
      ((rejections events).map Prod.fst).filter (fun promise => !isHandled events promise) := by
    rw [hfollows.unhandled, List.filter_map]
    rfl
  refine ⟨h.recorded rfl, ?_, hlist, fun promise => ?_, hfollows.exec_reportUnhandled⟩
  · rw [hlist]
    exact hfollows.nodup.filter _
  · rw [hfollows.mem_unhandled_iff, isHandled_eq_false_iff]

/-- Of the promises that were rejected, nothing handled the one that was derived. -/
theorem unhandled_of_history_refused :
    Machine.refused.realm.unhandled.toList = [⟨18⟩] ∧
    exec reportUnhandled Machine.refused.realm =
      (.ok [(⟨18⟩, Machine.refused.realm.display (.bool false))],
        { Machine.refused.realm with unhandled := {} }) := by
  obtain ⟨hgoes, hunhandled⟩ := unhandled_of_history {}
  obtain ⟨events, h⟩ := hgoes (Machine.makes_idle _) Machine.proceeds_refused .nil
  obtain ⟨-, -, -, -, hreport⟩ := hunhandled h
  have hlist : Machine.refused.realm.unhandled.toList = [⟨18⟩] := by decide +kernel
  have hresult : Machine.refused.realm.heap.promiseResult ⟨18⟩ = .bool false := by decide +kernel
  rw [hlist, List.map_singleton, hresult] at hreport
  exact ⟨hlist, hreport⟩

end Realm
end Retention
