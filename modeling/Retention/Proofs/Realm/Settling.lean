import Retention.Proofs.Heap.Promises
import Retention.Proofs.Realm.Keeping
import Retention.Realm.Promise

/-!
# What happens to a promise

Three things can happen to a promise: reactions are attached to it, it is
settled, or it is marked as handled (`PromiseAct`). Each of them gives the
promise new slots (`PromiseSlots.after`), makes reactions due
(`PromiseSlots.due`), and may change the list of unhandled rejections. The
operations on a realm do exactly this (`Realm.exec_act`).

* `Attachment`: two reactions that are attached together.
* `Realm.acted`: a realm in which something happened to a promise.
* `Realm.exec_promiseThen`, `Realm.exec_resolvePromise_adopt`: handlers are attached,
  and a promise is derived; a promise waits for another one.
-/

namespace Retention

/-- The job that a reaction to a settlement is. -/
def Reaction.job (reaction : Reaction) (settlement : Settlement) : Job :=
  { kind := .promise, work := .react reaction settlement }

/-- Two reactions that are attached together, one for each outcome. Both settle
the same promise. -/
structure Attachment where
  onFulfilled? : Option ObjectRef
  onRejected? : Option ObjectRef
  derived? : Option ObjectRef
deriving DecidableEq, Repr

namespace Attachment

def onFulfilled (a : Attachment) : Reaction := ⟨a.onFulfilled?, a.derived?⟩

def onRejected (a : Attachment) : Reaction := ⟨a.onRejected?, a.derived?⟩

/-- The reactions that settle a promise in the same way. -/
def passOn (promise : ObjectRef) : Attachment := ⟨none, none, some promise⟩

/-- The job that a settlement makes of the reaction to it. -/
def job (a : Attachment) : Settlement → Job
  | .fulfilled v => a.onFulfilled.job (.fulfilled v)
  | .rejected v => a.onRejected.job (.rejected v)

end Attachment

/-- What can happen to a promise. -/
inductive PromiseAct where
  | attach (attachment : Attachment)
  | settle (settlement : Settlement)
  | handle
deriving DecidableEq, Repr

namespace PromiseAct

/-- The operation that does it. -/
def run (promise : ObjectRef) : PromiseAct → RealmM Unit
  | attach a => Realm.addReactions promise a.onFulfilled a.onRejected
  | settle settlement => Realm.settlePromise promise settlement
  | handle => Realm.markHandled promise

end PromiseAct

namespace PromiseSlots

/-- How a promise was settled, if it was. -/
def settlement? (slots : PromiseSlots) : Option Settlement :=
  match slots.state with
  | .pending => none
  | .fulfilled => some (.fulfilled slots.result)
  | .rejected => some (.rejected slots.result)

/-- The reactions that wait for a settlement. -/
def reactions (slots : PromiseSlots) : Settlement → List Reaction
  | .fulfilled _ => slots.onFulfilled.toList
  | .rejected _ => slots.onRejected.toList

/-- A promise is settled once only. -/
def Admits (slots : PromiseSlots) : PromiseAct → Prop
  | .settle _ => slots.state = .pending
  | .attach _ | .handle => True

/-- The slots of a promise after something happened to it. -/
def after (slots : PromiseSlots) : PromiseAct → PromiseSlots
  | .attach a =>
    match slots.state with
    | .pending =>
      { slots with
        handled := true
        onFulfilled := slots.onFulfilled.push a.onFulfilled
        onRejected := slots.onRejected.push a.onRejected }
    | .fulfilled | .rejected => { slots with handled := true }
  | .settle settlement =>
    { slots with
      state := settlement.state, result := settlement.value, onFulfilled := {}, onRejected := {} }
  | .handle => { slots with handled := true }

/-- The jobs that are due when something happens to a promise. -/
def due (slots : PromiseSlots) : PromiseAct → List Job
  | .attach a => slots.settlement?.toList.map a.job
  | .settle settlement => (slots.reactions settlement).map (·.job settlement)
  | .handle => []

variable {slots : PromiseSlots}

theorem settlement?_eq_none_iff : slots.settlement? = none ↔ slots.state = .pending := by
  unfold settlement?
  split <;> simp_all

theorem settlement?_eq_some_iff {settlement : Settlement} :
    slots.settlement? = some settlement ↔
      slots.state = settlement.state ∧ slots.result = settlement.value := by
  unfold settlement?
  cases settlement <;> split <;> simp_all [Settlement.state, Settlement.value]

theorem settlement?_settle (slots : PromiseSlots) (settlement : Settlement) :
    (slots.after (.settle settlement)).settlement? = some settlement :=
  settlement?_eq_some_iff.mpr ⟨rfl, rfl⟩

/-- What is attached does not change how a promise was settled. -/
theorem settlement?_attach (slots : PromiseSlots) (a : Attachment) :
    (slots.after (.attach a)).settlement? = slots.settlement? := by
  cases hstate : slots.state <;> simp [after, settlement?, hstate]

end PromiseSlots

namespace JobQueue

/-- The jobs wait behind all others, in order. -/
def pushAll (q : JobQueue) (jobs : List Job) : JobQueue := jobs.foldl push q

theorem pushAll_append (q : JobQueue) (jobs jobs' : List Job) :
    q.pushAll (jobs ++ jobs') = (q.pushAll jobs).pushAll jobs' :=
  List.foldl_append

end JobQueue

namespace Realm

variable {α β : Type} {r : Realm} {promise : ObjectRef} {slots : PromiseSlots}

/-- The promises whose rejection nothing handled, after something happened to
one that had the given slots. -/
def unhandledAfter (r : Realm) (promise : ObjectRef) (slots : PromiseSlots) :
    PromiseAct → Sequence ObjectRef
  | .attach _ => if slots.state = .rejected then r.unhandled.filter (· != promise) else r.unhandled
  | .settle (.fulfilled _) => r.unhandled
  | .settle (.rejected _) => if slots.handled then r.unhandled else r.unhandled.push promise
  | .handle => r.unhandled.filter (· != promise)

/-- The realm after something happened to a promise that had the given slots. -/
def acted (r : Realm) (promise : ObjectRef) (slots : PromiseSlots) (act : PromiseAct) : Realm :=
  { r with
    heap := r.heap.withPromise promise (slots.after act)
    jobs := r.jobs.pushAll (slots.due act)
    unhandled := r.unhandledAfter promise slots act }

theorem promiseSlots?_acted (hs : r.heap.promiseSlots? promise = some slots) (act : PromiseAct) :
    (r.acted promise slots act).heap.promiseSlots? promise = some (slots.after act) :=
  Heap.promiseSlots?_withPromise_self hs _

theorem promiseSlots?_acted_of_ne {other : ObjectRef} (hne : other ≠ promise) (act : PromiseAct) :
    (r.acted promise slots act).heap.promiseSlots? other = r.heap.promiseSlots? other :=
  Heap.promiseSlots?_withPromise_of_ne hne _

/-! ## Operations that succeed -/

theorem exec_bind_of_ok {m : RealmM α} {a : α} {r' : Realm} (hm : exec m r = (.ok a, r'))
    (f : α → RealmM β) : exec (m >>= f) r = exec (f a) r' := by
  rw [exec_bind, hm]

/-- Each part of an operation that succeeds does. -/
theorem exec_bind_eq_ok {m : RealmM α} {f : α → RealmM β} {b : β} {r' : Realm}
    (hok : exec (m >>= f) r = (.ok b, r')) :
    ∃ a r₁, exec m r = (.ok a, r₁) ∧ exec (f a) r₁ = (.ok b, r') := by
  rw [exec_bind] at hok
  cases he : exec m r with
  | mk outcome r₁ =>
    rw [he] at hok
    cases outcome with
    | error cause => cases hok
    | ok a => exact ⟨a, r₁, rfl, hok⟩

theorem exec_map_of_ok {m : RealmM α} {a : α} {r' : Realm} (hm : exec m r = (.ok a, r'))
    (f : α → β) : exec (f <$> m) r = (.ok (f a), r') := by
  rw [← bind_pure_comp]
  exact exec_bind_of_ok hm _

theorem exec_readHeap (read : Heap → Except Abrupt α) :
    exec (readHeap read) r = (read r.heap, r) := rfl

theorem exec_changeHeap (change : Heap → Except Abrupt α × Heap) :
    exec (changeHeap change) r =
      ((change r.heap).1, { r with heap := (change r.heap).2 }) := rfl

theorem exec_modify (f : Realm → Realm) : exec (modifyThe Realm f) r = (.ok (), f r) := rfl

theorem exec_getThe (r : Realm) : exec (getThe Realm) r = (.ok r, r) := rfl

theorem exec_kind (ref : ObjectRef) : exec (kind ref) r = (r.heap.kind ref, r) := rfl

theorem exec_kind_of_ok {ref : ObjectRef} {k : ObjectKind} (hk : r.heap.kind ref = .ok k) :
    exec (kind ref) r = (.ok k, r) := by
  rw [exec_kind, hk]

theorem exec_promiseSlots (hs : r.heap.promiseSlots? promise = some slots) :
    exec (promiseSlots promise) r = (.ok slots, r) := by
  rw [promiseSlots, exec_bind_of_ok (exec_kind_of_ok (Heap.kind_of_promiseSlots? hs))]
  rfl

theorem exec_setPromise (hs : r.heap.promiseSlots? promise = some slots) (slots' : PromiseSlots) :
    exec (setKind promise (.promise slots')) r =
      (.ok (), { r with heap := r.heap.withPromise promise slots' }) := by
  obtain ⟨o, ho, -⟩ := Heap.promiseSlots?_eq_some_iff.mp hs
  rw [setKind, exec_changeHeap, Heap.withPromise]
  simp only [Heap.update, ho]

theorem exec_enqueueReactions (reactions : List Reaction) (settlement : Settlement) :
    exec (reactions.forM (enqueueReaction · settlement)) r =
      (.ok (), { r with jobs := r.jobs.pushAll (reactions.map (·.job settlement)) }) := by
  induction reactions generalizing r with
  | nil => rfl
  | cons reaction rest ih =>
    exact ih (r := { r with jobs := r.jobs.push (reaction.job settlement) })

theorem exec_addReactions (hs : r.heap.promiseSlots? promise = some slots) (a : Attachment) :
    exec (addReactions promise a.onFulfilled a.onRejected) r =
      (.ok (), r.acted promise slots (.attach a)) := by
  rw [addReactions, exec_bind_of_ok (exec_promiseSlots hs)]
  dsimp only
  split
  · rename_i hpending
    rw [exec_setPromise hs]
    simp only [acted, unhandledAfter, PromiseSlots.after, PromiseSlots.due,
      PromiseSlots.settlement?, hpending, reduceCtorEq, if_false]
    rfl
  · rename_i hfulfilled
    rw [exec_bind_of_ok (exec_setPromise hs _)]
    simp only [acted, unhandledAfter, PromiseSlots.after, PromiseSlots.due,
      PromiseSlots.settlement?, hfulfilled, reduceCtorEq, if_false]
    rfl
  · rename_i hrejected
    rw [exec_bind_of_ok (exec_setPromise hs _)]
    simp only [acted, unhandledAfter, PromiseSlots.after, PromiseSlots.due,
      PromiseSlots.settlement?, hrejected, if_true]
    rfl

theorem exec_settlePromise (hs : r.heap.promiseSlots? promise = some slots)
    (hpending : slots.state = .pending) (settlement : Settlement) :
    exec (settlePromise promise settlement) r =
      (.ok (), r.acted promise slots (.settle settlement)) := by
  rw [settlePromise, exec_bind_of_ok (exec_promiseSlots hs)]
  simp only [hpending, bne_self_eq_false, Bool.false_eq_true, if_false]
  rw [exec_bind_of_ok (exec_setPromise hs _)]
  cases settlement with
  | fulfilled value => exact exec_enqueueReactions ..
  | rejected reason =>
    cases hhandled : slots.handled with
    | true =>
      simp only [Bool.not_true, Bool.false_eq_true, if_false, exec_enqueueReactions, acted,
        unhandledAfter, PromiseSlots.after, PromiseSlots.due, PromiseSlots.reactions, hhandled,
        if_true]
    | false =>
      simp only [Bool.not_false, if_true]
      rw [exec_bind_of_ok (exec_modify _)]
      simp only [exec_enqueueReactions, acted, unhandledAfter, PromiseSlots.after,
        PromiseSlots.due, PromiseSlots.reactions, hhandled, Bool.false_eq_true, if_false]

/-- A promise that was settled stays as it is. -/
theorem exec_settlePromise_of_settled (hs : r.heap.promiseSlots? promise = some slots)
    (hsettled : slots.state ≠ .pending) (settlement : Settlement) :
    exec (settlePromise promise settlement) r = (.ok (), r) := by
  rw [settlePromise, exec_bind_of_ok (exec_promiseSlots hs), if_pos (bne_iff_ne.mpr hsettled)]
  rfl

theorem exec_markHandled (hs : r.heap.promiseSlots? promise = some slots) :
    exec (markHandled promise) r = (.ok (), r.acted promise slots .handle) := by
  rw [markHandled, exec_bind_of_ok (exec_promiseSlots hs),
    exec_bind_of_ok (exec_setPromise hs _)]
  rfl

/-- What happens to a promise. -/
theorem exec_act (hs : r.heap.promiseSlots? promise = some slots) {act : PromiseAct}
    (hact : slots.Admits act) :
    exec (act.run promise) r = (.ok (), r.acted promise slots act) := by
  cases act with
  | attach a => exact exec_addReactions hs a
  | settle settlement => exact exec_settlePromise hs hact settlement
  | handle => exact exec_markHandled hs

/-- The realm in which a new promise was made. -/
def withNewPromise (r : Realm) : Realm :=
  { r with heap := (r.heap.alloc (some Intrinsic.promise.ref) (.promise {})).2 }

theorem exec_newPromise : exec newPromise r = (.ok ⟨r.heap.size⟩, r.withNewPromise) := rfl

/-- The reactions that call two handlers, if they can be called, and settle a
derived promise. -/
def handlers (r : Realm) (onFulfilled onRejected : Value) (derived : ObjectRef) : Attachment where
  onFulfilled? := r.heap.callable? onFulfilled
  onRejected? := r.heap.callable? onRejected
  derived? := some derived

/-- Whether handlers can be called does not depend on a promise that is made. -/
theorem handlers_withNewPromise (r : Realm) (onFulfilled onRejected : Value)
    (derived : ObjectRef) :
    r.withNewPromise.handlers onFulfilled onRejected derived =
      r.handlers onFulfilled onRejected derived := by
  simp only [handlers, withNewPromise, Heap.callable?_alloc_promise]

theorem exec_promiseThen (hs : r.heap.promiseSlots? promise = some slots)
    (onFulfilled onRejected : Value) :
    exec (promiseThen promise onFulfilled onRejected) r =
      (.ok ⟨r.heap.size⟩, r.withNewPromise.acted promise slots
        (.attach (r.handlers onFulfilled onRejected ⟨r.heap.size⟩))) := by
  have hs' : r.withNewPromise.heap.promiseSlots? promise = some slots :=
    Heap.promiseSlots?_alloc hs _ _
  rw [promiseThen, exec_bind_of_ok (exec_promiseSlots hs), exec_bind_of_ok exec_newPromise,
    exec_bind_of_ok (exec_getThe _), ← handlers_withNewPromise]
  exact exec_bind_of_ok (exec_addReactions hs'
    (r.withNewPromise.handlers onFulfilled onRejected ⟨r.heap.size⟩)) _

/-- A promise that is resolved with another one waits for it. -/
theorem exec_resolvePromise_adopt {p q : ObjectRef}
    (hq : ∃ slots, r.heap.promiseSlots? q = some slots ∧ slots.state = .pending)
    (hp : r.heap.promiseSlots? p = some slots) (hne : p ≠ q) :
    exec (resolvePromise q (.object p)) r =
      (.ok (), r.acted p slots (.attach (.passOn q))) := by
  obtain ⟨slots', hs, hpending⟩ := hq
  have hpromise : (r.promise? (.object p)).isSome = true := by
    simp [promise?, Value.object?, Heap.kind_of_promiseSlots? hp]
  rw [resolvePromise, exec_bind_of_ok (exec_promiseSlots hs), if_neg (by simp [hpending]),
    if_neg hne, exec_bind_of_ok (exec_getThe r), if_pos hpromise]
  exact exec_addReactions hp (.passOn q)

/-- A promise that was settled cannot be resolved any more. -/
theorem exec_resolvePromise_of_settled (hs : r.heap.promiseSlots? promise = some slots)
    (hsettled : slots.state ≠ .pending) (value : Value) :
    exec (resolvePromise promise value) r = (.ok (), r) := by
  rw [resolvePromise.eq_def, exec_bind_of_ok (exec_promiseSlots hs),
    if_pos (bne_iff_ne.mpr hsettled)]
  rfl

end Realm
end Retention
