import Mathlib.Logic.Relation
import Retention.Guest.Effect
import Retention.Proofs.Realm.History

/-!
# What operations do to a realm

Operations on a realm make changes of a few kinds, one after the other, whether
they throw or not (`Realm.Change`). Most of them leave alone what the host keeps:
the number of jobs run, the work it owes, the searches and the reports. The
judgement `Realm.Changing` shows this once for each operation, so that what every
change keeps is kept by all of them.

* `Changing.bind`, `Changing.tryCatch`: operations put together.
* `Changing.setKind`, `Changing.act`, …: operations that make one change.
* `Changing.effect`: effects, whatever they are given.
-/

namespace Retention

open Relation

/-- The outcome that the work of a job takes to a promise. -/
def Work.debt? : Work → Option (ObjectRef × HostOutcome)
  | .settle promise outcome => some (promise, outcome)
  | .react .. | .adopt .. | .code _ => none

theorem Work.debt?_eq_some_iff {work : Work} {promise : ObjectRef} {outcome : HostOutcome} :
    work.debt? = some (promise, outcome) ↔ work = .settle promise outcome := by
  cases work <;> simp [debt?]

/-- The internal slots of a promise that an effect allocates by hand are allowed. -/
def Effect.Makes (fresh : PromiseSlots → Prop) (e : Effect) : Prop :=
  ∀ prototype? slots, e = .alloc prototype? (.promise slots) → fresh slots

/-- Objects of this kind are neither closures nor bound functions nor promises. -/
structure ObjectKind.IsPlain (k : ObjectKind) : Prop where
  closure : k.builtin ≠ .function
  bound : k.builtin ≠ .boundFunction
  promise : k.builtin ≠ .promise

/-- Effects that change what the host keeps. -/
def Effect.ConcernsHost : Effect → Prop
  | .promiseFromHost .. | .takeReports | .finalizeSearches => True
  | _ => False

namespace Realm

variable {α β : Type} {fresh : PromiseSlots → Prop} {host : Prop} {r r' : Realm} {h : Heap}

/-- The realm in which a latch is set. -/
def latched (r : Realm) (latch : Nat) : Realm :=
  { r with latches := r.latches.setIfInBounds latch true }

theorem getD_latches {latch : Nat} {set : Bool} (hl : r.latches[latch]? = some set) :
    r.latches.getD latch true = set := by
  rw [Array.getD_eq_getD_getElem?, hl, Option.getD_some]

/-- A latch that is not set is there. -/
theorem latches_of_getD {latch : Nat} (hunset : r.latches.getD latch true ≠ true) :
    r.latches[latch]? = some false := by
  rw [Array.getD_eq_getD_getElem?] at hunset
  cases hl : r.latches[latch]? with
  | none =>
    rw [hl] at hunset
    exact absurd rfl hunset
  | some set =>
    rw [hl, Option.getD_some] at hunset
    rw [Bool.eq_false_iff.mpr hunset]

theorem exec_takeHostWork_none {order : HostOrder} (hnext : order.next r.hostWork = none) :
    exec (takeHostWork order) r = (.ok none, r) := by
  show (Except.ok (Prod.fst _), Prod.snd _) = _
  simp only [hnext]

theorem exec_takeHostWork_some {order : HostOrder} {work : HostWork} {hostWork : Queue HostWork}
    (hnext : order.next r.hostWork = some (work, hostWork)) :
    exec (takeHostWork order) r = (.ok (some work), { r with hostWork }) := by
  show (Except.ok (Prod.fst _), Prod.snd _) = _
  simp only [hnext]

/-! ## Changes -/

/-- One change of a realm. New promises have slots that are allowed, and what the
host keeps changes only if it may. -/
inductive Change (fresh : PromiseSlots → Prop) (host : Prop) (r : Realm) : Realm → Prop
  /-- A new object or symbol. -/
  | push {slot : Slot} {registry : List (String × SymbolRef)}
    (allowed : ∀ o slots, slot = .object o → o.kind = .promise slots → fresh slots) :
    Change fresh host r { r with heap := { slots := r.heap.slots.push slot, registry } }
  /-- An object changes, but for its internal slots. -/
  | update {α : Type} {ref : ObjectRef} {change : Object → α × Object}
    (same : ∀ o, (change o).2.kind = o.kind) :
    Change fresh host r { r with heap := (r.heap.update ref change).2 }
  /-- Internal slots change, but for those of closures, bound functions and promises. -/
  | setKind {ref : ObjectRef} {old k : ObjectKind} (there : r.heap.kind ref = .ok old)
    (plain : old.IsPlain) (other : k.builtin ≠ .promise) :
    Change fresh host r
      { r with heap := (r.heap.update ref fun o => ((), { o with kind := k })).2 }
  /-- The captured bindings of a closure change. -/
  | rebind {func : ObjectRef} {name : String} {behaviour : Behaviour}
    {captures captures' : List Binding}
    (there : r.heap.kind func = .ok (.function name behaviour captures)) :
    Change fresh host r
      { r with heap := (r.heap.update func fun o =>
          ((), { o with kind := .function name behaviour captures' })).2 }
  /-- Something happens to a promise. -/
  | act {promise : ObjectRef} {slots : PromiseSlots} {act : PromiseAct}
    (there : r.heap.promiseSlots? promise = some slots) (admitted : slots.Admits act) :
    Change fresh host r (r.acted promise slots act)
  /-- A job is enqueued that is no reaction, and takes no outcome to a promise. -/
  | enqueue {job : Job} (reaction : job.isReaction = false) (debt : job.work.debt? = none) :
    Change fresh host r { r with jobs := r.jobs.push job }
  | tables {hostFunctions : Array HostFunction} {analyzers : AnalyzerRegistry} :
    Change fresh host r { r with hostFunctions, analyzers }
  | newLatch : Change fresh host r { r with latches := r.latches.push false }
  | latch {latch : Nat} (unset : r.latches[latch]? = some false) :
    Change fresh host r (r.latched latch)
  /-- What the host keeps changes. Reactions may be taken from the queue. -/
  | kept {jobs : JobQueue} {jobsRun : Nat} {hostWork : Queue HostWork}
    {searches : Sequence SearchRecord} {reports : Sequence (List String)} (allowed : host)
    (reactions : waitingReactions { r with jobs := jobs } <:+ r.waitingReactions) :
    Change fresh host r { r with jobs, jobsRun, hostWork, searches, reports }

/-- A new symbol. -/
theorem Change.pushSymbol (symbol : Symbol) (registry : List (String × SymbolRef)) :
    Change fresh host r
      { r with heap := { slots := r.heap.slots.push (.symbol symbol), registry } } :=
  .push fun _ _ heq => nomatch heq

/-- No reaction is enqueued. -/
theorem waitingReactions_push {job : Job} (hreaction : job.isReaction = false) :
    waitingReactions { r with jobs := r.jobs.push job } = r.waitingReactions := by
  rw [waitingReactions, JobQueue.toList_jobs_push, List.map_append, List.filter_append]
  simp [hreaction, waitingReactions]

/-- A job is taken. -/
theorem waitingReactions_pop (r : Realm) :
    waitingReactions { r with jobs := r.jobs.pop.2 } <:+ r.waitingReactions := by
  rw [waitingReactions, JobQueue.toList_jobs_pop]
  exact ((List.tail_suffix _).map _).filter _

/-! ## Operations -/

/-- Any number of changes. -/
abbrev Changes (fresh : PromiseSlots → Prop) (host : Prop) : Realm → Realm → Prop :=
  ReflTransGen (Change fresh host)

/-- An operation makes such changes only, whether it throws or not. What it answers
satisfies `Q`. -/
def Changing (fresh : PromiseSlots → Prop) (host : Prop) (m : RealmM α) (r : Realm)
    (Q : α → Realm → Prop) : Prop :=
  Changes fresh host r (exec m r).2 ∧ ∀ a, (exec m r).1 = .ok a → Q a (exec m r).2

namespace Changing

variable {m : RealmM α} {Q : α → Realm → Prop}

/-! ## Operations put together -/

theorem bind {f : α → RealmM β} {Q' : β → Realm → Prop} (hm : Changing fresh host m r Q)
    (hf : ∀ a r', Q a r' → Changing fresh host (f a) r' Q') :
    Changing fresh host (m >>= f) r Q' := by
  obtain ⟨hchanges, hanswer⟩ := hm
  unfold Changing
  rw [exec_bind]
  cases he : exec m r with
  | mk outcome r' =>
    rw [he] at hchanges hanswer
    cases outcome with
    | ok a =>
      obtain ⟨hchanges', hanswer'⟩ := hf a r' (hanswer a rfl)
      exact ⟨hchanges.trans hchanges', hanswer'⟩
    | error cause => exact ⟨hchanges, nofun⟩

theorem tryCatch {handler : Abrupt → RealmM α} (hm : Changing fresh host m r Q)
    (hcatch : ∀ cause r', Changing fresh host (handler cause) r' Q) :
    Changing fresh host (tryCatch m handler) r Q := by
  obtain ⟨hchanges, hanswer⟩ := hm
  unfold Changing
  rw [exec_tryCatch]
  cases he : exec m r with
  | mk outcome r' =>
    rw [he] at hchanges hanswer
    cases outcome with
    | ok a => exact ⟨hchanges, hanswer⟩
    | error cause =>
      obtain ⟨hchanges', hanswer'⟩ := hcatch cause r'
      exact ⟨hchanges.trans hchanges', hanswer'⟩

theorem mono {Q' : α → Realm → Prop} (hm : Changing fresh host m r Q)
    (hQ : ∀ a r', Q a r' → Q' a r') : Changing fresh host m r Q' :=
  ⟨hm.1, fun a ha => hQ a _ (hm.2 a ha)⟩

/-- An operation that changes nothing. -/
theorem still (hsame : (exec m r).2 = r) (hQ : ∀ a, (exec m r).1 = .ok a → Q a r) :
    Changing fresh host m r Q := by
  unfold Changing
  rw [hsame]
  exact ⟨.refl, hQ⟩

/-- An operation that makes one change. -/
theorem one (hchange : Change fresh host r (exec m r).2) :
    Changing fresh host m r fun _ _ => True :=
  ⟨.single hchange, fun _ _ => trivial⟩

theorem pure {a : α} (ha : Q a r) : Changing fresh host (pure a) r Q :=
  still rfl fun _ heq => Except.ok.inj heq ▸ ha

theorem throw (cause : Abrupt) : Changing fresh host (throw cause : RealmM α) r Q :=
  still rfl nofun

theorem map {f : α → β} (hm : Changing fresh host m r Q) :
    Changing fresh host (f <$> m) r fun _ _ => True := by
  rw [← bind_pure_comp]
  exact hm.bind fun _ _ _ => pure trivial

/-- An operation after which an answer is given. -/
theorem andReturn {m : RealmM Unit} {Q : Unit → Realm → Prop} (hm : Changing fresh host m r Q)
    (a : α) : Changing fresh host (do m; return a) r fun _ _ => True :=
  hm.bind fun _ _ _ => pure trivial

/-- An operation whose answer is passed on. -/
theorem thenReturn {f : α → β} (hm : Changing fresh host m r Q) :
    Changing fresh host (do return f (← m)) r fun _ _ => True :=
  hm.bind fun _ _ _ => pure trivial

theorem getThe : Changing fresh host (getThe Realm) r fun a r' => a = r ∧ r' = r :=
  still rfl fun _ heq => ⟨(Except.ok.inj heq).symm, rfl⟩

/-! ## The heap -/

theorem readHeap {read : Heap → Except Abrupt α} :
    Changing fresh host (Realm.readHeap read) r fun a r' => r' = r ∧ read r.heap = .ok a :=
  still rfl fun _ heq => ⟨rfl, heq⟩

/-- A change of an object that keeps its internal slots. -/
theorem update {ref : ObjectRef} {change : Object → α × Object}
    (hchange : ∀ o, (change o).2.kind = o.kind) :
    Changing fresh host (Realm.changeHeap (·.update ref change)) r fun _ _ => True :=
  one (.update hchange)

theorem kind (ref : ObjectRef) :
    Changing fresh host (kind ref) r fun k r' => r' = r ∧ r.heap.kind ref = .ok k :=
  readHeap

/-- Other internal slots for an object whose slots may change in any way. -/
theorem setKind {ref : ObjectRef} {old k : ObjectKind} (hold : r.heap.kind ref = .ok old)
    (hplain : old.IsPlain) (hk : k.builtin ≠ .promise) :
    Changing fresh host (setKind ref k) r fun _ _ => True :=
  one (.setKind hold hplain hk)

theorem alloc {prototype? : Option ObjectRef} {k : ObjectKind}
    (hk : ∀ {slots}, k = .promise slots → fresh slots) :
    Changing fresh host (alloc prototype? k) r fun _ _ => True :=
  one (.push fun o slots heq hslots => hk (by
    cases heq
    exact hslots))

theorem allocOf {i : Intrinsic} {k : ObjectKind} (hk : k.builtin ≠ .promise) :
    Changing fresh host (allocOf i k) r fun _ _ => True :=
  alloc fun heq => absurd (heq ▸ rfl) hk

theorem newError (prototype : ObjectRef) (message : String) :
    Changing fresh host (newError prototype message) r fun _ _ => True :=
  (alloc nofun).bind fun _ _ _ => update fun _ => rfl

theorem throwTypeError (message : String) : Changing fresh host (throwTypeError message) r Q :=
  (newError _ message).bind fun _ _ _ => throw _

theorem throwRangeError (message : String) : Changing fresh host (throwRangeError message) r Q :=
  (newError _ message).bind fun _ _ _ => throw _

theorem newFunction (name : String) (captures : List Binding) (behaviour : Behaviour) :
    Changing fresh host (newFunction name captures behaviour) r fun _ _ => True :=
  allocOf nofun

theorem newArray (elements : List Value) :
    Changing fresh host (newArray elements) r fun _ _ => True :=
  (allocOf (k := .array) nofun).bind fun _ _ _ => update (Realm.kind_arrayOf elements)

/-- A change of an object that may be refused, which throws. -/
theorem changeOrThrow {ref : ObjectRef} {change : Object → Bool × Object} {message : String}
    (hchange : ∀ o, (change o).2.kind = o.kind) :
    Changing fresh host
      (do if !(← Realm.changeHeap (·.update ref change)) then Realm.throwTypeError message) r
      fun _ _ => True := by
  refine (update hchange).bind fun b r' _ => ?_
  split
  · exact throwTypeError message
  · exact pure trivial

theorem get (target : Value) (key : PropertyKey) :
    Changing fresh host (get target key) r fun _ _ => True := by
  unfold Realm.get
  split
  · exact readHeap.mono fun _ _ _ => trivial
  · exact throwTypeError _
  · exact throwTypeError _
  · exact pure trivial

theorem set (target : ObjectRef) (key : PropertyKey) (value : Value) :
    Changing fresh host (set target key value) r fun _ _ => True := by
  unfold Realm.set
  refine (kind target).bind fun k r' _ => ?_
  split
  · exact (throwRangeError _ (Q := fun _ _ => False)).bind fun _ _ hfalse => hfalse.elim
  · exact changeOrThrow fun o => o.kind_set key value

theorem delete (target : ObjectRef) (key : PropertyKey) :
    Changing fresh host (delete target key) r fun _ _ => True :=
  changeOrThrow fun o => o.kind_delete key

theorem setCapture (func : ObjectRef) (index : Nat) (value : Value) :
    Changing fresh host (setCapture func index value) r fun _ _ => True := by
  unfold Realm.setCapture
  refine (kind func).bind ?_
  rintro k r ⟨rfl, hk⟩
  split
  · rename_i name behaviour captures
    by_cases hlt : index < captures.length
    · simp only [if_pos hlt]
      exact one (.rebind hk)
    · simp only [if_neg hlt]
      exact throwTypeError _
  · exact throwTypeError _

/-! ## Host functions -/

theorem newHostFunction (f : HostFunction) :
    Changing fresh host (newHostFunction f) r fun _ _ => True := by
  unfold Realm.newHostFunction
  refine bind (one .tables) fun id r' _ => ?_
  exact (newFunction ..).bind fun _ _ _ => update fun o => by simp

theorem installGlobalFunction (f : HostFunction) :
    Changing fresh host (installGlobalFunction f) r fun _ _ => True :=
  (newHostFunction f).bind fun _ _ _ => update fun o => o.kind_define _

theorem installHostFunctions : Changing fresh host installHostFunctions r fun _ _ => True :=
  (installGlobalFunction _).bind fun _ _ _ => (installGlobalFunction _).bind fun _ _ _ =>
    pure trivial

/-! ## Collections -/

/-- The entries that were read, of an object whose slots may change. -/
theorem entriesOf (weak : Bool) (ref : ObjectRef) :
    Changing fresh host (entriesOf weak ref) r fun _ r' =>
      r' = r ∧ ∃ k, r.heap.kind ref = .ok k ∧ k.IsPlain := by
  refine (kind ref).bind ?_
  rintro k r ⟨rfl, hk⟩
  split
  · exact pure ⟨rfl, _, hk, nofun, nofun, nofun⟩
  · exact pure ⟨rfl, _, hk, nofun, nofun, nofun⟩
  · exact throwTypeError _

/-- The members that were read, of an object whose slots may change. -/
theorem membersOf (weak : Bool) (ref : ObjectRef) :
    Changing fresh host (membersOf weak ref) r fun _ r' =>
      r' = r ∧ ∃ k, r.heap.kind ref = .ok k ∧ k.IsPlain := by
  refine (kind ref).bind ?_
  rintro k r ⟨rfl, hk⟩
  split
  · exact pure ⟨rfl, _, hk, nofun, nofun, nofun⟩
  · exact pure ⟨rfl, _, hk, nofun, nofun, nofun⟩
  · exact throwTypeError _

theorem requireWeaklyHoldable (v : Value) (role : String) :
    Changing fresh host (requireWeaklyHoldable v role) r fun _ r' => r' = r := by
  refine getThe.bind ?_
  rintro _ r ⟨rfl, rfl⟩
  split
  · exact throwTypeError _
  · exact pure rfl

theorem builtin_keyedKind_ne (weak : Bool) (entries : Sequence KeyedEntry) :
    (keyedKind weak entries).builtin ≠ .promise := by
  cases weak <;> exact nofun

theorem builtin_setKindOf_ne (weak : Bool) (values : Sequence Value) :
    (setKindOf weak values).builtin ≠ .promise := by
  cases weak <;> exact nofun

theorem keyedSet (weak : Bool) (ref : ObjectRef) (key value : Value) :
    Changing fresh host (keyedSet weak ref key value) r fun _ _ => True := by
  unfold Realm.keyedSet
  refine (entriesOf weak ref).bind ?_
  rintro entries r ⟨rfl, k, hk, hplain⟩
  split
  · refine (requireWeaklyHoldable key _).bind ?_
    rintro _ r rfl
    exact setKind hk hplain (builtin_keyedKind_ne weak _)
  · exact setKind hk hplain (builtin_keyedKind_ne weak _)

theorem keyedGet? (weak : Bool) (ref : ObjectRef) (key : Value) :
    Changing fresh host (keyedGet? weak ref key) r fun _ _ => True :=
  (entriesOf weak ref).thenReturn

theorem keyedDelete (weak : Bool) (ref : ObjectRef) (key : Value) :
    Changing fresh host (keyedDelete weak ref key) r fun _ _ => True := by
  unfold Realm.keyedDelete
  refine (entriesOf weak ref).bind ?_
  rintro entries r ⟨rfl, k, hk, hplain⟩
  exact (setKind hk hplain (builtin_keyedKind_ne weak _)).andReturn _

theorem setAdd (weak : Bool) (ref : ObjectRef) (v : Value) :
    Changing fresh host (setAdd weak ref v) r fun _ _ => True := by
  unfold Realm.setAdd
  refine (membersOf weak ref).bind ?_
  rintro values r ⟨rfl, k, hk, hplain⟩
  split
  · refine (requireWeaklyHoldable v _).bind ?_
    rintro _ r rfl
    exact setKind hk hplain (builtin_setKindOf_ne weak _)
  · exact setKind hk hplain (builtin_setKindOf_ne weak _)

theorem setDelete (weak : Bool) (ref : ObjectRef) (v : Value) :
    Changing fresh host (setDelete weak ref v) r fun _ _ => True := by
  unfold Realm.setDelete
  refine (membersOf weak ref).bind ?_
  rintro values r ⟨rfl, k, hk, hplain⟩
  exact (setKind hk hplain (builtin_setKindOf_ne weak _)).andReturn _

/-! ## Weak references and registries -/

theorem newWeakRef (target : Value) :
    Changing fresh host (newWeakRef target) r fun _ _ => True :=
  (requireWeaklyHoldable target _).bind fun _ _ _ => allocOf nofun

theorem deref (ref : ObjectRef) : Changing fresh host (deref ref) r fun _ _ => True := by
  refine (kind ref).bind fun k r' _ => ?_
  split
  · exact pure trivial
  · exact throwTypeError _

theorem newRegistry (callback : Value) :
    Changing fresh host (newRegistry callback) r fun _ _ => True := by
  refine getThe.bind fun _ r' _ => ?_
  split
  · exact allocOf nofun
  · exact throwTypeError _

/-- The registry that was read, whose slots may change. -/
theorem registryOf (ref : ObjectRef) :
    Changing fresh host (registryOf ref) r fun _ r' =>
      r' = r ∧ ∃ k, r.heap.kind ref = .ok k ∧ k.IsPlain := by
  refine (kind ref).bind ?_
  rintro k r ⟨rfl, hk⟩
  split
  · exact pure ⟨rfl, _, hk, nofun, nofun, nofun⟩
  · exact throwTypeError _

theorem register (ref : ObjectRef) (target held : Value) (token? : Option Value) :
    Changing fresh host (register ref target held token?) r fun _ _ => True := by
  unfold Realm.register
  refine (registryOf ref).bind ?_
  rintro ⟨callback, cells⟩ r ⟨rfl, k, hk, hplain⟩
  refine (requireWeaklyHoldable target _).bind ?_
  rintro _ r rfl
  split
  · exact (throwTypeError _ (Q := fun _ _ => False)).bind fun _ _ hfalse => hfalse.elim
  · dsimp only
    split
    · refine (requireWeaklyHoldable _ _).bind ?_
      rintro _ r rfl
      exact setKind hk hplain nofun
    · exact setKind hk hplain nofun

theorem unregister (ref : ObjectRef) (token : Value) :
    Changing fresh host (unregister ref token) r fun _ _ => True := by
  unfold Realm.unregister
  refine (registryOf ref).bind ?_
  rintro ⟨callback, cells⟩ r ⟨rfl, k, hk, hplain⟩
  refine (requireWeaklyHoldable token _).bind ?_
  rintro _ r rfl
  exact (setKind (k := .finalizationRegistry callback _) hk hplain nofun).andReturn _

/-! ## Proxies and bound functions -/

theorem newProxy (target handler : Value) :
    Changing fresh host (newProxy target handler) r fun _ _ => True := by
  unfold Realm.newProxy
  split
  · exact (alloc (k := .proxy (some _) (some _)) nofun).bind fun proxy _ _ =>
      (allocOf (k := .proxyRevoker (some proxy)) nofun).bind fun _ _ _ => pure trivial
  · exact throwTypeError _

theorem proxyTarget? (ref : ObjectRef) :
    Changing fresh host (proxyTarget? ref) r fun _ _ => True := by
  refine (kind ref).bind fun k r' _ => ?_
  split
  · exact pure trivial
  · exact throwTypeError _

theorem revoke (revoker : ObjectRef) : Changing fresh host (revoke revoker) r fun _ _ => True := by
  unfold Realm.revoke
  refine (kind revoker).bind ?_
  rintro k r ⟨rfl, hk⟩
  split
  · refine (setKind (k := .proxyRevoker none) hk ⟨nofun, nofun, nofun⟩ nofun).bind fun _ r' _ => ?_
    split
    · refine (kind _).bind ?_
      rintro k' r ⟨rfl, hk'⟩
      split
      · exact setKind hk' ⟨nofun, nofun, nofun⟩ nofun
      · exact pure trivial
    · exact pure trivial
  · exact throw _

theorem bindFunction (target this : Value) (args : List Value) :
    Changing fresh host (Realm.bind target this args) r fun _ _ => True := by
  unfold Realm.bind
  refine getThe.bind fun _ r' _ => ?_
  split
  · exact readHeap.bind fun _ _ _ => alloc nofun
  · exact throwTypeError _

/-! ## Promises -/

theorem promiseSlots (promise : ObjectRef) :
    Changing fresh host (promiseSlots promise) r fun slots r' =>
      r' = r ∧ r.heap.promiseSlots? promise = some slots := by
  refine (kind promise).bind ?_
  rintro k r ⟨rfl, hk⟩
  split
  · exact pure ⟨rfl, Heap.promiseSlots?_of_kind hk⟩
  · exact throwTypeError _

/-- Something happens to a promise, if it is one and admits it. -/
theorem act (promise : ObjectRef) (act : PromiseAct) :
    Changing fresh host (act.run promise) r fun _ _ => True := by
  cases hs : r.heap.promiseSlots? promise with
  | none =>
    have hthrow : ∀ f : PromiseSlots → RealmM Unit,
        Changing fresh host (Realm.promiseSlots promise >>= f) r fun _ _ => True := by
      refine fun f => (promiseSlots promise).bind ?_
      rintro slots r ⟨rfl, hs'⟩
      cases hs.symm.trans hs'
    cases act <;> exact hthrow _
  | some slots =>
    by_cases hact : slots.Admits act
    · have hexec := exec_act hs hact
      refine one ?_
      rw [hexec]
      exact .act hs hact
    · cases act with
      | settle settlement =>
        refine still ?_ fun _ _ => trivial
        rw [PromiseAct.run, exec_settlePromise_of_settled hs hact]
      | _ => exact absurd trivial hact

theorem addReactions (promise : ObjectRef) (a : Attachment) :
    Changing fresh host (Realm.addReactions promise a.onFulfilled a.onRejected) r fun _ _ => True :=
  act promise (.attach a)

theorem settlePromise (promise : ObjectRef) (settlement : Settlement) :
    Changing fresh host (settlePromise promise settlement) r fun _ _ => True :=
  act promise (.settle settlement)

theorem markHandled (promise : ObjectRef) :
    Changing fresh host (markHandled promise) r fun _ _ => True :=
  act promise .handle

theorem enqueue {job : Job} (hreaction : job.isReaction = false)
    (hdebt : job.work.debt? = none) : Changing fresh host (enqueue job) r fun _ _ => True :=
  one (.enqueue hreaction hdebt)

/-! ## Resolution -/

theorem resolveWithObject (promise object : ObjectRef) :
    Changing fresh host (resolveWithObject promise object) r fun _ _ => True := by
  unfold Realm.resolveWithObject
  refine bind (Q := fun _ _ => True) (tryCatch ((get _ _).map) fun cause r' => ?_)
    fun method r' _ => ?_
  · cases cause with
    | thrown reason => exact pure trivial
    | _ => exact throw _
  · cases method with
    | error reason => exact settlePromise promise _
    | ok method =>
      refine getThe.bind fun _ r'' _ => ?_
      split
      · exact enqueue rfl rfl
      · exact settlePromise promise _

theorem resolvePromise (promise : ObjectRef) (value : Value) :
    Changing fresh host (resolvePromise promise value) r fun _ _ => True := by
  unfold Realm.resolvePromise
  refine (promiseSlots promise).bind fun slots r' _ => ?_
  split
  · exact pure trivial
  split
  · split
    · exact (newError _ _).bind fun _ _ _ => settlePromise promise _
    · refine getThe.bind fun _ r'' _ => ?_
      split
      · exact addReactions _ { onFulfilled? := none, onRejected? := none, derived? := some promise }
      · exact resolveWithObject promise _
  · exact settlePromise promise _

theorem settleFromHost (promise : ObjectRef) (outcome : HostOutcome) :
    Changing fresh host (settleFromHost promise outcome) r fun _ _ => True := by
  unfold Realm.settleFromHost
  split
  · exact resolvePromise promise _
  · exact settlePromise promise _
  · exact throw _
  · exact (newError _ _).bind fun _ _ _ => settlePromise promise _

theorem createResolvingFunctions (promise : ObjectRef) :
    Changing fresh host (createResolvingFunctions promise) r fun _ _ => True :=
  bind (one .newLatch) fun _ _ _ => (newFunction ..).bind fun _ _ _ =>
    (newFunction ..).bind fun _ _ _ => pure trivial

theorem callResolving {latch : Nat} {settle : ObjectRef → Value → RealmM Unit}
    {captured argument : Value}
    (hsettle : ∀ promise r', Changing fresh host (settle promise argument) r' fun _ _ => True) :
    Changing fresh host (callResolving latch settle captured argument) r fun _ _ => True := by
  unfold Realm.callResolving
  refine getThe.bind ?_
  rintro _ r ⟨rfl, rfl⟩
  split
  · exact pure trivial
  · rename_i hunset
    refine bind (one (.latch (latches_of_getD hunset))) fun _ r'' _ => ?_
    split
    · exact hsettle _ r''
    · exact pure trivial

section NewPromises

variable (hfresh : fresh {})

include hfresh

theorem newPromise : Changing fresh host newPromise r fun _ _ => True :=
  alloc fun heq => ObjectKind.promise.inj heq ▸ hfresh

theorem newCapability : Changing fresh host newCapability r fun _ _ => True :=
  (newPromise hfresh).bind fun promise _ _ => (createResolvingFunctions promise).bind
    fun _ _ _ => pure trivial

theorem promiseResolve (value : Value) :
    Changing fresh host (promiseResolve value) r fun _ _ => True := by
  unfold Realm.promiseResolve
  refine getThe.bind fun _ r' _ => ?_
  split
  · exact pure trivial
  · exact (newPromise hfresh).bind fun promise _ _ => (resolvePromise promise value).andReturn _

theorem promiseThen (promise : ObjectRef) (onFulfilled onRejected : Value) :
    Changing fresh host (promiseThen promise onFulfilled onRejected) r fun _ _ => True := by
  unfold Realm.promiseThen
  refine (promiseSlots promise).bind fun _ r₁ _ => (newPromise hfresh).bind fun derived r₂ _ =>
    getThe.bind fun r₃ r₄ _ => ?_
  exact (addReactions promise (r₃.handlers onFulfilled onRejected derived)).andReturn derived

theorem promiseFromHost (polls : Nat) (outcome : HostOutcome) (hhost : host) :
    Changing fresh host (promiseFromHost polls outcome) r fun _ _ => True :=
  (newPromise hfresh).bind fun promise _ _ =>
    andReturn (one (.kept hhost List.suffix_rfl)) promise

end NewPromises

/-! ## What the host keeps -/

section Host

variable (hhost : host)

include hhost

/-- A job that takes an outcome to a promise may be enqueued, too. -/
theorem enqueueHost {job : Job} (hreaction : job.isReaction = false) :
    Changing fresh host (Realm.enqueue job) r fun _ _ => True :=
  one (.kept hhost ((waitingReactions_push hreaction).symm ▸ List.suffix_rfl))

theorem takeJob : Changing fresh host takeJob r fun _ _ => True :=
  one (.kept hhost (waitingReactions_pop r))

theorem chargeJob : Changing fresh host chargeJob r fun _ _ => True := by
  refine bind (one (.kept hhost List.suffix_rfl)) fun _ r' _ => getThe.bind fun _ r'' _ => ?_
  split
  · exact throw _
  · exact pure trivial

theorem takeHostWork (order : HostOrder) :
    Changing fresh host (takeHostWork order) r fun _ _ => True := by
  cases hnext : order.next r.hostWork with
  | none => exact still (congrArg Prod.snd (exec_takeHostWork_none hnext)) fun _ _ => trivial
  | some next =>
    refine one ?_
    rw [exec_takeHostWork_some hnext]
    exact .kept hhost List.suffix_rfl

theorem finalizeSearches : Changing fresh host finalizeSearches r fun _ _ => True := by
  refine getThe.bind fun _ r' _ => ?_
  split
  · exact (throw _ (Q := fun _ _ => False)).bind fun _ _ hfalse => hfalse.elim
  · exact andReturn (one (.kept hhost List.suffix_rfl)) _

end Host

/-! ## Effects -/

theorem newSymbol (description? : Option String) :
    Changing fresh host (newSymbol description?) r fun _ _ => True :=
  one (.pushSymbol { description?, registered := false } r.heap.registry)

theorem symbolFor (key : String) :
    Changing fresh host (symbolFor key) r fun _ _ => True := by
  have hexec : (exec (Realm.symbolFor key) r).2 = { r with heap := (r.heap.symbolFor key).2 } := rfl
  rw [Heap.symbolFor] at hexec
  split at hexec
  · exact still hexec fun _ _ => trivial
  · refine one ?_
    rw [hexec]
    exact .pushSymbol _ _

theorem setPrototype (ref : ObjectRef) (prototype? : Option ObjectRef) :
    Changing fresh host (Realm.changeHeap (·.setPrototype ref prototype?)) r fun _ _ => True := by
  have hexec : (exec (Realm.changeHeap (·.setPrototype ref prototype?)) r).2 =
      { r with heap := (r.heap.setPrototype ref prototype?).2 } := rfl
  rw [Heap.setPrototype] at hexec
  split at hexec
  · refine one ?_
    rw [hexec]
    exact .update fun _ => rfl
  · exact still hexec fun _ _ => trivial

/-- Objects that are allocated one after the other. -/
theorem allocChain (length : Nat) (last? : Option ObjectRef) :
    Changing fresh host (Realm.onHeap (allocChain length last?)) r fun _ _ => True := by
  refine ⟨?_, fun _ _ => trivial⟩
  show Changes fresh host r { r with heap := (Realm.allocChain length last? r.heap).2 }
  induction length generalizing last? r with
  | zero => exact .refl
  | succ length ih =>
    have hfirst : Changing fresh host (Realm.alloc last? .ordinary) r fun _ _ => True := alloc nofun
    exact hfirst.1.trans (ih _)

/-- Whatever an effect is given, it makes such changes only. -/
theorem effect (hfresh : fresh {}) {e : Effect} (he : e.Makes fresh)
    (hhost : e.ConcernsHost → host) :
    Changing fresh host e.run r fun _ _ => True := by
  cases e with
  -- allocation
  | newObject => exact (allocOf (k := .ordinary) nofun).map
  | newArray elements => exact (newArray elements).map
  | newSymbol description? =>
    exact (newSymbol description?).thenReturn
  | symbolFor key =>
    exact (symbolFor key).thenReturn
  | newError prototype message => exact (newError prototype message).map
  | throwTypeError message => exact throwTypeError message
  | throwRangeError message => exact throwRangeError message
  | newFunction name captures code => exact (newFunction ..).map
  | alloc prototype? kind => exact (alloc fun heq => he prototype? _ (congrArg _ heq)).map
  | chain length prototype? =>
    exact (allocChain ..).thenReturn
  -- properties as guest code sees them
  | get target key => exact (get target key).map
  | set target key value => exact (set target key value).andReturn _
  | delete target key => exact (delete target key).andReturn _
  | getGlobal name => exact (get _ _).map
  | setGlobal name value => exact (set _ _ value).andReturn _
  | setCapture func index value => exact (setCapture func index value).andReturn _
  -- the heap
  | heapGet ref key => exact readHeap.map
  | heapSet ref key value => exact (update fun o => o.kind_set key value).map
  | heapDelete ref key => exact (update fun o => o.kind_delete key).map
  | define ref property => exact (update fun o => o.kind_define property).andReturn _
  | ownKeys ref | ownProperties ref | ownProperty ref key =>
    exact readHeap.thenReturn
  | arrayLength ref | arrayElements ref | prototypeOf ref => exact readHeap.map
  | setArrayLength ref length => exact (update fun o => o.kind_setLength length).map
  | setPrototype ref prototype? => exact (setPrototype ref prototype?).map
  | forcePrototype ref prototype? => exact (update fun _ => rfl).andReturn _
  -- inspection
  | inspect value => exact getThe.thenReturn
  | contents ref => exact (kind ref).thenReturn
  | describeSymbol value =>
    cases value with
    | symbol s => exact readHeap.thenReturn
    | _ => exact pure trivial
  | compare a b => exact pure trivial
  | status => exact getThe.thenReturn
  -- host functions
  | installHostFunctions => exact installHostFunctions.andReturn _
  | newHostFunction f => exact (newHostFunction f).map
  | installGlobalFunction f => exact (installGlobalFunction f).map
  | hostFunction id => exact getThe.thenReturn
  | takeReports => exact map (one (.kept (hhost trivial) List.suffix_rfl))
  | elementsOf value =>
    refine getThe.bind fun _ r' _ => ?_
    split <;> exact pure trivial
  -- collections
  | newKeyed weak => exact (allocOf (builtin_keyedKind_ne weak _)).map
  | keyedSet weak ref key value => exact (keyedSet weak ref key value).andReturn _
  | keyedGet weak ref key => exact (keyedGet? weak ref key).thenReturn.map
  | keyedHas weak ref key => exact (keyedGet? weak ref key).thenReturn.map
  | keyedDelete weak ref key => exact (keyedDelete weak ref key).map
  | newSet weak => exact (allocOf (builtin_setKindOf_ne weak _)).map
  | setAdd weak ref value => exact (setAdd weak ref value).andReturn _
  | setHas weak ref value => exact (membersOf weak ref).thenReturn.map
  | setDelete weak ref value => exact (setDelete weak ref value).map
  -- weak references and registries
  | newWeakRef target => exact (newWeakRef target).map
  | deref ref => exact (deref ref).map
  | newRegistry callback => exact (newRegistry callback).map
  | register ref target held token? => exact (register ref target held token?).andReturn _
  | unregister ref token => exact (unregister ref token).map
  -- proxies and bound functions
  | newProxy target handler => exact (newProxy target handler).bind fun _ _ _ => pure trivial
  | proxyTarget ref => exact (proxyTarget? ref).map
  | bind target this args => exact (bindFunction target this args).map
  -- promises and jobs
  | newPromise => exact (newPromise hfresh).map
  | newCapability => exact (newCapability hfresh).bind fun _ _ _ => pure trivial
  | createResolvingFunctions promise =>
    exact (createResolvingFunctions promise).bind fun _ _ _ => pure trivial
  | promiseResolve value => exact (promiseResolve hfresh value).map
  | resolvePromise promise value => exact (resolvePromise promise value).andReturn _
  | fulfillPromise promise value => exact (settlePromise promise _).andReturn _
  | rejectPromise promise reason => exact (settlePromise promise _).andReturn _
  | promiseThen promise onFulfilled onRejected =>
    exact (promiseThen hfresh promise onFulfilled onRejected).map
  | markHandled promise => exact (markHandled promise).andReturn _
  | promiseSlots promise => exact (promiseSlots promise).map
  | promiseFromHost polls outcome =>
    exact (promiseFromHost hfresh polls outcome (hhost trivial)).map
  | enqueue kind code => exact (enqueue rfl rfl).andReturn _
  -- analyzers and searches
  | registerAnalyzer kind code | unregisterAnalyzer kind =>
    exact ⟨.single .tables, fun _ _ => trivial⟩
  | analyzers => exact getThe.thenReturn
  | finalizeSearches => exact (finalizeSearches (hhost trivial)).map

end Changing
end Realm
end Retention
