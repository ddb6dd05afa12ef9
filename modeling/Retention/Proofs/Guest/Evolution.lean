import Retention.Guest.Machine
import Retention.Proofs.Realm.Changing
import Retention.Proofs.Walking

/-!
# What guest code does to its realm

Whatever guest code does, it makes the changes to the realm that operations make,
as long as the promises that it allocates by hand have internal slots that are
allowed (`Embedding.Makes`). Calls, jobs and the operations of programs do so by
induction on the number of steps (`Machine.Evolving`).

* `World.Changes`: a world after such changes of its realm.
* `Machine.evolving`: whatever guest code does makes such changes.
-/

namespace Retention

open Relation

variable {ε α : Type} {fresh : PromiseSlots → Prop}

/-! ## Code that allocates promises -/

/-- The internal slots of a promise that an operation allocates are allowed. -/
def Operation.Makes (fresh : PromiseSlots → Prop) : Operation → Prop
  | .effect e => e.Makes fresh
  | _ => True

/-- The internal slots of the promises that a program allocates are allowed,
whatever its operations answer. -/
def Program.Makes (fresh : PromiseSlots → Prop) : Program ε α → Prop
  | .done _ => True
  | .perform op next => op.Makes fresh ∧ ∀ outcome, (next outcome).Makes fresh

/-- The internal slots of the promises that the code of an embedding allocates
are allowed. -/
structure Embedding.Makes (fresh : PromiseSlots → Prop) (e : Embedding) : Prop where
  code : ∀ n a, (e.code n a).Makes fresh
  host : ∀ n this args, (e.host n this args).Makes fresh

/-- Any internal slots may be allowed. -/
theorem Operation.makes_any (op : Operation) : op.Makes fun _ => True := by
  cases op with
  | effect e => exact fun _ _ _ => trivial
  | _ => trivial

theorem Program.makes_any (p : Program ε α) : p.Makes fun _ => True := by
  induction p with
  | done _ => trivial
  | perform op next ih => exact ⟨op.makes_any, ih⟩

theorem Embedding.makes_any (e : Embedding) : e.Makes fun _ => True :=
  ⟨fun n a => (e.code n a).makes_any, fun n this args => (e.host n this args).makes_any⟩

/-! ## Changes -/

/-- A world after changes of its realm. -/
def World.Changes (fresh : PromiseSlots → Prop) (w w' : World) : Prop :=
  Realm.Changes fresh True w.realm w'.realm

namespace World.Changes

variable {w w' : World}

theorem of_eq (hrealm : w'.realm = w.realm) : w.Changes fresh w' := by
  rw [Changes, hrealm]

theorem of_steps (h : ReflTransGen (World.Changes fresh) w w') : w.Changes fresh w' :=
  keeps_of_steps (P := w.Changes fresh) (fun hs hs' => ReflTransGen.trans hs hs') (of_eq rfl) h

/-- What the host keeps changes, and nothing becomes due. -/
theorem host (hrealm : ∃ searches reports, w'.realm = { w.realm with searches, reports }) :
    w.Changes fresh w' := by
  obtain ⟨searches, reports, heq⟩ := hrealm
  rw [Changes, heq]
  exact .single (.kept trivial List.suffix_rfl)

end World.Changes

namespace Machine

variable {R : World → World → Prop}

/-! ## Operations put together -/

theorem walks_exhausted : Walks R (exhausted : Machine α) := ⟨fun hrun => nomatch hrun⟩

theorem walks_attempt {m : StateT World Option (Except ε α)} {fail : ε → Machine α}
    (hm : Treads R m) (hfail : ∀ e', Walks R (fail e')) : Walks R (attempt m fail) := by
  refine (Walks.liftM hm).bind fun outcome => ?_
  cases outcome with
  | ok a => exact .pure a
  | error e' => exact hfail e'

theorem walks_caught {m : Machine α} (hm : Walks R m) : Walks R (caught m) := by
  refine hm.map.tryCatch fun cause => ?_
  cases cause with
  | thrown reason => exact .pure _
  | _ => exact .throw _

/-- A program goes where its operations go. -/
theorem treads_run_of_makes {handle : Operation → Machine Answer}
    (hhandle : ∀ {op}, op.Makes fresh → Walks R (handle op)) {p : Program ε α}
    (hp : p.Makes fresh) : Treads R (p.run handle) := by
  induction p with
  | done outcome => exact .pure outcome
  | perform op next ih => exact Treads.bind (hhandle hp.1) fun outcome => ih outcome (hp.2 outcome)

theorem treads_run {handle : Operation → Machine Answer} (hhandle : ∀ op, Walks R (handle op))
    (p : Program ε α) : Treads R (p.run handle) :=
  treads_run_of_makes (fun _ => hhandle _) p.makes_any

/-! ## Operations that change the realm -/

variable {e : Embedding}

theorem changes_lift {m : RealmM α} {Q : Realm → α → Realm → Prop}
    (hm : ∀ r, Realm.Changing fresh True m r (Q r)) :
    Walks (World.Changes fresh) (lift m) :=
  Treads.step (fun _ => rfl) fun w => (hm w.realm).1

theorem changes_record (events : List Event) : Walks (World.Changes fresh) (record events) :=
  .modify fun _ => .of_eq rfl

theorem changes_deal (dealings : List Dealing) : Walks (World.Changes fresh) (deal dealings) :=
  .modify fun _ => .of_eq rfl

theorem changes_search (options : Search.Options) (target : Value) (held : List Value) :
    Walks (World.Changes fresh) (search e options target held) := by
  refine Walks.getThe.bind fun w => (changes_record _).bind fun _ => ?_
  split
  · exact .pure _
  · exact .throw _

theorem changes_searchReferences (args : List Value) :
    Treads (World.Changes fresh) (searchReferences e args) := by
  refine Treads.getThe.bind fun w => ?_
  split
  · exact .pure _
  · refine Treads.getThe.bind fun w' => Treads.bind (changes_search ..) fun outcome => ?_
    split
    · exact .pure _
    · exact Treads.bind (.modify fun _ => .host ⟨_, _, rfl⟩) fun _ => .pure _

theorem changes_report (args : List Value) : Treads (World.Changes fresh) (report args) :=
  Treads.bind (.modify fun _ => .host ⟨_, _, rfl⟩) fun _ => .pure _

theorem changes_throwTypeError (message : String) :
    Walks (World.Changes fresh) (lift (Realm.throwTypeError message) : Machine α) :=
  changes_lift (Q := fun _ _ _ => True) fun _ => .throwTypeError message

theorem changes_hostFailed (name : String) (failure : HostFailure) :
    Walks (World.Changes fresh) (hostFailed name failure : Machine α) := by
  cases failure with
  | abrupt cause => exact .throw cause
  | _ => exact changes_throwTypeError _

theorem changes_settleDerived (derived? : Option ObjectRef) (outcome : Except Value Value) :
    Walks (World.Changes fresh) (settleDerived derived? outcome) := by
  cases derived? with
  | none => exact .pure _
  | some derived =>
    cases outcome with
    | ok value => exact changes_lift fun _ => .resolvePromise derived value
    | error reason => exact changes_lift fun _ => .settlePromise derived _

theorem changes_arrive (promise : ObjectRef) (outcome : HostOutcome) :
    Walks (World.Changes fresh) (arrive promise outcome) :=
  Walks.getThe.bind fun _ => (changes_lift fun _ => .settleFromHost promise outcome).bind
    fun _ => changes_deal _

/-- Jobs are run one after the other. -/
theorem changes_runJobs {run : Job → Machine Unit}
    (hrun : ∀ job, Walks (World.Changes fresh) (run job)) (steps : Nat) :
    Walks (World.Changes fresh) (runJobs run steps) := by
  induction steps with
  | zero => exact walks_exhausted
  | succ steps ih =>
    refine (changes_lift fun _ => .takeJob trivial).bind fun job? => ?_
    split
    · exact .pure _
    · exact (changes_lift fun _ => .chargeJob trivial).bind fun _ =>
        (changes_record _).bind fun _ => (hrun _).bind fun _ => ih

theorem changes_interruptible {work : Machine Unit} (hwork : Walks (World.Changes fresh) work) :
    Walks (World.Changes fresh) (interruptible work) :=
  hwork.tryCatch fun _ => (changes_deal _).bind fun _ => .throw _

/-- Jobs are run, and host work becomes a job, one after the other. -/
theorem changes_pumpWith {order : HostOrder} {checkpoint : Machine Unit}
    (hcheckpoint : Walks (World.Changes fresh) checkpoint) (steps : Nat) :
    Walks (World.Changes fresh) (pumpWith order checkpoint steps) := by
  induction steps with
  | zero => exact walks_exhausted
  | succ steps ih =>
    refine hcheckpoint.bind fun _ => (changes_lift fun _ => .takeHostWork trivial order).bind
      fun work? => ?_
    split
    · exact changes_deal _
    · exact (changes_lift fun _ => .enqueueHost trivial rfl).bind fun _ => ih

/-! ## Operations that need each other -/

/-- The operations that need each other change the realm. -/
structure Evolving (fresh : PromiseSlots → Prop) (e : Embedding) (steps : Nat) : Prop where
  call : ∀ callee this args, Walks (World.Changes fresh) (call e steps callee this args)
  dispatch : ∀ id this args, Walks (World.Changes fresh) (dispatch e steps id this args)
  runJob : ∀ job, Walks (World.Changes fresh) (runJob e steps job)
  checkpoint : Walks (World.Changes fresh) (checkpoint e steps)
  pump : Walks (World.Changes fresh) (pump e steps)
  perform : ∀ {op}, op.Makes fresh → Walks (World.Changes fresh) (perform e steps op)

namespace Evolving

theorem zero (fresh : PromiseSlots → Prop) (e : Embedding) : Evolving fresh e 0 where
  call _ _ _ := walks_exhausted
  dispatch _ _ _ := walks_exhausted
  runJob _ := walks_exhausted
  checkpoint := walks_exhausted
  pump := walks_exhausted
  perform _ := walks_exhausted

variable {steps : Nat} (h : Evolving fresh e steps) (he : e.Makes fresh)

include h he

theorem call_succ (callee this : Value) (args : List Value) :
    Walks (World.Changes fresh) (Machine.call e (steps + 1) callee this args) := by
  unfold Machine.call
  cases callee with
  | object ref =>
    refine (changes_lift fun _ => .kind ref).bind fun k => ?_
    split
    · dsimp only
      split
      · exact h.dispatch _ _ _
      · exact treads_run_of_makes h.perform (he.code ..)
      · exact (changes_lift fun _ => .callResolving fun p _ => .resolvePromise p _).bind
          fun _ => .pure _
      · exact (changes_lift fun _ => .callResolving fun p _ => .settlePromise p _).bind
          fun _ => .pure _
    · exact h.call _ _ _
    · exact (changes_lift fun _ => .revoke ref).bind fun _ => .pure _
    · exact changes_throwTypeError _
  | _ => exact changes_throwTypeError _

theorem dispatch_succ (id : Nat) (this : Value) (args : List Value) :
    Walks (World.Changes fresh) (Machine.dispatch e (steps + 1) id this args) := by
  unfold Machine.dispatch
  refine Walks.getThe.bind fun w => ?_
  split
  · exact .throw _
  · rename_i f _
    refine walks_attempt ?_ (changes_hostFailed f.name)
    split
    · exact changes_searchReferences args
    · exact changes_report args
    · exact treads_run_of_makes h.perform (he.host ..)

theorem runJob_succ (job : Job) :
    Walks (World.Changes fresh) (Machine.runJob e (steps + 1) job) := by
  unfold Machine.runJob
  split
  · split
    · exact (walks_caught (h.call _ _ _)).bind fun _ => changes_settleDerived _ _
    · exact (Walks.pure _).bind fun _ => changes_settleDerived _ _
    · exact (Walks.pure _).bind fun _ => changes_settleDerived _ _
  · refine (changes_lift fun _ => .createResolvingFunctions _).bind fun pair => ?_
    refine (walks_caught (h.call _ _ _)).bind fun outcome => ?_
    split
    · exact .pure _
    · exact (h.call _ _ _).map
  · exact changes_arrive _ _
  · rename_i code _
    have hrun := treads_run_of_makes h.perform (he.code code {})
    exact Walks.map hrun

omit he in
theorem perform_succ (hfresh : fresh {}) {op : Operation} (hop : op.Makes fresh) :
    Walks (World.Changes fresh) (Machine.perform e (steps + 1) op) := by
  unfold Machine.perform
  cases op with
  | effect effect =>
    exact (changes_lift fun _ => .effect hfresh hop fun _ => trivial).bind fun _ =>
      (changes_deal _).bind fun _ => .pure _
  | call callee this args => exact (h.call callee this args).map
  | dispatch id this args => exact (h.dispatch id this args).map
  | checkpoint => exact h.checkpoint.bind fun _ => .pure _
  | pump => exact h.pump.bind fun _ => .pure _
  | search options target held name? =>
    refine (changes_search options target held).bind fun graph => ?_
    split
    · exact Walks.bind (.modify fun _ => .of_eq rfl) fun _ => .pure _
    · exact .pure _
  | graph name | vars => exact Walks.getThe.bind fun _ => .pure _
  | note v => exact (changes_record _).bind fun _ => .pure _
  | assign names values => exact Walks.bind (.modify fun _ => .of_eq rfl) fun _ => .pure _

end Evolving

/-- The operations change the realm, with any number of steps. -/
theorem evolving (hfresh : fresh {}) (he : e.Makes fresh) (steps : Nat) :
    Evolving fresh e steps := by
  induction steps with
  | zero => exact .zero fresh e
  | succ steps ih =>
    exact
      { call := ih.call_succ he
        dispatch := ih.dispatch_succ he
        runJob := ih.runJob_succ he
        checkpoint := changes_interruptible (changes_runJobs ih.runJob steps)
        pump := changes_pumpWith ih.checkpoint steps
        perform := ih.perform_succ hfresh }

end Machine
end Retention
