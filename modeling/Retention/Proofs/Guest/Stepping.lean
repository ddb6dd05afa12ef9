import Retention.Proofs.Guest.Steps

/-!
# Guest code goes step by step

Calls, jobs and the operations of programs go along the steps of `World.Step`, by
induction on the number of steps that they are given (`Machine.Stepping`).

* `Machine.walks_lift`: an operation on the realm.
* `Machine.stepsTo_runJobs`: jobs, the last of which may fail.
* `Machine.stepping`: whatever guest code does goes along steps.
-/

namespace Retention

open Relation

namespace Machine

variable {α : Type} {e : Embedding} {w w' : World}

/-! ## Operations that go along steps -/

/-- An operation that changes nothing of what the host keeps. -/
theorem walks_lift {m : RealmM α} {Q : Realm → α → Realm → Prop}
    (hm : ∀ r, Realm.Changing (fun _ => True) False m r (Q r)) :
    Walks (World.Step e) (lift m) :=
  Treads.step (fun _ => rfl) fun w =>
    .works (hm w.realm).spares (.exec (hm w.realm)) (.none rfl) rfl

/-- Guest code or an analyzer makes notes. -/
theorem step_notes {events : List Event} (h : ∀ event ∈ events, event.IsNote) :
    World.Step e w (w.notes events) :=
  .works (.refl _) .refl ⟨events, by simp [World.notes], h⟩ rfl

/-- A change of what the embedding keeps. -/
theorem step_of_eq (hrealm : w'.realm = w.realm) (hjournal : w'.journal = w.journal)
    (hdealings : w'.dealings = w.dealings) : World.Step e w w' :=
  .works (hrealm ▸ .refl _) (hrealm ▸ .refl) (.none hjournal) hdealings

theorem walks_search (options : Search.Options) (target : Value) (held : List Value) :
    Walks (World.Step e) (search e options target held) := by
  refine Walks.getThe.bind fun w => Walks.bind (.modify fun _ => step_notes fun event hevent => ?_)
    fun _ => ?_
  · rw [List.eq_of_mem_replicate hevent]
    trivial
  · split
    · exact .pure _
    · exact .throw _

theorem walks_throwTypeError (message : String) :
    Walks (World.Step e) (lift (Realm.throwTypeError message) : Machine α) :=
  walks_lift (Q := fun _ _ _ => True) fun _ => .throwTypeError message

theorem walks_hostFailed (name : String) (failure : HostFailure) :
    Walks (World.Step e) (hostFailed name failure : Machine α) := by
  cases failure with
  | abrupt cause => exact .throw cause
  | _ => exact walks_throwTypeError _

theorem walks_settleDerived (derived? : Option ObjectRef) (outcome : Except Value Value) :
    Walks (World.Step e) (settleDerived derived? outcome) := by
  cases derived? with
  | none => exact .pure _
  | some derived =>
    cases outcome with
    | ok value => exact walks_lift fun _ => .resolvePromise derived value
    | error reason => exact walks_lift fun _ => .settlePromise derived _

/-! ## Deferred work -/

/-- Deferred work goes along steps, the last of which notes a failure. -/
def StepsTo (e : Embedding) (w : World) : Except Abrupt Unit → World → Prop
  | .ok (), w' => ReflTransGen (World.Step e) w w'
  | .error cause, w' => ReflTransGen (World.Step e) w (w'.deals [.interrupted cause])

section Jobs

variable {run : Job → Machine Unit} {steps : Nat} {outcome : Except Abrupt Unit}
  (hrun : ∀ job : Job, job.work.debt? = none → Walks (World.Step e) (run job))
  (hsettle : ∀ {job : Job} {promise settling w outcome w'}, job.work = .settle promise settling →
    (run job).run.run w = some (outcome, w') → Arrives promise settling w outcome w')

include hrun hsettle

/-- A job that is started goes along steps. To take an outcome of the host to its
promise is one step. -/
theorem stepsTo_run {job : QueuedJob} (hnext : w.realm.jobs.pop.1 = some job)
    (haffords : w.realm.Affords)
    (h : (run job.toJob).run.run (w.starts job) = some (outcome, w')) :
    StepsTo e w outcome w' := by
  cases hdebt : job.work.debt? with
  | none =>
    have hsteps := (ReflTransGen.single (.starts hnext hdebt haffords)).trans
      ((hrun job.toJob hdebt).steps h)
    cases outcome with
    | ok _ => exact hsteps
    | error cause => exact hsteps.tail (.fails (.refl w') cause)
  | some debt =>
    have hwork : job.work = .settle debt.1 debt.2 := Work.debt?_eq_some_iff.mp hdebt
    cases hsettle hwork h with
    | failed settles =>
      have hloses := World.Loses.settleFromHost hnext haffords debt.1 debt.2
      rw [settles] at hloses
      exact .single (.fails hloses _)
    | settled settles => exact .single (.settles hnext hwork settles haffords)

/-- Jobs that are run until none is left go along steps. -/
theorem stepsTo_runJobs (h : (runJobs run steps).run.run w = some (outcome, w')) :
    StepsTo e w outcome w' := by
  induction steps generalizing w with
  | zero => exact nomatch h
  | succ steps ih =>
    cases runJobs_cases h with
    | none next => exact .refl
    | refused next spent => exact .single (.fails (.takes next spent) _)
    | failed next affords ran => exact stepsTo_run hrun hsettle next affords ran
    | ran next affords ran rest =>
      have hfirst : ReflTransGen (World.Step e) w _ := stepsTo_run hrun hsettle next affords ran
      have hrest := ih rest
      cases outcome with
      | ok _ => exact hfirst.trans hrest
      | error cause => exact hfirst.trans hrest

end Jobs

/-- Deferred work goes along steps when it notes its failures. -/
theorem walks_interruptible {work : Machine Unit}
    (hwork : ∀ {w outcome w'}, work.run.run w = some (outcome, w') → StepsTo e w outcome w') :
    Walks (World.Step e) (interruptible work) := by
  refine ⟨fun {w outcome w'} hrun => ?_⟩
  obtain ⟨-, hok⟩ | ⟨cause, w₁, -, herror, rfl⟩ := interruptible_cases hrun
  · exact hwork hok
  · exact hwork herror

/-- Pumping goes along steps, since no job is left when host work becomes one. -/
theorem walks_pumpWith {checkpoint : Machine Unit} (hcheckpoint : Walks (World.Step e) checkpoint)
    (hempty : ∀ {w w'}, checkpoint.run.run w = some (.ok (), w') → w'.realm.jobs.isEmpty = true)
    (steps : Nat) : Walks (World.Step e) (pumpWith e.order checkpoint steps) := by
  induction steps with
  | zero => exact walks_exhausted
  | succ steps ih =>
    refine ⟨fun {w outcome w'} hrun => ?_⟩
    cases pumpWith_cases hrun with
    | failed checked => exact hcheckpoint.steps checked
    | @quiesced w₁ checked next =>
      have hwork : w₁.realm.hostWork.isEmpty = true :=
        (Queue.isEmpty_iff _).mpr ((e.order.next_eq_none_iff _).mp next)
      have hjobs : w₁.realm.jobs.isEmpty = true := hempty checked
      exact (hcheckpoint.steps checked).tail
        (.quiesces (Bool.and_eq_true_iff.mpr ⟨hjobs, hwork⟩))
    | received checked next rest =>
      exact ((hcheckpoint.steps checked).tail (.receives next)).trans (ih.steps rest)

/-! ## Operations that need each other -/

/-- The operations that need each other go along steps. -/
structure Stepping (e : Embedding) (steps : Nat) : Prop where
  call : ∀ callee this args, Walks (World.Step e) (call e steps callee this args)
  dispatch : ∀ id this args, Walks (World.Step e) (dispatch e steps id this args)
  runJob : ∀ job : Job, job.work.debt? = none → Walks (World.Step e) (runJob e steps job)
  checkpoint : Walks (World.Step e) (checkpoint e steps)
  pump : Walks (World.Step e) (pump e steps)
  perform : ∀ op, Walks (World.Step e) (perform e steps op)

namespace Stepping

theorem zero (e : Embedding) : Stepping e 0 where
  call _ _ _ := walks_exhausted
  dispatch _ _ _ := walks_exhausted
  runJob _ _ := walks_exhausted
  checkpoint := walks_exhausted
  pump := walks_exhausted
  perform _ := walks_exhausted

variable {steps : Nat} (h : Stepping e steps)

include h

theorem call_succ (callee this : Value) (args : List Value) :
    Walks (World.Step e) (Machine.call e (steps + 1) callee this args) := by
  unfold Machine.call
  cases callee with
  | object ref =>
    refine (walks_lift fun _ => .kind ref).bind fun k => ?_
    split
    · dsimp only
      split
      · exact h.dispatch _ _ _
      · exact treads_run h.perform _
      · exact (walks_lift fun _ => .callResolving fun p _ => .resolvePromise p _).bind
          fun _ => .pure _
      · exact (walks_lift fun _ => .callResolving fun p _ => .settlePromise p _).bind
          fun _ => .pure _
    · exact h.call _ _ _
    · exact (walks_lift fun _ => .revoke ref).bind fun _ => .pure _
    · exact walks_throwTypeError _
  | _ => exact walks_throwTypeError _

theorem dispatch_succ (id : Nat) (this : Value) (args : List Value) :
    Walks (World.Step e) (Machine.dispatch e (steps + 1) id this args) := by
  unfold Machine.dispatch
  refine Walks.getThe.bind fun w => ?_
  split
  · exact .throw _
  · rename_i f _
    refine walks_attempt ?_ (walks_hostFailed f.name)
    split
    · exact ⟨fun hrun => .single (.searches hrun)⟩
    · exact Treads.step (fun _ => rfl) fun w => .reports args
    · exact treads_run h.perform _

theorem runJob_succ (job : Job) (hjob : job.work.debt? = none) :
    Walks (World.Step e) (Machine.runJob e (steps + 1) job) := by
  unfold Machine.runJob
  split
  · split
    · exact (walks_caught (h.call _ _ _)).bind fun _ => walks_settleDerived _ _
    · exact (Walks.pure _).bind fun _ => walks_settleDerived _ _
    · exact (Walks.pure _).bind fun _ => walks_settleDerived _ _
  · rename_i promise thenable method _
    refine (walks_lift fun _ => .createResolvingFunctions promise).bind fun pair => ?_
    refine (walks_caught (h.call _ _ _)).bind fun outcome => ?_
    split
    · exact .pure _
    · exact (h.call _ _ _).map
  · rename_i hwork
    rw [hwork] at hjob
    cases hjob
  · rename_i code _
    have hrun := treads_run h.perform (e.code code {})
    exact Walks.map hrun

omit h

/-- An effect that changes nothing of what the host keeps has no dealings with it. -/
theorem dealings_eq_nil {effect : Effect} (hconcerns : ¬effect.ConcernsHost) (answer : Answer) :
    effect.dealings answer = [] := by
  unfold Effect.dealings
  split
  · exact absurd trivial hconcerns
  · exact absurd trivial hconcerns
  · rfl

/-- An effect that changes nothing of what the host keeps is one step. -/
theorem step_of_sparing {effect : Effect} {outcome : Except Abrupt Answer}
    (hconcerns : ¬effect.ConcernsHost)
    (hrun : (Machine.perform e (steps + 1) (.effect effect)).run.run w = some (outcome, w')) :
    World.Step e w w' := by
  have hmakes : effect.Makes fun _ => True := fun _ _ _ => trivial
  have hchanging : Realm.Changing (fun _ => True) False effect.run w.realm fun _ _ => True :=
    .effect trivial hmakes hconcerns
  have hspares := hchanging.spares
  have hhistory : w.realm.Progresses (Realm.exec effect.run w.realm).2 := .exec hchanging
  obtain ⟨cause, realm, hexec, -, rfl⟩ | ⟨answer, realm, hexec, -, rfl⟩ := effect_cases hrun
  · rw [hexec] at hspares hhistory
    exact .works hspares hhistory (.none rfl) rfl
  · rw [hexec] at hspares hhistory
    rw [dealings_eq_nil hconcerns]
    exact .works hspares hhistory (.none rfl) rfl

/-- To publish the searches is one step, whether it fails or not. -/
theorem step_finalizeSearches {outcome : Except Abrupt Answer}
    (hrun : (Machine.perform e (steps + 1) (.effect .finalizeSearches)).run.run w =
      some (outcome, w')) : World.Step e w w' := by
  have hexec := Realm.exec_run_finalizeSearches w.realm
  have hfinalizes := Realm.exec_finalizeSearches w.realm
  cases hquiescent : w.realm.isQuiescent with
  | true =>
    rw [hquiescent, if_pos rfl] at hexec hfinalizes
    obtain ⟨cause, realm, hfinal, -, rfl⟩ | ⟨answer, realm, hfinal, -, rfl⟩ := effect_cases hrun
    · cases hexec.symm.trans hfinal
    · cases hexec.symm.trans hfinal
      exact .publishes hfinalizes
  | false =>
    rw [hquiescent, if_neg Bool.false_ne_true] at hexec
    obtain ⟨cause, realm, hfinal, -, rfl⟩ | ⟨answer, realm, hfinal, -, rfl⟩ := effect_cases hrun
    · cases hexec.symm.trans hfinal
      exact step_of_eq rfl rfl rfl
    · cases hexec.symm.trans hfinal

/-- An effect is one step. -/
theorem walks_effect (steps : Nat) (effect : Effect) :
    Walks (World.Step e) (Machine.perform e (steps + 1) (.effect effect)) := by
  refine ⟨fun {w outcome w'} hrun => .single ?_⟩
  cases effect with
  | promiseFromHost polls owed =>
    obtain ⟨cause, realm, hexec, -, rfl⟩ | ⟨answer, realm, hexec, -, rfl⟩ := effect_cases hrun
    · cases (Realm.exec_promiseFromHost polls owed w.realm).symm.trans hexec
    · cases (Realm.exec_promiseFromHost polls owed w.realm).symm.trans hexec
      exact .promises polls owed
  | takeReports =>
    obtain ⟨cause, realm, hexec, -, rfl⟩ | ⟨answer, realm, hexec, -, rfl⟩ := effect_cases hrun
    · cases (Realm.exec_takeReports w.realm).symm.trans hexec
    · cases (Realm.exec_takeReports w.realm).symm.trans hexec
      exact .drains
  | finalizeSearches => exact step_finalizeSearches hrun
  | _ => exact step_of_sparing id hrun

include h

theorem perform_succ (op : Operation) :
    Walks (World.Step e) (Machine.perform e (steps + 1) op) := by
  unfold Machine.perform
  cases op with
  | effect effect => exact walks_effect steps effect
  | call callee this args => exact (h.call callee this args).map
  | dispatch id this args => exact (h.dispatch id this args).map
  | checkpoint => exact h.checkpoint.bind fun _ => .pure _
  | pump => exact h.pump.bind fun _ => .pure _
  | search options target held name? =>
    refine (walks_search options target held).bind fun graph => ?_
    split
    · refine Walks.bind (.modify fun w => ?_) fun _ => .pure _
      exact step_of_eq rfl rfl rfl
    · exact .pure _
  | graph name | vars => exact Walks.getThe.bind fun _ => .pure _
  | note v =>
    refine Walks.bind (.modify fun _ => step_notes fun event hevent => ?_) fun _ => .pure _
    rw [List.mem_singleton.mp hevent]
    trivial
  | assign names values =>
    refine Walks.bind (.modify fun w => ?_) fun _ => .pure _
    exact step_of_eq rfl rfl rfl

omit h in
/-- A job that takes an outcome of the host to its promise does nothing else. -/
theorem arrives_of_runJob {job : Job} {promise : ObjectRef} {settling : HostOutcome}
    {outcome : Except Abrupt Unit} (hwork : job.work = .settle promise settling)
    (hrun : (Machine.runJob e steps job).run.run w = some (outcome, w')) :
    Arrives promise settling w outcome w' := by
  cases steps with
  | zero => exact nomatch hrun
  | succ steps =>
    unfold Machine.runJob at hrun
    rw [hwork] at hrun
    exact arrive_cases hrun

theorem checkpoint_succ : Walks (World.Step e) (Machine.checkpoint e (steps + 1)) :=
  walks_interruptible fun hrun => stepsTo_runJobs h.runJob arrives_of_runJob hrun

theorem pump_succ : Walks (World.Step e) (Machine.pump e (steps + 1)) :=
  walks_pumpWith h.checkpoint isEmpty_of_checkpoint steps

end Stepping

/-- The operations go along steps, with any number of steps. -/
theorem stepping (e : Embedding) (steps : Nat) : Stepping e steps := by
  induction steps with
  | zero => exact .zero e
  | succ steps ih =>
    exact
      { call := ih.call_succ
        dispatch := ih.dispatch_succ
        runJob := ih.runJob_succ
        checkpoint := ih.checkpoint_succ
        pump := ih.pump_succ
        perform := ih.perform_succ }

end Machine
end Retention
