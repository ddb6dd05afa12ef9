import Retention.Guest.Machine
import Retention.Proofs.Realm.Changing
import Retention.Proofs.Walking

/-!
# How deferred work goes on

What one round of running jobs, of pumping, or of taking in an outcome of the
host comes to, each as the list of its cases. Where all of it succeeds, nothing
is left to be done.

* `Machine.runJobs_cases`, `Machine.pumpWith_cases`, `Machine.arrive_cases`,
  `Machine.effect_cases`: the cases.
* `Realm.Affords`: whether the budget affords one more job.
* `Machine.isQuiescent_of_pump`: a pump that succeeds leaves no work behind.
-/

namespace Retention

namespace JobQueue

variable {q : JobQueue}

/-- The next job waits before those that are left without it. -/
theorem toList_jobs_of_pop {job : QueuedJob} (hnext : q.pop.1 = some job) :
    q.jobs.toList = job :: q.pop.2.jobs.toList := by
  rw [pop_fst, List.head?_eq_some_iff] at hnext
  obtain ⟨rest, hlist⟩ := hnext
  rw [toList_jobs_pop, hlist, List.tail_cons]

/-- A queue without a next job has nothing to take out. -/
theorem pop_snd_of_none (hnext : q.pop.1 = none) : q.pop.2 = q := by
  unfold pop at hnext ⊢
  split at hnext
  · cases hnext
  · rfl

end JobQueue

namespace Realm

variable {r : Realm}

/-- One more job is within the budget. -/
def Affords (r : Realm) : Prop := ∀ budget, r.options.jobBudget? = some budget → r.jobsRun < budget

theorem affords_iff : r.Affords ↔ ¬r.options.jobBudget?.any (· < r.jobsRun + 1) = true := by
  simp only [Affords, Option.any_eq_true, decide_eq_true_eq, not_exists, not_and, Nat.not_lt,
    Nat.succ_le_iff]

instance : Decidable r.Affords := decidable_of_iff _ affords_iff.symm

/-- A job is counted whether the budget affords it or not, and whatever jobs wait. -/
theorem exec_chargeJob (r : Realm) (jobs : JobQueue) :
    exec chargeJob { r with jobs } =
      (if r.Affords then .ok () else .error .outOfFuel,
        { r with jobs, jobsRun := r.jobsRun + 1 }) := by
  rw [chargeJob, exec_bind_of_ok (exec_modify _), exec_bind_of_ok (exec_getThe _)]
  by_cases haffords : r.Affords
  · rw [if_neg (affords_iff.mp haffords), if_pos haffords]
    rfl
  · rw [if_pos (Classical.not_not.mp (mt affords_iff.mpr haffords)), if_neg haffords]
    rfl

end Realm

namespace World

/-- The next job is taken from the queue and counted. -/
def takes (w : World) : World :=
  { w with realm := { w.realm with jobs := w.realm.jobs.pop.2, jobsRun := w.realm.jobsRun + 1 } }

/-- The next job is taken from the queue, counted and noted. -/
def starts (w : World) (job : QueuedJob) : World :=
  { w.takes with journal := w.journal ++ [Event.jobStarted job.number].toArray }

/-- More dealings. -/
def deals (w : World) (dealings : List Dealing) : World :=
  { w with dealings := dealings.foldl Sequence.push w.dealings }

/-- The work that the host ended becomes a job. -/
def receives (w : World) (work : HostWork) (hostWork : Queue HostWork) : World :=
  { w with
    realm := { w.realm with
      hostWork
      jobs := w.realm.jobs.push
        { kind := .hostSettlement, work := .settle work.promise work.outcome } } }

theorem toList_deals (w : World) (dealings : List Dealing) :
    (w.deals dealings).dealings.toList = w.dealings.toList ++ dealings := by
  have hfold : ∀ (items : List Dealing) (s : Sequence Dealing),
      (items.foldl Sequence.push s).toList = s.toList ++ items := by
    intro items
    induction items with
    | nil => simp
    | cons item rest ih => simp [ih]
  exact hfold dealings w.dealings

end World

namespace Machine

variable {α : Type} {w w' : World} {outcome : Except Abrupt Unit} {steps : Nat}

theorem run_lift (m : RealmM α) (w : World) :
    (lift m).run.run w =
      some ((Realm.exec m w.realm).1, { w with realm := (Realm.exec m w.realm).2 }) := rfl

theorem run_lift_of_exec {m : RealmM α} {outcome : Except Abrupt α} {realm : Realm}
    (hexec : Realm.exec m w.realm = (outcome, realm)) :
    (lift m).run.run w = some (outcome, { w with realm }) := by
  rw [run_lift, hexec]

/-- An operation on the realm, and what comes after it. -/
theorem run_lift_bind {β : Type} {m : RealmM α} {f : α → Machine β} {outcome : Except Abrupt β}
    (hrun : (lift m >>= f).run.run w = some (outcome, w')) :
    (∃ cause realm, Realm.exec m w.realm = (.error cause, realm) ∧ outcome = .error cause ∧
      w' = { w with realm }) ∨
    ∃ a realm, Realm.exec m w.realm = (.ok a, realm) ∧
      (f a).run.run { w with realm } = some (outcome, w') := by
  obtain ⟨cause, hm, hout⟩ | ⟨a, w₁, hm, hrest⟩ := run_bind_eq_some_iff.mp hrun
  · obtain ⟨hfst, rfl⟩ := Prod.mk.inj (Option.some.inj ((run_lift m w).symm.trans hm))
    exact .inl ⟨cause, _, Prod.ext hfst rfl, hout, rfl⟩
  · obtain ⟨hfst, rfl⟩ := Prod.mk.inj (Option.some.inj ((run_lift m w).symm.trans hm))
    exact .inr ⟨a, _, Prod.ext hfst rfl, hrest⟩

/-! ## Jobs -/

/-- The cases of running jobs until none is left. -/
inductive RunsJobs (run : Job → Machine Unit) (steps : Nat) (w : World) :
    Except Abrupt Unit → World → Prop where
  | none (next : w.realm.jobs.pop.1 = none) : RunsJobs run steps w (.ok ()) w
  /-- The budget is used up. -/
  | refused {job : QueuedJob} (next : w.realm.jobs.pop.1 = some job)
    (spent : ¬w.realm.Affords) : RunsJobs run steps w (.error .outOfFuel) w.takes
  | failed {job : QueuedJob} {cause : Abrupt} {w' : World} (next : w.realm.jobs.pop.1 = some job)
    (affords : w.realm.Affords)
    (ran : (run job.toJob).run.run (w.starts job) = some (.error cause, w')) :
    RunsJobs run steps w (.error cause) w'
  | ran {job : QueuedJob} {w₁ w' : World} {outcome : Except Abrupt Unit}
    (next : w.realm.jobs.pop.1 = some job) (affords : w.realm.Affords)
    (ran : (run job.toJob).run.run (w.starts job) = some (.ok (), w₁))
    (rest : (runJobs run steps).run.run w₁ = some (outcome, w')) :
    RunsJobs run steps w outcome w'

section

variable {run : Job → Machine Unit} {job : QueuedJob}

theorem exec_takeJob (r : Realm) :
    Realm.exec Realm.takeJob r = (.ok r.jobs.pop.1, { r with jobs := r.jobs.pop.2 }) := rfl

/-- No job is left. -/
theorem run_runJobs_of_none (run : Job → Machine Unit) (hnext : w.realm.jobs.pop.1 = none) :
    (runJobs run (steps + 1)).run.run w = some (.ok (), w) := by
  have htake := hnext ▸ exec_takeJob w.realm
  rw [runJobs, run_bind_of_ok (run_lift_of_exec htake), JobQueue.pop_snd_of_none hnext]
  rfl

/-- The job that is next is counted, whether it is refused or not. -/
theorem run_runJobs_of_some (run : Job → Machine Unit) (hnext : w.realm.jobs.pop.1 = some job) :
    (runJobs run (steps + 1)).run.run w = (do
      lift Realm.chargeJob
      record [.jobStarted job.number]
      run job.toJob
      runJobs run steps).run.run
        { w with realm := { w.realm with jobs := w.realm.jobs.pop.2 } } := by
  have htake := hnext ▸ exec_takeJob w.realm
  rw [runJobs, run_bind_of_ok (run_lift_of_exec htake)]

/-- A job that the budget affords is run before the others. -/
theorem run_runJobs_of_affords (hnext : w.realm.jobs.pop.1 = some job)
    (haffords : w.realm.Affords) :
    (runJobs run (steps + 1)).run.run w =
      (run job.toJob >>= fun _ => runJobs run steps).run.run (w.starts job) := by
  have hcharge := w.realm.exec_chargeJob w.realm.jobs.pop.2
  rw [if_pos haffords] at hcharge
  have hrecord : (record [.jobStarted job.number]).run.run w.takes =
      some (.ok (), w.starts job) := rfl
  rw [run_runJobs_of_some run hnext, run_bind_of_ok (run_lift_of_exec hcharge)]
  exact run_bind_of_ok hrecord

/-- A job that the budget does not afford is counted, and is not run. -/
theorem run_runJobs_of_spent (hnext : w.realm.jobs.pop.1 = some job)
    (hspent : ¬w.realm.Affords) :
    (runJobs run (steps + 1)).run.run w = some (.error .outOfFuel, w.takes) := by
  have hcharge := w.realm.exec_chargeJob w.realm.jobs.pop.2
  rw [if_neg hspent] at hcharge
  rw [run_runJobs_of_some run hnext]
  exact run_bind_of_error (run_lift_of_exec hcharge)

theorem runJobs_cases (hrun : (runJobs run (steps + 1)).run.run w = some (outcome, w')) :
    RunsJobs run steps w outcome w' := by
  cases hnext : w.realm.jobs.pop.1 with
  | none =>
    rw [run_runJobs_of_none run hnext] at hrun
    obtain ⟨rfl, rfl⟩ := Prod.mk.inj (Option.some.inj hrun)
    exact .none hnext
  | some job =>
    by_cases haffords : w.realm.Affords
    · rw [run_runJobs_of_affords hnext haffords] at hrun
      obtain ⟨cause, hran, rfl⟩ | ⟨_, w₁, hran, hrest⟩ := run_bind_eq_some_iff.mp hrun
      · exact .failed hnext haffords hran
      · exact .ran hnext haffords hran hrest
    · rw [run_runJobs_of_spent hnext haffords] at hrun
      obtain ⟨rfl, rfl⟩ := Prod.mk.inj (Option.some.inj hrun)
      exact .refused hnext haffords

end

/-- Jobs are run until none is left. -/
theorem isEmpty_of_runJobs {run : Job → Machine Unit}
    (hrun : (runJobs run steps).run.run w = some (.ok (), w')) :
    w'.realm.jobs.isEmpty = true := by
  induction steps generalizing w with
  | zero => exact nomatch hrun
  | succ steps ih =>
    generalize hok : (Except.ok () : Except Abrupt Unit) = outcome at hrun
    cases runJobs_cases hrun with
    | none next =>
      rw [JobQueue.pop_fst, List.head?_eq_none_iff] at next
      exact (Queue.isEmpty_iff _).mpr next
    | refused next spent => cases hok
    | failed next affords ran => cases hok
    | ran next affords ran rest =>
      subst hok
      exact ih rest

/-! ## Deferred work that may fail -/

/-- What is interruptible succeeds as it is. -/
theorem run_interruptible_of_ok {work : Machine Unit}
    (hrun : work.run.run w = some (.ok (), w')) :
    (interruptible work).run.run w = some (.ok (), w') := by
  rw [interruptible, ExceptT.run_tryCatch, StateT.run_bind, hrun]
  rfl

theorem run_interruptible_of_error {work : Machine Unit} {cause : Abrupt}
    (hrun : work.run.run w = some (.error cause, w')) :
    (interruptible work).run.run w = some (.error cause, w'.deals [.interrupted cause]) := by
  rw [interruptible, ExceptT.run_tryCatch, StateT.run_bind, hrun]
  rfl

/-- Deferred work that fails is noted as such. -/
theorem interruptible_cases {work : Machine Unit}
    (hrun : (interruptible work).run.run w = some (outcome, w')) :
    (outcome = .ok () ∧ work.run.run w = some (.ok (), w')) ∨
    ∃ cause w₁, outcome = .error cause ∧ work.run.run w = some (.error cause, w₁) ∧
      w' = w₁.deals [.interrupted cause] := by
  unfold interruptible at hrun
  rw [ExceptT.run_tryCatch, StateT.run_bind] at hrun
  obtain ⟨⟨first, w₁⟩, hwork, hrest⟩ := Option.bind_eq_some_iff.mp hrun
  cases first with
  | ok a =>
    obtain ⟨rfl, rfl⟩ := Prod.mk.inj (Option.some.inj hrest)
    exact .inl ⟨rfl, hwork⟩
  | error cause =>
    obtain ⟨rfl, rfl⟩ := Prod.mk.inj (Option.some.inj hrest)
    exact .inr ⟨cause, w₁, rfl, hwork, rfl⟩

/-! ## Host work -/

/-- The cases of pumping until nothing is left. -/
inductive Pumps (order : HostOrder) (checkpoint : Machine Unit) (steps : Nat) (w : World) :
    Except Abrupt Unit → World → Prop where
  | failed {cause : Abrupt} {w' : World}
    (checked : checkpoint.run.run w = some (.error cause, w')) :
    Pumps order checkpoint steps w (.error cause) w'
  | quiesced {w' : World} (checked : checkpoint.run.run w = some (.ok (), w'))
    (next : order.next w'.realm.hostWork = none) :
    Pumps order checkpoint steps w (.ok ()) (w'.deals [.quiesced])
  | received {w₁ w' : World} {work : HostWork} {hostWork : Queue HostWork}
    {outcome : Except Abrupt Unit} (checked : checkpoint.run.run w = some (.ok (), w₁))
    (next : order.next w₁.realm.hostWork = some (work, hostWork))
    (rest : (pumpWith order checkpoint steps).run.run (w₁.receives work hostWork) =
      some (outcome, w')) :
    Pumps order checkpoint steps w outcome w'

theorem pumpWith_cases {order : HostOrder} {checkpoint : Machine Unit}
    (hrun : (pumpWith order checkpoint (steps + 1)).run.run w = some (outcome, w')) :
    Pumps order checkpoint steps w outcome w' := by
  obtain ⟨cause, hchecked, rfl⟩ | ⟨_, w₁, hchecked, hrest⟩ := run_bind_eq_some_iff.mp hrun
  · exact .failed hchecked
  cases hnext : order.next w₁.realm.hostWork with
  | none =>
    have hexec := Realm.exec_takeHostWork_none hnext
    obtain ⟨cause, realm, htake, -⟩ | ⟨work?, realm, htake, hrest⟩ := run_lift_bind hrest
    · exact nomatch congrArg Prod.fst (hexec.symm.trans htake)
    · obtain ⟨hnone, rfl⟩ := Prod.mk.inj (hexec.symm.trans htake)
      obtain rfl := Except.ok.inj hnone
      obtain ⟨rfl, rfl⟩ := Prod.mk.inj (Option.some.inj hrest)
      exact .quiesced hchecked hnext
  | some taken =>
    obtain ⟨work, hostWork⟩ := taken
    have hexec := Realm.exec_takeHostWork_some hnext
    obtain ⟨cause, realm, htake, -⟩ | ⟨work?, realm, htake, hrest⟩ := run_lift_bind hrest
    · exact nomatch congrArg Prod.fst (hexec.symm.trans htake)
    · obtain ⟨hsome, rfl⟩ := Prod.mk.inj (hexec.symm.trans htake)
      obtain rfl := Except.ok.inj hsome
      exact .received hchecked hnext hrest

/-- A pump that succeeds leaves no work behind. -/
theorem isQuiescent_of_pumpWith {order : HostOrder} {checkpoint : Machine Unit}
    (hcheckpoint : ∀ {w w'}, checkpoint.run.run w = some (.ok (), w') →
      w'.realm.jobs.isEmpty = true)
    (hrun : (pumpWith order checkpoint steps).run.run w = some (.ok (), w')) :
    w'.realm.isQuiescent = true ∧ ∃ w₁, w' = World.deals w₁ [.quiesced] := by
  induction steps generalizing w with
  | zero => exact nomatch hrun
  | succ steps ih =>
    generalize hok : (Except.ok () : Except Abrupt Unit) = outcome at hrun
    cases pumpWith_cases hrun with
    | failed checked => cases hok
    | @quiesced w₁ checked next =>
      have hwork : w₁.realm.hostWork.isEmpty = true :=
        (Queue.isEmpty_iff _).mpr ((order.next_eq_none_iff _).mp next)
      have hjobs : w₁.realm.jobs.isEmpty = true := hcheckpoint checked
      exact ⟨Bool.and_eq_true_iff.mpr ⟨hjobs, hwork⟩, w₁, rfl⟩
    | received checked next rest =>
      subst hok
      exact ih rest

theorem isEmpty_of_checkpoint {e : Embedding}
    (hrun : (checkpoint e steps).run.run w = some (.ok (), w')) :
    w'.realm.jobs.isEmpty = true := by
  cases steps with
  | zero => exact nomatch hrun
  | succ steps =>
    unfold checkpoint at hrun
    obtain ⟨-, hwork⟩ | ⟨cause, w₁, herror, -⟩ := interruptible_cases hrun
    · exact isEmpty_of_runJobs hwork
    · cases herror

/-- A pump that succeeds leaves no work behind, and says so. -/
theorem isQuiescent_of_pump {e : Embedding}
    (hrun : (pump e steps).run.run w = some (.ok (), w')) :
    w'.realm.isQuiescent = true ∧ ∃ w₁, w' = World.deals w₁ [.quiesced] := by
  cases steps with
  | zero => exact nomatch hrun
  | succ steps =>
    unfold pump at hrun
    exact isQuiescent_of_pumpWith isEmpty_of_checkpoint hrun

/-! ## Outcomes of the host -/

/-- The cases of an outcome that arrives at its promise. -/
inductive Arrives (promise : ObjectRef) (settling : HostOutcome) (w : World) :
    Except Abrupt Unit → World → Prop where
  | failed {cause : Abrupt} {realm : Realm}
    (settles : Realm.exec (Realm.settleFromHost promise settling) w.realm =
      (.error cause, realm)) :
    Arrives promise settling w (.error cause) { w with realm }
  | settled {realm : Realm}
    (settles : Realm.exec (Realm.settleFromHost promise settling) w.realm = (.ok (), realm)) :
    Arrives promise settling w (.ok ())
      (World.deals { w with realm } [.arrived promise settling (w.realm.isPending promise)])

theorem arrive_cases {promise : ObjectRef} {settling : HostOutcome}
    (hrun : (arrive promise settling).run.run w = some (outcome, w')) :
    Arrives promise settling w outcome w' := by
  have hlift : (lift (Realm.settleFromHost promise settling) >>= fun _ =>
      deal [.arrived promise settling (w.realm.isPending promise)]).run.run w =
        some (outcome, w') := hrun
  obtain ⟨cause, realm, hsettle, rfl, rfl⟩ | ⟨_, realm, hsettle, hrest⟩ := run_lift_bind hlift
  · exact .failed hsettle
  · obtain ⟨rfl, rfl⟩ := Prod.mk.inj (Option.some.inj hrest)
    exact .settled hsettle

/-! ## Effects -/

/-- An effect fails, or answers and has dealings. -/
theorem effect_cases {e : Embedding} {effect : Effect} {outcome : Except Abrupt Answer}
    (hrun : (perform e (steps + 1) (.effect effect)).run.run w = some (outcome, w')) :
    (∃ cause realm, Realm.exec effect.run w.realm = (.error cause, realm) ∧
      outcome = .error cause ∧ w' = { w with realm }) ∨
    ∃ answer realm, Realm.exec effect.run w.realm = (.ok answer, realm) ∧
      outcome = .ok answer ∧ w' = World.deals { w with realm } (effect.dealings answer) := by
  unfold perform at hrun
  obtain ⟨cause, realm, hexec, hout, hw'⟩ | ⟨answer, realm, hexec, hrest⟩ := run_lift_bind hrun
  · exact .inl ⟨cause, realm, hexec, hout, hw'⟩
  · obtain ⟨rfl, rfl⟩ := Prod.mk.inj (Option.some.inj hrest)
    exact .inr ⟨answer, realm, hexec, rfl, rfl⟩

end Machine
end Retention
