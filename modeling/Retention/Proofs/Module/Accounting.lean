import Retention.Proofs.Guest.Turns
import Retention.Proofs.Module.Running

/-!
# Jobs are run in order, and counted

Jobs are run in the order in which they were enqueued, in every world that a realm
goes through (`World.Arises`): also in the midst of jobs that run others, after jobs
that failed, and when an operation never ends. A job that the budget refuses is
taken and counted, although it is not started.

* `World.Arises.jobSteps`: all that happened to the jobs.
* `Machine.jobs_run_in_order`: which jobs are started, and what a failure leaves.
* `World.counts_of_arises`: what is counted.
-/

namespace Retention

open Relation

namespace World

variable {e : Embedding} {options : Options} {w w' : World}

theorem jobSteps_delivers {r : Run} (h : ReflTransGen JobStep w r.world) :
    ReflTransGen JobStep w r.delivers.world :=
  h.tail (.enqueues (.of_eq rfl rfl rfl rfl))

/-- The body of a module is no job. -/
theorem jobStep_begins (w : World) (specifier : String) (imports : List (String × Value)) :
    JobStep w (w.notes [.bodyStarted specifier imports]) :=
  .enqueues (.of_eq rfl rfl rfl (by simp [started, notes, Event.started?]))

theorem jobSteps_of_run {r r' : Run} (h : Run.Step e r r') :
    ReflTransGen JobStep r.world r'.world := by
  cases h with
  | serves serves =>
    cases serves with
    | performs steps => exact jobSteps_delivers (jobSteps_of_steps steps)
    | works spares history => exact .single (.enqueues (.of_spares spares rfl))
  | evaluates specifier imports steps =>
    exact jobSteps_delivers (.head (jobStep_begins _ specifier imports) (jobSteps_of_steps steps))
  | publishes finalizes =>
    obtain ⟨-, -, rfl⟩ := Realm.exec_finalizeSearches_eq_ok finalizes
    exact .single (.enqueues (.of_eq rfl rfl rfl rfl))
  | keeps world delivered => exact world ▸ .refl

/-- The worlds that a realm goes through: what comes up from a fresh realm on, and
whatever happens then in the midst of a run, a job or a pump, whether that ever ends
or not. -/
inductive Arises (e : Embedding) (options : Options) : World → Prop where
  | comesUp {w : World} (comesUp : w.ComesUp e options) : Arises e options w
  /-- Guest code performs an operation, which may fail. -/
  | performs {w w' : World} {steps : Nat} {op : Operation} {outcome : Except Abrupt Answer}
    (before : Arises e options w)
    (ran : (Machine.perform e steps op).run.run w = some (outcome, w')) : Arises e options w'
  /-- The body of a module is started. -/
  | begins {w : World} (before : Arises e options w) (specifier : String)
    (imports : List (String × Value)) : Arises e options (w.notes [.bodyStarted specifier imports])
  /-- The next job is taken, charged and started. -/
  | starts {w : World} {job : QueuedJob} {realm : Realm} (before : Arises e options w)
    (next : w.realm.jobs.pop.1 = some job)
    (charged : Realm.exec Realm.chargeJob { w.realm with jobs := w.realm.jobs.pop.2 } =
      (.ok (), realm)) :
    Arises e options { w with realm, journal := w.journal ++ [.jobStarted job.number].toArray }
  /-- A job ends, which may have failed. -/
  | ends {w w' : World} {steps : Nat} {job : Job} {outcome : Except Abrupt Unit}
    (before : Arises e options w)
    (ran : (Machine.runJob e steps job).run.run w = some (outcome, w')) : Arises e options w'
  /-- The outcome that arrives next becomes a job. -/
  | receives {w : World} {work : HostWork} {hostWork : Queue HostWork}
    (before : Arises e options w) (next : e.order.next w.realm.hostWork = some (work, hostWork)) :
    Arises e options (w.receives work hostWork)

/-- All that happens to jobs, from a fresh realm on. -/
theorem Arises.jobSteps (h : w.Arises e options) :
    ReflTransGen JobStep { realm := { options } } w := by
  -- Each way to go on is a number of steps, also where it is only part of an operation.
  induction h with
  | comesUp comesUp =>
    exact comesUp.induct .refl (fun hw hstep => hw.trans hstep.jobSteps)
      fun hr hstep => hr.trans (jobSteps_of_run hstep)
  | performs before ran ih =>
    exact ih.trans (jobSteps_of_steps (((Machine.stepping e _).perform _).steps ran))
  | begins before specifier imports ih => exact ih.tail (jobStep_begins _ specifier imports)
  | @starts w job realm before next charged ih =>
    rw [Realm.exec_chargeJob] at charged
    obtain ⟨hcharged, rfl⟩ := Prod.mk.inj charged
    split at hcharged
    · exact ih.tail (.starts next ‹_›)
    · cases hcharged
  | ends before ran ih => exact ih.trans (Machine.jobSteps_runJob ran)
  | receives before next ih => exact ih.tail (.enqueues (.push rfl rfl rfl rfl))

theorem Arises.starts_of_affords {job : QueuedJob} (h : w.Arises e options)
    (hnext : w.realm.jobs.pop.1 = some job) (haffords : w.realm.Affords) :
    (w.starts job).Arises e options := by
  have hcharged := w.realm.exec_chargeJob w.realm.jobs.pop.2
  rw [if_pos haffords] at hcharged
  exact h.starts hnext hcharged

theorem Arises.paced (h : w.Arises e options) : w.Paced options :=
  (Paced.fresh options).jobSteps h.jobSteps

end World

namespace Machine

/-- In every world that a realm goes through, the jobs that were started are the
first ones that were enqueued, each of them once and in order, and no more of them
than the budget grants; those that wait come after them in order. A checkpoint
succeeds only when no job is left. When a job fails, the checkpoint that runs it
fails at once in the same way, and the jobs behind it wait in order, apart from
those that the job has run itself. -/
theorem jobs_run_in_order (e : Embedding) (options : Options) :
    (∀ {w : World}, w.Arises e options →
      (∃ count ≤ w.realm.jobs.enqueued, w.started = List.range count ∧
        (∀ budget, options.jobBudget? = some budget → count ≤ budget) ∧
        ∀ job ∈ w.queue, count ≤ job.number) ∧
      w.queue.map QueuedJob.number = List.range' w.realm.jobsRun w.queue.length) ∧
    (∀ {steps : Nat} {w w' : World}, (checkpoint e steps).run.run w = some (.ok (), w') →
      w'.queue = []) ∧
    ∀ {steps count : Nat} {w w₁ w₂ : World} {job : QueuedJob} {cause : Abrupt},
      RunsInTurn (runJob e steps) count w w₁ → count < steps →
      w₁.realm.jobs.pop.1 = some job → w₁.realm.Affords →
      (runJob e steps job.toJob).run.run (w₁.starts job) = some (.error cause, w₂) →
      (checkpoint e (steps + 1)).run.run w =
        some (.error cause, w₂.deals [.interrupted cause]) ∧
      ∃ taken added, w₁.queue.tail ++ added = taken ++ w₂.queue ∧
        w₂.realm.jobsRun = w₁.realm.jobsRun + 1 + taken.length := by
  refine ⟨fun {w} hw => ⟨⟨_, ?_, hw.paced.started, ?_, ?_⟩, hw.paced.numbers_queue⟩, ?_, ?_⟩
  · rw [hw.paced.follows.enqueued]
    exact Nat.le_trans (options.granted_le _) (Nat.le_add_right _ _)
  · intro budget hbudget
    exact Options.granted_le_budget hbudget
  · intro job hjob
    have hmem := List.mem_map_of_mem (f := QueuedJob.number) hjob
    rw [hw.paced.numbers_queue, List.mem_range'_1] at hmem
    exact Nat.le_trans (options.granted_le _) hmem.1
  · intro steps w w' hrun
    exact (Queue.isEmpty_iff _).mp (isEmpty_of_checkpoint hrun)
  · intro steps count w w₁ w₂ job cause hturns hsteps hnext haffords hfails
    refine ⟨run_checkpoint_of_fails hturns hsteps hnext haffords hfails, ?_⟩
    obtain ⟨taken, added, hqueue, hcount⟩ := World.Queues.of_jobSteps (jobSteps_runJob hfails)
    exact ⟨taken, added, hqueue ▸ congrArg (· ++ added) (JobQueue.toList_jobs_pop _).symm, hcount⟩

/-! ### A job that runs others -/

/-- How the job that fails ends. -/
def stop : Abrupt := .thrown (.bool true)

/-- Guest code that runs a checkpoint, guest code that fails, and code that does
nothing. -/
def reentrant : Embedding where
  code code _ :=
    if code = 0 then do
      let _ ← Program.ask .checkpoint
      return .undefined
    else if code = 1 then .done (.error stop)
    else return .undefined
  host _ _ _ := pure .undefined
  analyzer _ _ _ _ := []

/-- Jobs of guest code are enqueued, by the numbers of their code. -/
def withJobs (codes : List Nat) (w : World) : World :=
  { w with realm := { w.realm with
    jobs := w.realm.jobs.pushAll (codes.map fun code => ⟨.generic, .code code⟩) } }

theorem arises_withJobs {options : Options} {w : World} (hw : w.Arises e options)
    (codes : List Nat) : (withJobs codes w).Arises e options := by
  induction codes generalizing w with
  | nil => exact hw
  | cons code codes ih =>
    have hrun : (perform e 1 (.effect (.enqueue .generic code))).run.run w =
      some (.ok .unit, withJobs [code] w) := rfl
    exact ih (.performs hw hrun)

theorem arises_fresh (e : Embedding) (options : Options) :
    World.Arises e options { realm := { options } } :=
  .comesUp (.operations .refl)

/-- A realm that affords three jobs, in which four wait: the second one runs a
checkpoint, in which the third one fails. -/
def nested : World :=
  withJobs [2, 0, 1, 2] { realm := { options := { jobBudget? := some 3 } } }

/-- A job of guest code in its queue. -/
def queued (code number : Nat) : QueuedJob := ⟨⟨.generic, .code code⟩, number⟩

/-- The world in which the first job is over. -/
def nestedOnce : World := nested.starts (queued 2 0)

/-- The world in which the second and the third job have failed. -/
def nestedEnd : World :=
  ((nestedOnce.starts (queued 0 1)).starts (queued 1 2)).deals [.interrupted stop]

/-- The job that fails ends both checkpoints, and the last job waits. A checkpoint of
one job that does nothing succeeds. -/
theorem jobs_run_in_order_nested :
    (checkpoint reentrant 9).run.run nested =
      some (.error stop, nestedEnd.deals [.interrupted stop]) ∧
    nestedEnd.started = List.range 3 ∧ nestedEnd.queue.map QueuedJob.number = [3] ∧
    ∃ w', (checkpoint reentrant 9).run.run (withJobs [2] {}) = some (.ok (), w') ∧
      w'.queue = [] := by
  obtain ⟨horder, hempty, hfails⟩ := jobs_run_in_order reentrant nested.realm.options
  have hnext : nested.realm.jobs.pop.1 = some (queued 2 0) := by decide
  have hnext' : nestedOnce.realm.jobs.pop.1 = some (queued 0 1) := by decide
  have haffords : nested.realm.Affords := by decide
  have haffords' : nestedOnce.realm.Affords := by decide
  have hfirst : (runJob reentrant 8 (queued 2 0).toJob).run.run nestedOnce =
      some (.ok (), nestedOnce) := by decide +kernel
  have hsecond : (runJob reentrant 8 (queued 0 1).toJob).run.run
      (nestedOnce.starts (queued 0 1)) = some (.error stop, nestedEnd) := by decide +kernel
  obtain ⟨hrun, -⟩ := hfails (.next hnext haffords hfirst (.none _)) (by decide) hnext' haffords'
    hsecond
  have hnested : nested.Arises reentrant nested.realm.options :=
    arises_withJobs (arises_fresh _ _) _
  have hend : nestedEnd.Arises reentrant nested.realm.options :=
    .ends ((hnested.starts_of_affords hnext haffords).starts_of_affords hnext' haffords') hsecond
  obtain ⟨⟨count, -, hstarted, -⟩, hqueue⟩ := horder hend
  have hcount : nestedEnd.started.length = 3 := by decide
  have hlone : ((checkpoint reentrant 9).run.run (withJobs [2] {})).map (·.1) =
      some (.ok ()) := by decide +kernel
  refine ⟨hrun, ?_, hqueue, ?_⟩
  · rw [hstarted, List.length_range] at hcount
    rw [hstarted, hcount]
  · obtain ⟨⟨_, w'⟩, hlone, rfl⟩ := Option.map_eq_some_iff.mp hlone
    exact ⟨w', hlone, hempty hlone⟩

end Machine

namespace World

open Machine

variable {e : Embedding} {options : Options} {w : World}

/-- In every world that a realm goes through, the jobs that were ever enqueued are
those that were counted and those that wait. As many of those that were counted were
started as the budget grants. So the count is that of the jobs that were started
until the first job is refused, and only until then. -/
theorem counts_of_arises (h : w.Arises e options) :
    w.realm.jobs.enqueued = w.realm.jobsRun + w.realm.jobs.size ∧
    w.started.length = options.jobBudget?.elim w.realm.jobsRun (min w.realm.jobsRun) ∧
    (w.realm.jobsRun = w.started.length ↔
      ∀ budget, options.jobBudget? = some budget → w.realm.jobsRun ≤ budget) := by
  have hlength : w.started.length = options.granted w.realm.jobsRun := by
    rw [h.paced.started, List.length_range]
  refine ⟨h.paced.follows.enqueued, hlength, ?_⟩
  rw [hlength, eq_comm]
  exact Options.granted_eq_iff

/-- A realm that affords so many jobs, in which two jobs wait that do nothing. -/
def scant (budget : Nat) : World :=
  withJobs [2, 2] { realm := { options := { jobBudget? := some budget } } }

theorem arises_scant {w' : World} {budget steps : Nat} {outcome : Except Abrupt Answer}
    (hrun : (perform reentrant steps .checkpoint).run.run (scant budget) = some (outcome, w')) :
    w'.Arises reentrant { jobBudget? := some budget } :=
  .performs (arises_withJobs (arises_fresh _ _) _) hrun

/-- The second job is refused: it is counted, and not started. -/
theorem counts_of_arises_scant :
    ∃ w', (perform reentrant 9 .checkpoint).run.run (scant 1) = some (.error .outOfFuel, w') ∧
      w'.realm.jobs.enqueued = w'.realm.jobsRun + w'.realm.jobs.size ∧
      w'.started.length = min w'.realm.jobsRun 1 ∧ w'.realm.jobsRun ≠ w'.started.length := by
  have hrun : (perform reentrant 9 .checkpoint).run.run (scant 1) = some (.error .outOfFuel,
      ((scant 1).starts (queued 2 0)).takes.deals [.interrupted .outOfFuel]) := by
    decide +kernel
  obtain ⟨henqueued, hstarted, hexact⟩ := counts_of_arises (arises_scant hrun)
  refine ⟨_, hrun, henqueued, hstarted, fun heq => ?_⟩
  exact absurd (hexact.mp heq 1 rfl) (by decide)

/-- A job that is not afforded is counted, although no job was started. -/
theorem not_counts_of_scant :
    ∃ w', (perform reentrant 9 .checkpoint).run.run (scant 0) = some (.error .outOfFuel, w') ∧
      w'.Arises reentrant { jobBudget? := some 0 } ∧ w'.realm.jobsRun = 1 ∧ w'.started = [] := by
  have hrun : (perform reentrant 9 .checkpoint).run.run (scant 0) =
      some (.error .outOfFuel, (scant 0).takes.deals [.interrupted .outOfFuel]) := by
    decide +kernel
  exact ⟨_, hrun, arises_scant hrun, by decide, by decide⟩

end World
end Retention
