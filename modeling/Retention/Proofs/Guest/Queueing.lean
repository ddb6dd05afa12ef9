import Retention.Proofs.Guest.Deferring
import Retention.Proofs.Realm.Sparing

/-!
# The queue of jobs

Whatever happens in a world, three things can happen to its jobs
(`World.JobStep`): some are put behind those that wait, the next one is started, or
the next one is refused since the budget is used up. So the jobs that wait are
always the ones enqueued last, in order, and the jobs that were started are the
first ones that the budget grants.

* `World.Queues.of_jobSteps`: jobs are taken in front and put behind.
* `World.Paced`: which jobs were started, and which wait.
* `World.Paced.jobSteps`: this holds throughout.
-/

namespace Retention

open Relation

/-- The number of the job that an event is the start of. -/
def Event.started? : Event → Option Nat
  | .jobStarted number => some number
  | .noted _ | .searchOptions _ | .reported _ | .bodyStarted .. => none

/-- How many of so many jobs the budget grants. -/
def Options.granted (options : Options) (count : Nat) : Nat :=
  options.jobBudget?.elim count (min count)

namespace Options

variable {options : Options} {count budget : Nat}

theorem granted_le (options : Options) (count : Nat) : options.granted count ≤ count := by
  unfold granted
  cases options.jobBudget? with
  | none => exact Nat.le_refl _
  | some budget => exact Nat.min_le_left _ _

theorem granted_le_budget (hbudget : options.jobBudget? = some budget) :
    options.granted count ≤ budget := by
  rw [granted, hbudget]
  exact Nat.min_le_right _ _

theorem granted_eq_iff :
    options.granted count = count ↔
      ∀ budget, options.jobBudget? = some budget → count ≤ budget := by
  unfold granted
  cases options.jobBudget? with
  | none => simp
  | some budget =>
    simp only [Option.elim_some, Option.some.injEq, forall_eq']
    omega

theorem granted_of_lt (h : ∀ budget, options.jobBudget? = some budget → count < budget) :
    options.granted (count + 1) = options.granted count + 1 := by
  have hcount : options.granted count = count :=
    granted_eq_iff.mpr fun budget hbudget => Nat.le_of_lt (h budget hbudget)
  rw [granted_eq_iff.mpr h, hcount]

/-- A budget that is used up grants no more jobs. -/
theorem granted_of_not_lt (h : ¬∀ budget, options.jobBudget? = some budget → count < budget) :
    options.granted (count + 1) = options.granted count := by
  obtain ⟨budget, hspent⟩ := Classical.not_forall.mp h
  obtain ⟨hbudget, hle⟩ := Classical.not_imp.mp hspent
  simp only [granted, hbudget, Option.elim_some]
  omega

end Options

namespace JobQueue

variable {q : JobQueue} {taken : Nat} {job : QueuedJob}

/-- The numbers of the jobs that wait, the next one first. -/
def numbers (q : JobQueue) : List Nat := q.jobs.toList.map QueuedJob.number

/-- The jobs that were enqueued first are taken, as many as that. The others wait in
the order in which they were enqueued. -/
structure Follows (q : JobQueue) (taken : Nat) : Prop where
  numbers : q.numbers = List.range' taken q.size
  enqueued : q.enqueued = taken + q.size

theorem Follows.push (h : q.Follows taken) (j : Job) : (q.push j).Follows taken where
  numbers := by
    rw [size_push, List.range'_concat, ← h.numbers, Nat.one_mul, ← h.enqueued, JobQueue.numbers,
      toList_jobs_push, List.map_append]
    rfl
  enqueued := by
    rw [size_push, ← Nat.add_assoc, ← h.enqueued]
    rfl

theorem Follows.pushAll (h : q.Follows taken) (added : List Job) :
    (q.pushAll added).Follows taken := by
  induction added generalizing q with
  | nil => exact h
  | cons j added ih => exact ih (h.push j)

/-- The job that is taken next is the one after those that were taken. -/
theorem Follows.pop (h : q.Follows taken) (hnext : q.pop.1 = some job) :
    job.number = taken ∧ q.pop.2.Follows (taken + 1) := by
  have hlist := toList_jobs_of_pop hnext
  have hsize : q.size = q.pop.2.size + 1 := by
    rw [size, size, ← Queue.length_toList, ← Queue.length_toList, hlist, List.length_cons]
  have hnumbers := h.numbers
  rw [JobQueue.numbers, hlist, hsize, List.range'_succ, List.map_cons] at hnumbers
  obtain ⟨hjob, hrange⟩ := List.cons.inj hnumbers
  refine ⟨hjob, hrange, ?_⟩
  rw [enqueued_pop, h.enqueued, hsize, Nat.add_assoc, Nat.add_comm 1]

/-- Jobs that are pushed wait behind all others. -/
theorem toList_jobs_pushAll (q : JobQueue) (added : List Job) :
    ∃ behind, (q.pushAll added).jobs.toList = q.jobs.toList ++ behind := by
  induction added generalizing q with
  | nil => exact ⟨[], (List.append_nil _).symm⟩
  | cons j added ih =>
    obtain ⟨behind, hbehind⟩ := ih (q.push j)
    exact ⟨_, hbehind.trans (by rw [toList_jobs_push, List.append_assoc])⟩

end JobQueue

namespace World

variable {options : Options} {w w' w'' : World} {job : QueuedJob}

/-- The jobs that wait, the next one first. -/
def queue (w : World) : List QueuedJob := w.realm.jobs.jobs.toList

/-- The numbers of the jobs whose bodies were started, in the order of their starts. -/
def started (w : World) : List Nat := w.journal.toList.filterMap Event.started?

/-- Nothing happens to the jobs but that some are put behind those that wait. -/
structure Enqueues (w w' : World) : Prop where
  options : w'.realm.options = w.realm.options
  jobsRun : w'.realm.jobsRun = w.realm.jobsRun
  started : w'.started = w.started
  jobs : ∃ added, w'.realm.jobs = w.realm.jobs.pushAll added

/-- What happens to the jobs of a world. -/
inductive JobStep (w : World) : World → Prop where
  | enqueues {w' : World} (enqueues : w.Enqueues w') : JobStep w w'
  | starts {job : QueuedJob} (next : w.realm.jobs.pop.1 = some job)
    (affords : w.realm.Affords) : JobStep w (w.starts job)
  | refuses {job : QueuedJob} (next : w.realm.jobs.pop.1 = some job)
    (spent : ¬w.realm.Affords) : JobStep w w.takes

/-- A change that has nothing to do with jobs. -/
theorem Enqueues.of_eq (options : w'.realm.options = w.realm.options)
    (jobsRun : w'.realm.jobsRun = w.realm.jobsRun) (jobs : w'.realm.jobs = w.realm.jobs)
    (started : w'.started = w.started) : w.Enqueues w' :=
  ⟨options, jobsRun, started, [], jobs⟩

theorem Enqueues.of_spares (spares : w.realm.Spares w'.realm) (started : w'.started = w.started) :
    w.Enqueues w' :=
  have ⟨added, hjobs, _⟩ := spares.jobs
  ⟨spares.options, spares.jobsRun, started, added, hjobs⟩

theorem Enqueues.push {job : Job} (options : w'.realm.options = w.realm.options)
    (jobsRun : w'.realm.jobsRun = w.realm.jobsRun) (jobs : w'.realm.jobs = w.realm.jobs.push job)
    (started : w'.started = w.started) : w.Enqueues w' :=
  ⟨options, jobsRun, started, [job], jobs⟩

theorem started_starts (w : World) (job : QueuedJob) :
    (w.starts job).started = w.started ++ [job.number] := by
  simp [started, starts, Event.started?]

/-! ## Taken in front, put behind -/

/-- Jobs are put behind those that wait, and others are taken in front and counted. -/
def Queues (w w' : World) : Prop :=
  ∃ taken added, w.queue ++ added = taken ++ w'.queue ∧
    w'.realm.jobsRun = w.realm.jobsRun + taken.length

namespace Queues

theorem refl (w : World) : w.Queues w := ⟨[], [], List.append_nil _, rfl⟩

theorem trans (h : w.Queues w') (h' : w'.Queues w'') : w.Queues w'' := by
  obtain ⟨taken, added, hqueue, hcount⟩ := h
  obtain ⟨taken', added', hqueue', hcount'⟩ := h'
  refine ⟨taken ++ taken', added ++ added', ?_, ?_⟩
  · rw [← List.append_assoc, hqueue, List.append_assoc, hqueue', List.append_assoc]
  · rw [hcount', hcount, List.length_append, Nat.add_assoc]

/-- The next job is taken. -/
theorem takes (hnext : w.realm.jobs.pop.1 = some job) : w.Queues w.takes := by
  refine ⟨[job], [], ?_, rfl⟩
  rw [List.append_nil]
  exact JobQueue.toList_jobs_of_pop hnext

theorem step (h : w.JobStep w') : w.Queues w' := by
  cases h with
  | enqueues enqueues =>
    obtain ⟨added, hjobs⟩ := enqueues.jobs
    obtain ⟨behind, hbehind⟩ := w.realm.jobs.toList_jobs_pushAll added
    refine ⟨[], behind, ?_, enqueues.jobsRun⟩
    rw [queue, queue, hjobs, hbehind, List.nil_append]
  | starts next affords => exact takes next
  | refuses next spent => exact takes next

/-- The jobs that wait are taken in order, and never lost. -/
theorem of_jobSteps (h : ReflTransGen JobStep w w') : w.Queues w' := by
  induction h with
  | refl => exact .refl w
  | tail _ hstep ih => exact ih.trans (.step hstep)

end Queues

/-! ## Which jobs were started -/

/-- The jobs that were enqueued first were taken and counted. Of these, the first ones
that the budget grants were started, in order. The others wait. -/
structure Paced (options : Options) (w : World) : Prop where
  configured : w.realm.options = options
  follows : w.realm.jobs.Follows w.realm.jobsRun
  started : w.started = List.range (options.granted w.realm.jobsRun)

namespace Paced

theorem fresh (options : Options) : Paced options { realm := { options } } where
  configured := rfl
  follows := ⟨rfl, rfl⟩
  started := by
    rw [Nat.le_zero.mp (options.granted_le 0)]
    rfl

theorem enqueues (h : w.Paced options) (henqueues : w.Enqueues w') : w'.Paced options := by
  obtain ⟨added, hjobs⟩ := henqueues.jobs
  refine ⟨henqueues.options.trans h.configured, ?_, ?_⟩
  · rw [hjobs, henqueues.jobsRun]
    exact h.follows.pushAll added
  · rw [henqueues.started, henqueues.jobsRun, h.started]

theorem starts (h : w.Paced options) (hnext : w.realm.jobs.pop.1 = some job)
    (haffords : w.realm.Affords) : (w.starts job).Paced options := by
  obtain ⟨hnumber, hfollows⟩ := h.follows.pop hnext
  have hlt : ∀ budget, options.jobBudget? = some budget → w.realm.jobsRun < budget :=
    h.configured ▸ haffords
  have hone : options.granted (w.starts job).realm.jobsRun = w.realm.jobsRun + 1 :=
    Options.granted_eq_iff.mpr hlt
  -- Since this job is afforded, none was refused before.
  have hall : options.granted w.realm.jobsRun = w.realm.jobsRun :=
    Nat.succ.inj ((Options.granted_of_lt hlt).symm.trans hone)
  refine ⟨h.configured, hfollows, ?_⟩
  rw [started_starts, h.started, hnumber, hone, hall, List.range_succ]

theorem refuses (h : w.Paced options) (hnext : w.realm.jobs.pop.1 = some job)
    (hspent : ¬w.realm.Affords) : w.takes.Paced options := by
  obtain ⟨-, hfollows⟩ := h.follows.pop hnext
  have hnot : ¬∀ budget, options.jobBudget? = some budget → w.realm.jobsRun < budget :=
    h.configured ▸ hspent
  refine ⟨h.configured, hfollows, ?_⟩
  exact h.started.trans (congrArg List.range (Options.granted_of_not_lt hnot).symm)

theorem step (h : w.Paced options) (hstep : w.JobStep w') : w'.Paced options := by
  cases hstep with
  | enqueues henqueues => exact h.enqueues henqueues
  | starts next affords => exact h.starts next affords
  | refuses next spent => exact h.refuses next spent

theorem jobSteps (h : w.Paced options) (hsteps : ReflTransGen JobStep w w') : w'.Paced options :=
  keeps_of_steps (P := Paced options) step h hsteps

/-- The jobs that wait are those after the ones that were taken. -/
theorem numbers_queue (h : w.Paced options) :
    w.queue.map QueuedJob.number = List.range' w.realm.jobsRun w.queue.length := by
  rw [queue, Queue.length_toList]
  exact h.follows.numbers

end Paced
end World
end Retention
