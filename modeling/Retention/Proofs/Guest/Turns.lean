import Retention.Proofs.Guest.Stepping

/-!
# Jobs take turns

A checkpoint runs the jobs one after the other, as long as they succeed and the
budget affords the next one. When the next one fails, the checkpoint fails in the
same way, in the world that the job left: no other job is touched.

* `Machine.RunsInTurn`: jobs that succeed, one after the other.
* `Machine.run_checkpoint_of_fails`: the first job that fails is the last one.
* `Machine.jobSteps_runJob`: what one job does to the others.
-/

namespace Retention

open Relation

namespace Machine

variable {e : Embedding} {w w₁ w₂ w' : World} {steps count : Nat} {run : Job → Machine Unit}
  {job : QueuedJob} {cause : Abrupt}

/-- As many jobs are run and succeed, one after the other. -/
inductive RunsInTurn (run : Job → Machine Unit) : Nat → World → World → Prop where
  | none (w : World) : RunsInTurn run 0 w w
  | next {count : Nat} {w w₁ w' : World} {job : QueuedJob}
    (next : w.realm.jobs.pop.1 = some job) (affords : w.realm.Affords)
    (ran : (run job.toJob).run.run (w.starts job) = some (.ok (), w₁))
    (rest : RunsInTurn run count w₁ w') : RunsInTurn run (count + 1) w w'

/-- After the jobs that succeed, those that are left are run. -/
theorem RunsInTurn.run_runJobs (h : RunsInTurn run count w w₁) (steps : Nat) :
    (runJobs run (steps + count)).run.run w = (runJobs run steps).run.run w₁ := by
  induction h with
  | none w => rfl
  | next next affords ran rest ih =>
    rw [← Nat.add_assoc, run_runJobs_of_affords next affords, run_bind_of_ok ran, ih]

/-- No job is run after one that fails. -/
theorem run_runJobs_of_fails (hnext : w.realm.jobs.pop.1 = some job)
    (haffords : w.realm.Affords)
    (hfails : (run job.toJob).run.run (w.starts job) = some (.error cause, w')) :
    (runJobs run (steps + 1)).run.run w = some (.error cause, w') := by
  rw [run_runJobs_of_affords hnext haffords, run_bind_of_error hfails]

/-- A checkpoint fails as the first job that does, and leaves the world to which that
job led. -/
theorem run_checkpoint_of_fails (hturns : RunsInTurn (runJob e steps) count w w₁)
    (hsteps : count < steps) (hnext : w₁.realm.jobs.pop.1 = some job)
    (haffords : w₁.realm.Affords)
    (hfails : (runJob e steps job.toJob).run.run (w₁.starts job) = some (.error cause, w₂)) :
    (checkpoint e (steps + 1)).run.run w =
      some (.error cause, w₂.deals [.interrupted cause]) := by
  obtain ⟨left, hleft⟩ := Nat.exists_eq_add_of_lt hsteps
  have hsum : left + 1 + count = steps := by omega
  have hrun := (hturns.run_runJobs (left + 1)).trans (run_runJobs_of_fails hnext haffords hfails)
  rw [hsum] at hrun
  unfold checkpoint
  exact run_interruptible_of_error hrun

/-- A job may put others behind those that wait, and may run some of these itself. -/
theorem jobSteps_runJob {job : Job} {outcome : Except Abrupt Unit}
    (hrun : (runJob e steps job).run.run w = some (outcome, w')) :
    ReflTransGen World.JobStep w w' := by
  cases hdebt : job.work.debt? with
  | none => exact World.jobSteps_of_steps (((stepping e steps).runJob job hdebt).steps hrun)
  | some debt =>
    have hwork : job.work = .settle debt.1 debt.2 := Work.debt?_eq_some_iff.mp hdebt
    have hspares := Realm.spares_settleFromHost debt.1 debt.2 w.realm
    cases Stepping.arrives_of_runJob hwork hrun with
    | failed settles =>
      rw [settles] at hspares
      exact .single (.enqueues (.of_spares hspares rfl))
    | settled settles =>
      rw [settles] at hspares
      exact .single (.enqueues (.of_spares hspares rfl))

end Machine
end Retention
