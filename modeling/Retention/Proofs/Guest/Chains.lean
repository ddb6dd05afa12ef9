import Retention.Proofs.Guest.Deferring
import Retention.Proofs.Guest.Promises
import Retention.Proofs.Realm.Chains

/-!
# Settlements go through chains

The settlement of the first promise of a chain goes through it job by job: each
job settles the next promise, which makes the job due that settles the one after
it, and no other job is due (`Machine.run_of_chained`).

* `Machine.run_passOn`: the job of a link.
* `Machine.checkpoint_settles_chain`: jobs are run until all promises are settled.
-/

namespace Retention.Machine

open Realm (Builds Chained attached)

variable {e : Embedding} {steps : Nat} {w : World} {settlement : Settlement}
  {chain : List ObjectRef} {built : List Nat}

/-! ## One job -/

/-- The job of a link settles the next promise in the same way. -/
theorem run_passOn (e : Embedding) (steps : Nat) (promise : ObjectRef)
    (hvalue : settlement.value.object? = none) (w : World) :
    (runJob e (steps + 1) ((Attachment.passOn promise).job settlement)).run.run w =
      (lift (Realm.settlePromise promise settlement)).run.run w := by
  unfold runJob
  cases settlement with
  | fulfilled value =>
    exact run_lift_of_exec (Realm.exec_resolvePromise_of_primitive hvalue promise w.realm)
  | rejected reason => rfl

/-- The next job of a queue, and those that wait behind it. -/
theorem exists_next {job : Job} {rest : List Job} (hwaiting : w.realm.waiting = job :: rest) :
    ∃ next, w.realm.jobs.pop.1 = some next ∧ next.toJob = job ∧
      (w.starts next).realm.waiting = rest := by
  obtain ⟨next, others, hlist, hjob, hrest⟩ := List.map_eq_cons_iff.mp hwaiting
  have htail : w.realm.jobs.pop.2.jobs.toList = others := by
    rw [JobQueue.toList_jobs_pop, hlist, List.tail_cons]
  refine ⟨next, ?_, hjob, (congrArg (List.map QueuedJob.toJob) htail).trans hrest⟩
  rw [JobQueue.pop_fst, hlist, List.head?_cons]

/-- The job that is due settles the next promise of a chain, and makes the job due
that settles the one after it. -/
theorem step_of_chained (e : Embedding) (steps : Nat) {count : Nat} (hdistinct : chain.Nodup)
    (hvalue : settlement.value.object? = none) (hlink : count ∈ built)
    (hlt : count + 1 < chain.length)
    (hchained : Chained chain settlement built (count + 1) w.realm)
    (hwaiting : w.realm.waiting = (attached chain built count).map (·.job settlement)) :
    ∃ w₁ : World, (∀ rounds, (runJobs (runJob e (steps + 1)) (rounds + 1)).run.run w =
        (runJobs (runJob e (steps + 1)) rounds).run.run w₁) ∧
      Chained chain settlement built (count + 2) w₁.realm ∧
      w₁.realm.waiting = (attached chain built (count + 1)).map (·.job settlement) ∧
      w₁.realm.jobsRun = w.realm.jobsRun + 1 := by
  have hq : chain[count + 1]? = some chain[count + 1] := List.getElem?_eq_getElem hlt
  obtain ⟨slots, hs⟩ := hchained.there hlink (.inr hq)
  rw [Realm.attached_of_mem hlink hq, List.map_singleton] at hwaiting
  obtain ⟨next, hnext, hjob, hrest⟩ := exists_next hwaiting
  have hstarts : Chained chain settlement built (count + 1) (w.starts next).realm :=
    hchained.of_eq rfl rfl
  obtain ⟨hexec, hsettled, hwaits⟩ := hstarts.settle hdistinct hq hs
  have hran := run_passOn e steps chain[count + 1] hvalue (w.starts next)
  rw [run_lift_of_exec hexec] at hran
  rw [← hjob] at hran
  have haffords : w.realm.Affords := fun budget hbudget =>
    nomatch hchained.unlimited.symm.trans hbudget
  have hround (rounds : Nat) : (runJobs (runJob e (steps + 1)) (rounds + 1)).run.run w = _ :=
    (run_runJobs_of_affords hnext haffords).trans (run_bind_of_ok hran)
  refine ⟨_, hround, hsettled, ?_, ?_⟩
  · rw [hwaits, hrest]
    rfl
  · rfl

/-! ## All jobs -/

/-- One job after the other settles the promises of a chain that are left. -/
theorem run_of_chained (e : Embedding) (steps : Nat) {last count left rounds : Nat}
    (hdistinct : chain.Nodup) (hlength : chain.length = last + 1)
    (hvalue : settlement.value.object? = none) (hbuilt : ∀ i < last, i ∈ built)
    (hleft : count + left = last) (hrounds : left < rounds)
    (hchained : Chained chain settlement built (count + 1) w.realm)
    (hwaiting : w.realm.waiting = (attached chain built count).map (·.job settlement)) :
    ∃ w', (runJobs (runJob e (steps + 1)) rounds).run.run w = some (.ok (), w') ∧
      Chained chain settlement built (last + 1) w'.realm ∧
      w'.realm.jobsRun = w.realm.jobsRun + left := by
  obtain ⟨rounds, rfl⟩ := Nat.exists_eq_succ_of_ne_zero (Nat.ne_zero_of_lt hrounds)
  induction left generalizing count rounds w with
  | zero =>
    obtain rfl : count = last := hleft
    have hend : chain[count + 1]? = none := List.getElem?_eq_none (Nat.le_of_eq hlength)
    have hnone : w.realm.jobs.pop.1 = none := by
      have hnil : w.realm.waiting = [] := by
        rw [hwaiting, attached, hend]
        split <;> rfl
      rw [JobQueue.pop_fst, List.map_eq_nil_iff.mp hnil, List.head?_nil]
    exact ⟨_, run_runJobs_of_none _ hnone, hchained, rfl⟩
  | succ left ih =>
    obtain ⟨rounds, rfl⟩ := Nat.exists_eq_succ_of_ne_zero
      (Nat.ne_zero_of_lt (Nat.lt_of_succ_lt_succ hrounds))
    obtain ⟨w₁, hstep, hchained₁, hwaiting₁, hone⟩ := step_of_chained e steps hdistinct hvalue
      (hbuilt count (by omega)) (by omega) hchained hwaiting
    obtain ⟨w', hrun, hall, hcount⟩ :=
      ih (by omega) hchained₁ hwaiting₁ rounds (Nat.lt_of_succ_lt_succ hrounds)
    refine ⟨w', (hstep _).trans hrun, hall, ?_⟩
    rw [hcount, hone, Nat.add_assoc, Nat.add_comm 1 left]

/-- Links of a chain of distinct promises were built, in any order, before and
after its first promise was settled with a value that is no object. When there are
no other jobs, and no budget, a checkpoint succeeds. It runs one job for each
link, and leaves no job; all promises of the chain are settled as the first one
is. -/
theorem checkpoint_settles_chain {last : Nat} (e : Embedding)
    (hdistinct : chain.Nodup) (hlength : chain.length = last + 1)
    (hvalue : settlement.value.object? = none)
    (hbuilds : Builds chain settlement built true w.realm) (hbuilt : ∀ i < last, i ∈ built)
    (hsteps : last < steps) :
    ∃ w', (checkpoint e (steps + 1)).run.run w = some (.ok (), w') ∧
      w'.realm.jobsRun = w.realm.jobsRun + last ∧ w'.realm.jobs.isEmpty = true ∧
      ∀ p ∈ chain, w'.realm.IsSettled p settlement := by
  obtain ⟨hchained, hwaiting⟩ := hbuilds.chained hdistinct
  obtain ⟨steps, rfl⟩ := Nat.exists_eq_succ_of_ne_zero (Nat.ne_zero_of_lt hsteps)
  obtain ⟨w', hrun, hall, hcount⟩ :=
    run_of_chained e steps hdistinct hlength hvalue hbuilt (Nat.zero_add last) hsteps hchained
      hwaiting
  refine ⟨w', ?_, hcount, isEmpty_of_runJobs hrun, fun p hp => ?_⟩
  · unfold checkpoint
    exact run_interruptible_of_ok hrun
  · obtain ⟨i, hlt, rfl⟩ := List.getElem_of_mem hp
    exact hall.settled (hlength ▸ hlt) (List.getElem?_eq_getElem hlt)

/-! ### A chain of four promises -/

/-- The operations that build a chain, of which the first promise is rejected
before the last link is built. -/
def relays : List Effect :=
  [.newPromise, .promiseThen ⟨14⟩ .undefined .null, .newPromise,
    .resolvePromise ⟨16⟩ (.object ⟨15⟩), .rejectPromise ⟨14⟩ (.bool true),
    .promiseThen ⟨16⟩ .undefined .undefined]

/-- The world in which so many of them were performed. -/
def relayed (count : Nat) : World := afterEffects (relays.take count) { realm := {} }

theorem builds_relayed :
    Builds [⟨14⟩, ⟨15⟩, ⟨16⟩, ⟨17⟩] (.rejected (.bool true)) [2, 1, 0] true
      (relayed 6).realm := by
  have hfresh : Builds [⟨14⟩, ⟨15⟩, ⟨16⟩, ⟨17⟩] (.rejected (.bool true)) [] false
      (relayed 0).realm :=
    .pending rfl rfl fun _ hs => nomatch (Heap.promiseSlots?_initial _).symm.trans hs
  have hfirst := hfresh.aside (Realm.leavesChain_withNewPromise _ _)
  have hderived : Realm.Links ⟨14⟩ ⟨15⟩ (relayed 1).realm (relayed 2).realm :=
    .derived .undefined .null rfl rfl (by decide)
  have hadopted : Realm.Links ⟨15⟩ ⟨16⟩ (relayed 3).realm (relayed 4).realm :=
    .adopted ⟨_, rfl⟩ (by decide)
  have hrejected : Realm.exec (Realm.settlePromise ⟨14⟩ (.rejected (.bool true)))
      (relayed 4).realm = (.ok (), (relayed 5).realm) := by decide
  have hlast : Realm.Links ⟨16⟩ ⟨17⟩ (relayed 5).realm (relayed 6).realm :=
    .derived .undefined .undefined rfl rfl (by decide)
  have hsecond := hfirst.link (i := 0) nofun rfl rfl hderived
  have hthird := hsecond.aside (Realm.leavesChain_withNewPromise _ _)
  have hfourth := hthird.link (i := 1) (by decide) rfl rfl hadopted
  exact (hfourth.settle rfl hrejected).link (i := 2) (by decide) rfl rfl hlast

/-- The rejection goes through three links. -/
theorem checkpoint_settles_chain_relayed :
    ∃ w', (checkpoint idle 5).run.run (relayed 6) = some (.ok (), w') ∧
      w'.realm.jobsRun = (relayed 6).realm.jobsRun + 3 ∧ w'.realm.jobs.isEmpty = true ∧
      ∀ p ∈ [(⟨14⟩ : ObjectRef), ⟨15⟩, ⟨16⟩, ⟨17⟩],
        w'.realm.IsSettled p (.rejected (.bool true)) :=
  checkpoint_settles_chain idle (by decide) rfl rfl builds_relayed (by decide) (by decide)

end Retention.Machine
