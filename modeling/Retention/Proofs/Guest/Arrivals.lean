import Retention.Proofs.Guest.Steps
import Retention.Proofs.Realm.Outcomes

/-!
# What the host owes arrives

What the host promised has either arrived, waits as host work, or is on its way
in a job; each outcome is in one of these places once, as long as no deferred work
failed (`World.Accounts`). So all of it has arrived when nothing is left to be
done. What arrived at a promise settled it, or left it as it was settled before.

* `World.Balanced`: what is kept by every step.
* `World.Balanced.step`: it is kept.
-/

namespace Retention

/-! ## Dealings -/

namespace Dealing

/-- What the host promised. -/
def promised? : Dealing → Option (ObjectRef × HostOutcome)
  | promised promise outcome => some (promise, outcome)
  | arrived .. | interrupted _ | quiesced | drained _ => none

/-- What arrived. -/
def arrived? : Dealing → Option (ObjectRef × HostOutcome)
  | arrived promise outcome _ => some (promise, outcome)
  | promised .. | interrupted _ | quiesced | drained _ => none

/-- The outcomes that the host promised, in order. -/
def promises (dealings : List Dealing) : List (ObjectRef × HostOutcome) :=
  dealings.filterMap promised?

/-- The outcomes that arrived, in order. -/
def arrivals (dealings : List Dealing) : List (ObjectRef × HostOutcome) :=
  dealings.filterMap arrived?

theorem mem_promises {dealings : List Dealing} {promise : ObjectRef} {outcome : HostOutcome} :
    (promise, outcome) ∈ promises dealings ↔ .promised promise outcome ∈ dealings := by
  rw [promises, List.mem_filterMap]
  constructor
  · rintro ⟨dealing, hmem, hdealing⟩
    cases dealing <;> cases hdealing
    exact hmem
  · intro hmem
    exact ⟨_, hmem, rfl⟩

theorem mem_arrivals {dealings : List Dealing} {promise : ObjectRef} {outcome : HostOutcome} :
    (promise, outcome) ∈ arrivals dealings ↔
      ∃ pending, .arrived promise outcome pending ∈ dealings := by
  rw [arrivals, List.mem_filterMap]
  constructor
  · rintro ⟨dealing, hmem, hdealing⟩
    cases dealing <;> cases hdealing
    exact ⟨_, hmem⟩
  · rintro ⟨pending, hmem⟩
    exact ⟨_, hmem, rfl⟩

/-- No deferred work failed. -/
def Undisturbed (dealings : List Dealing) : Prop := ∀ cause, .interrupted cause ∉ dealings

theorem Undisturbed.of_append {dealings dealings' : List Dealing}
    (h : Undisturbed (dealings ++ dealings')) : Undisturbed dealings :=
  fun cause hmem => h cause (List.mem_append_left _ hmem)

end Dealing

/-! ## What is owed -/

/-- What the host owes to promises: as its work, and as jobs. -/
def Realm.owed (r : Realm) : List (ObjectRef × HostOutcome) :=
  r.hostWork.toList.map HostWork.debt ++ r.jobs.jobs.toList.filterMap (·.work.debt?)

namespace Realm

variable {r r' : Realm}

theorem filterMap_debt?_pushAll (q : JobQueue) {added : List Job}
    (hadded : ∀ job ∈ added, job.work.debt? = none) :
    (q.pushAll added).jobs.toList.filterMap (·.work.debt?) =
      q.jobs.toList.filterMap (·.work.debt?) := by
  induction added generalizing q with
  | nil => rfl
  | cons job rest ih =>
    obtain ⟨hjob, hrest⟩ := List.forall_mem_cons.mp hadded
    have hpush := ih (q.push job) hrest
    rw [JobQueue.toList_jobs_push, List.filterMap_append] at hpush
    exact hpush.trans (by simp [hjob])

/-- Nothing more is owed, and nothing less. -/
theorem Spares.owed (h : r.Spares r') : r'.owed = r.owed := by
  obtain ⟨added, hjobs, hadded⟩ := h.jobs
  rw [Realm.owed, Realm.owed, h.hostWork, hjobs, filterMap_debt?_pushAll _ hadded]

/-- A job that is taken takes what it owes with it. -/
theorem perm_owed_pop {job : QueuedJob} (hnext : r.jobs.pop.1 = some job) (jobsRun : Nat) :
    r.owed.Perm
      (job.work.debt?.toList ++ ({ r with jobs := r.jobs.pop.2, jobsRun } : Realm).owed) := by
  have hsplit : ∀ rest : List QueuedJob, (job :: rest).filterMap (·.work.debt?) =
      job.work.debt?.toList ++ rest.filterMap (·.work.debt?) := by
    intro rest
    rw [List.filterMap_cons]
    cases job.work.debt? <;> rfl
  simp only [owed, JobQueue.toList_jobs_of_pop hnext, hsplit]
  exact List.perm_append_comm_assoc _ _ _

/-- Work that the host ended is owed as a job. -/
theorem perm_owed_receives {order : HostOrder} {w : World} {work : HostWork}
    {hostWork : Queue HostWork}
    (hnext : order.next w.realm.hostWork = some (work, hostWork)) :
    (w.receives work hostWork).realm.owed.Perm w.realm.owed := by
  have hjobs : (w.receives work hostWork).realm.jobs.jobs.toList.filterMap (·.work.debt?) =
      w.realm.jobs.jobs.toList.filterMap (·.work.debt?) ++ [work.debt] := by
    show ((w.realm.jobs.push _).jobs.toList).filterMap _ = _
    rw [JobQueue.toList_jobs_push, List.filterMap_append]
    rfl
  rw [owed, owed, hjobs, ← List.append_assoc]
  refine (List.perm_append_singleton _ _).trans ?_
  exact (order.perm hnext).symm.append_right _

/-- The host owes one more promise its outcome. -/
theorem perm_owed_promiseFromHost (polls : Nat) (outcome : HostOutcome) (r : Realm) :
    (exec (promiseFromHost polls outcome) r).2.owed.Perm
      ((⟨r.heap.size⟩, outcome) :: r.owed) := by
  have hwork : (exec (promiseFromHost polls outcome) r).2.hostWork.toList.map HostWork.debt =
      r.hostWork.toList.map HostWork.debt ++ [(⟨r.heap.size⟩, outcome)] := by
    show ((r.hostWork.push _).toList).map _ = _
    rw [Queue.toList_push, List.map_append]
    rfl
  rw [owed, owed, hwork, List.append_assoc]
  exact List.perm_middle

/-- Nothing is owed in a realm in which nothing is left to be done. -/
theorem owed_of_isQuiescent (h : r.isQuiescent = true) : r.owed = [] := by
  obtain ⟨hjobs, hwork⟩ := Bool.and_eq_true_iff.mp h
  rw [owed, (Queue.isEmpty_iff _).mp hwork, (Queue.isEmpty_iff r.jobs.jobs).mp hjobs]
  rfl

/-- Before the realm became what it is, an outcome arrived at a promise, which was
pending or not. The promise is still settled in the way it was then. -/
def Settles (r : Realm) (promise : ObjectRef) (outcome : HostOutcome) (pending : Bool) : Prop :=
  ∃ before after settlement, Arrival promise outcome settlement before after ∧
    before.isPending promise = pending ∧ after.Progresses r ∧ r.IsSettled promise settlement

theorem Settles.progresses {promise : ObjectRef} {outcome : HostOutcome} {pending : Bool}
    (h : r.Settles promise outcome pending) (hprogress : r.Progresses r') :
    r'.Settles promise outcome pending :=
  have ⟨before, after, settlement, harrival, hpending, hafter, hsettled⟩ := h
  ⟨before, after, settlement, harrival, hpending, hafter.trans hprogress,
    hprogress.isSettled hsettled⟩

end Realm

/-! ## Worlds -/

namespace World

open Dealing

variable {e : Embedding} {w w' : World}

/-- What the host promised has arrived or is owed, as long as no deferred work
failed. -/
def Accounts (w : World) : Prop :=
  Undisturbed w.dealings.toList →
    (promises w.dealings.toList).Perm (arrivals w.dealings.toList ++ w.realm.owed)

/-- What the host promised had arrived whenever nothing was left to be done. -/
def Discharges (w : World) : Prop :=
  ∀ before after, w.dealings.toList = before ++ .quiesced :: after → Undisturbed before →
    (promises before).Perm (arrivals before)

/-- What is kept by every step. -/
structure Balanced (w : World) : Prop where
  accounts : w.Accounts
  discharges : w.Discharges
  settles : ∀ {promise outcome pending}, .arrived promise outcome pending ∈ w.dealings.toList →
    w.realm.Settles promise outcome pending

theorem balanced_fresh (options : Options) : ({ realm := { options } } : World).Balanced where
  accounts _ := .refl _
  discharges before after hsplit := by
    have hlength := congrArg List.length hsplit
    simp [Sequence.toList] at hlength
  settles hmem := absurd hmem List.not_mem_nil

/-- What a dealing means for what is owed. -/
def Means (w w' : World) : Dealing → Prop
  | .promised promise outcome => w'.realm.owed.Perm ((promise, outcome) :: w.realm.owed)
  | .arrived promise outcome pending =>
    w.realm.owed.Perm ((promise, outcome) :: w'.realm.owed) ∧
      w'.realm.Settles promise outcome pending
  | .interrupted _ => True
  | .quiesced => w.realm.owed = [] ∧ w'.realm.owed = []
  | .drained _ => w'.realm.owed = w.realm.owed

/-- A step has one dealing at most, on which it depends what is owed. -/
inductive Deals (w w' : World) : Prop where
  | none (dealings : w'.dealings = w.dealings) (owed : w'.realm.owed.Perm w.realm.owed)
  | one (dealing : Dealing) (dealings : w'.dealings.toList = w.dealings.toList ++ [dealing])
    (means : w.Means w' dealing)

theorem toList_push_deal (w : World) (dealing : Dealing) :
    (w.deals [dealing]).dealings.toList = w.dealings.toList ++ [dealing] :=
  toList_deals w [dealing]

/-- A job that takes no outcome to a promise leaves what is owed. -/
theorem perm_owed_starts {job : QueuedJob} (hnext : w.realm.jobs.pop.1 = some job)
    (hother : job.work.debt? = none) : (w.starts job).realm.owed.Perm w.realm.owed := by
  have hperm := Realm.perm_owed_pop hnext (w.realm.jobsRun + 1)
  rw [hother] at hperm
  exact hperm.symm

theorem Step.deals (h : Step e w w') : w.Deals w' := by
  cases h with
  | works realm history journal dealings => exact .none dealings (.of_eq realm.owed)
  | promises polls outcome =>
    exact .one _ (toList_push_deal _ _) (Realm.perm_owed_promiseFromHost polls outcome w.realm)
  | drains => exact .one _ (toList_push_deal _ _) rfl
  | publishes finalizes =>
    obtain ⟨-, -, rfl⟩ := Realm.exec_finalizeSearches_eq_ok finalizes
    exact .none rfl (.refl _)
  | searches call => cases Machine.searchReferences_cases call <;> exact .none rfl (.refl _)
  | reports args => exact .none rfl (.refl _)
  | starts next other => exact .none rfl (perm_owed_starts next other)
  | @settles job promise outcome realm next work settled =>
    have hspares := Realm.spares_settleFromHost promise outcome (w.starts job).realm
    obtain ⟨settlement, harrival⟩ := Realm.arrival_of_settleFromHost settled
    rw [settled] at hspares
    have hperm := Realm.perm_owed_pop next (w.realm.jobsRun + 1)
    rw [Work.debt?_eq_some_iff.mpr work] at hperm
    refine .one _ (toList_push_deal _ _)
      ⟨?_, _, _, settlement, harrival, rfl, .refl, harrival.settled⟩
    rw [show (World.deals { w.starts job with realm } _).realm.owed = (w.starts job).realm.owed
      from hspares.owed]
    exact hperm
  | receives next => exact .none rfl (Realm.perm_owed_receives next)
  | fails loses cause =>
    refine .one (.interrupted cause) ?_ trivial
    rw [toList_push_deal, loses.dealings]
  | quiesces quiescent =>
    have howed := Realm.owed_of_isQuiescent quiescent
    exact .one _ (toList_push_deal _ _) ⟨howed, howed⟩

namespace Balanced

variable (hw : w.Balanced) (h : Step e w w')

include hw h

theorem accounts_step : w'.Accounts := by
  intro hundisturbed
  cases h.deals with
  | none dealings owed =>
    rw [dealings] at hundisturbed ⊢
    exact (hw.accounts hundisturbed).trans (owed.symm.append_left _)
  | one dealing dealings means =>
    rw [dealings] at hundisturbed ⊢
    have hbefore := hw.accounts hundisturbed.of_append
    rw [promises, arrivals, List.filterMap_append, List.filterMap_append, List.append_assoc]
    cases dealing with
    | promised promise outcome =>
      refine (List.perm_append_singleton _ _).trans ?_
      refine (hbefore.cons _).trans (List.perm_middle.symm.trans ?_)
      exact (List.Perm.symm means).append_left _
    | arrived promise outcome pending =>
      rw [show [Dealing.arrived promise outcome pending].filterMap promised? = [] from rfl,
        List.append_nil]
      exact hbefore.trans (means.1.append_left _)
    | interrupted cause =>
      exact absurd (List.mem_append_right _ (List.mem_singleton_self _)) (hundisturbed cause)
    | quiesced =>
      rw [means.1] at hbefore
      rw [means.2]
      exact (List.append_nil _).symm ▸ hbefore
    | drained reports =>
      rw [show w'.realm.owed = w.realm.owed from means]
      exact (List.append_nil _).symm ▸ hbefore

theorem discharges_step : w'.Discharges := by
  intro before after hsplit hundisturbed
  cases h.deals with
  | none dealings owed =>
    rw [dealings] at hsplit
    exact hw.discharges before after hsplit hundisturbed
  | one dealing dealings means =>
    rw [dealings] at hsplit
    obtain rfl | ⟨rest, last, rfl⟩ := after.eq_nil_or_concat
    · obtain ⟨rfl, hlast⟩ := List.append_inj' hsplit rfl
      obtain rfl := (List.cons.inj hlast).1
      have hbefore := hw.accounts hundisturbed
      rwa [means.1, List.append_nil] at hbefore
    · rw [List.concat_eq_append, ← List.cons_append, ← List.append_assoc] at hsplit
      exact hw.discharges before rest (List.append_inj' hsplit rfl).1 hundisturbed

theorem settles_step {promise : ObjectRef} {outcome : HostOutcome} {pending : Bool}
    (hmem : .arrived promise outcome pending ∈ w'.dealings.toList) :
    w'.realm.Settles promise outcome pending := by
  cases h.deals with
  | none dealings owed =>
    rw [dealings] at hmem
    exact (hw.settles hmem).progresses h.history
  | one dealing dealings means =>
    rw [dealings] at hmem
    obtain hmem | hlast := List.mem_append.mp hmem
    · exact (hw.settles hmem).progresses h.history
    · obtain rfl := List.mem_singleton.mp hlast
      exact means.2

theorem step : w'.Balanced :=
  ⟨hw.accounts_step h, hw.discharges_step h, hw.settles_step h⟩

omit h in
/-- It is kept by steps, one after the other. -/
theorem steps (hsteps : Relation.ReflTransGen (Step e) w w') : w'.Balanced :=
  keeps_of_steps (P := Balanced) Balanced.step hw hsteps

end Balanced

/-- Whenever nothing was left to be done, and no deferred work had failed before,
what the host promised until then had arrived, each outcome once, and the promises
are settled. -/
theorem Balanced.of_quiesced (hw : w.Balanced) {before after : List Dealing}
    (hsplit : w.dealings.toList = before ++ .quiesced :: after)
    (hundisturbed : Undisturbed before) :
    (promises before).Perm (arrivals before) ∧
    ∀ promise outcome, .promised promise outcome ∈ before →
      ∃ pending, .arrived promise outcome pending ∈ before ∧
        w.realm.Settles promise outcome pending := by
  have hperm := hw.discharges before after hsplit hundisturbed
  refine ⟨hperm, fun promise outcome hpromised => ?_⟩
  obtain ⟨pending, hmem⟩ := mem_arrivals.mp (hperm.mem_iff.mp (mem_promises.mpr hpromised))
  refine ⟨pending, hmem, hw.settles ?_⟩
  rw [hsplit]
  exact List.mem_append_left _ hmem

end World
end Retention
