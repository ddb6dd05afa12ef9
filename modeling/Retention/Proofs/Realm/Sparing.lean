import Retention.Proofs.Realm.Changing
import Retention.Proofs.Walking

/-!
# Operations spare what the host keeps

Most operations on a realm leave alone what the host keeps about it: its options,
the number of jobs run, the work the host owes, the searches and the reports. To
the jobs that wait they add some behind, none of which takes an outcome of the
host to a promise (`Realm.Spares`, `Changing.spares`). The other effects are those
that make a promise for the host to settle, take the reports, or publish the
searches.
-/

namespace Retention

namespace Realm

variable {α β : Type} {r r' r'' : Realm}

/-- What the host keeps about a realm stays as it is. -/
structure Spares (r r' : Realm) : Prop where
  options : r'.options = r.options
  jobsRun : r'.jobsRun = r.jobsRun
  hostWork : r'.hostWork = r.hostWork
  searches : r'.searches = r.searches
  reports : r'.reports = r.reports
  jobs : ∃ added, r'.jobs = r.jobs.pushAll added ∧ ∀ job ∈ added, job.work.debt? = none

namespace Spares

theorem refl (r : Realm) : Spares r r :=
  ⟨rfl, rfl, rfl, rfl, rfl, [], rfl, fun _ hjob => absurd hjob List.not_mem_nil⟩

theorem trans (h : Spares r r') (h' : Spares r' r'') : Spares r r'' := by
  obtain ⟨added, hjobs, hadded⟩ := h.jobs
  obtain ⟨added', hjobs', hadded'⟩ := h'.jobs
  refine ⟨h'.options.trans h.options, h'.jobsRun.trans h.jobsRun, h'.hostWork.trans h.hostWork,
    h'.searches.trans h.searches, h'.reports.trans h.reports, added ++ added', ?_, ?_⟩
  · rw [hjobs', hjobs, JobQueue.pushAll_append]
  · intro job hjob
    exact (List.mem_append.mp hjob).elim (hadded job) (hadded' job)

/-- A change of what the host does not keep. -/
theorem of_eq (options : r'.options = r.options) (jobsRun : r'.jobsRun = r.jobsRun)
    (hostWork : r'.hostWork = r.hostWork) (searches : r'.searches = r.searches)
    (reports : r'.reports = r.reports) (jobs : r'.jobs = r.jobs) : Spares r r' :=
  ⟨options, jobsRun, hostWork, searches, reports, [], jobs,
    fun _ hjob => absurd hjob List.not_mem_nil⟩

theorem enqueue {job : Job} (hjob : job.work.debt? = none) :
    Spares r { r with jobs := r.jobs.push job } := by
  refine ⟨rfl, rfl, rfl, rfl, rfl, [job], rfl, fun other hother => ?_⟩
  rw [List.mem_singleton.mp hother]
  exact hjob

end Spares

/-- No reaction takes an outcome of the host to a promise. -/
theorem debt?_of_isReaction {job : Job} (hreaction : job.isReaction = true) :
    job.work.debt? = none := by
  cases hwork : job.work with
  | react reaction settlement => rfl
  | _ => simp [Job.isReaction, hwork] at hreaction

theorem Change.spares {fresh : PromiseSlots → Prop}
    (hchange : Change fresh False r r') : Spares r r' := by
  cases hchange with
  | @act promise slots act there admitted =>
    exact ⟨rfl, rfl, rfl, rfl, rfl, slots.due act, rfl,
      fun job hjob => debt?_of_isReaction (isReaction_of_mem_due hjob)⟩
  | enqueue reaction debt => exact .enqueue debt
  | kept allowed => exact allowed.elim
  | _ => exact .of_eq rfl rfl rfl rfl rfl rfl

/-- An operation spares what the host keeps, whether it throws or not, if it may not
change it. -/
theorem Changing.spares {m : RealmM α} {Q : α → Realm → Prop}
    (hm : Changing (fun _ => True) False m r Q) : Spares r (exec m r).2 :=
  keeps_of_steps (P := Spares r) (fun h hchange => h.trans hchange.spares) (.refl r) hm.1

theorem spares_settleFromHost (promise : ObjectRef) (outcome : HostOutcome) (r : Realm) :
    Spares r (exec (settleFromHost promise outcome) r).2 :=
  Changing.spares (.settleFromHost promise outcome)

theorem spares_throwTypeError (message : String) (r : Realm) :
    Spares r (exec (throwTypeError message : RealmM α) r).2 :=
  Changing.spares (Q := fun _ _ => True) (.throwTypeError message)

theorem spares_reportUnhandled (r : Realm) : Spares r (exec reportUnhandled r).2 :=
  .of_eq rfl rfl rfl rfl rfl rfl

/-! ## The other effects -/

theorem exec_promiseFromHost (polls : Nat) (outcome : HostOutcome) (r : Realm) :
    exec (Effect.promiseFromHost polls outcome).run r =
      (.ok (.ofRef ⟨r.heap.size⟩), (exec (promiseFromHost polls outcome) r).2) := rfl

theorem exec_takeReports (r : Realm) :
    exec Effect.takeReports.run r = (.ok (.reports r.reports.toList), { r with reports := {} }) :=
  rfl

/-- The searches of a quiescent realm are published, those of another stay. -/
theorem exec_finalizeSearches (r : Realm) :
    exec finalizeSearches r =
      if r.isQuiescent then (.ok (.ofRecords r.searches.toList), { r with searches := {} })
      else (.error (.broken (.notQuiescent r.jobs.size r.hostWork.size)), r) := by
  rw [finalizeSearches, exec_bind_of_ok (exec_getThe r)]
  cases hquiescent : r.isQuiescent <;> rfl

theorem exec_finalizeSearches_eq_ok {results : SearchResults}
    (h : exec finalizeSearches r = (.ok results, r')) :
    r.isQuiescent = true ∧ results = .ofRecords r.searches.toList ∧
      r' = { r with searches := {} } := by
  rw [exec_finalizeSearches] at h
  split at h
  · rename_i hquiescent
    obtain ⟨hresults, rfl⟩ := Prod.mk.inj h
    exact ⟨hquiescent, (Except.ok.inj hresults).symm, rfl⟩
  · exact nomatch congrArg Prod.fst h

theorem exec_run_finalizeSearches (r : Realm) :
    exec Effect.finalizeSearches.run r =
      if r.isQuiescent then
        (.ok (.results (.ofRecords r.searches.toList)), { r with searches := {} })
      else (.error (.broken (.notQuiescent r.jobs.size r.hostWork.size)), r) := by
  show exec (Answer.results <$> finalizeSearches) r = _
  rw [← bind_pure_comp, exec_bind, exec_finalizeSearches]
  cases hquiescent : r.isQuiescent <;> rfl

end Realm
end Retention
