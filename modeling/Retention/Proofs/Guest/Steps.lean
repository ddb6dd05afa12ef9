import Retention.Proofs.Guest.Evolution
import Retention.Proofs.Guest.Queueing
import Retention.Proofs.Realm.Evolving

/-!
# What guest code does

What guest code does to a world it does in steps (`World.Step`): it works within
its realm, or has to do with its host. Each step happens as a whole, whatever
happens before it and after it.

* `World.Step`: what guest code does.
* `Machine.searchReferences_cases`: what a search comes to.
* `World.Step.history`, `World.Step.journal`, `World.Step.jobSteps`: what holds of
  every step.
-/

namespace Retention

open Relation

variable {ε α : Type}

/-! ## Steps -/

/-- A realm becomes another one along histories of its promises, and reports of its
unhandled rejections. -/
inductive Realm.Progresses (r : Realm) : Realm → Prop where
  | refl : Progresses r r
  | history {r' r'' : Realm} {events : List PromiseEvent} (before : Progresses r r')
    (goes : History (fun _ => True) r' events r'') : Progresses r r''
  | reported {r' r'' : Realm} {warnings : List (ObjectRef × String)} (before : Progresses r r')
    (reports : exec reportUnhandled r' = (.ok warnings, r'')) : Progresses r r''

namespace Realm.Progresses

variable {r r' r'' : Realm}

theorem trans (h : Progresses r r') (h' : Progresses r' r'') : Progresses r r'' := by
  induction h' with
  | refl => exact h
  | history _ goes ih => exact ih.history goes
  | reported _ reports ih => exact ih.reported reports

theorem quiet (h : Realm.Quiet (fun _ => True) r r') : Progresses r r' :=
  refl.history (.quiet .nil h)

/-- A change of what has nothing to do with promises. -/
theorem of_eq (hheap : r'.heap = r.heap) (hjobs : r'.jobs = r.jobs)
    (hunhandled : r'.unhandled = r.unhandled) : Progresses r r' :=
  quiet (.of_eq hheap hjobs hunhandled)

theorem exec {host : Prop} {m : RealmM α} {Q : α → Realm → Prop}
    (hm : Changing (fun _ => True) host m r Q) : Progresses r (Realm.exec m r).2 :=
  have ⟨_, hhistory⟩ := hm.1.exists_history
  refl.history hhistory

/-- A settled promise stays as it is. -/
theorem isSettled (h : Progresses r r') {promise : ObjectRef} {settlement : Settlement}
    (hs : r.IsSettled promise settlement) : r'.IsSettled promise settlement := by
  induction h with
  | refl => exact hs
  | history _ goes ih => exact ih.history goes
  | reported _ reports ih =>
    obtain rfl := congrArg Prod.snd reports
    exact ih

end Realm.Progresses

/-- A note that guest code or an analyzer makes. -/
def Event.IsNote : Event → Prop
  | .noted _ | .searchOptions _ => True
  | .reported _ | .jobStarted _ | .bodyStarted .. => False

/-- A note, or the start of a job. -/
def Event.IsMinor (event : Event) : Prop := event.IsNote ∨ ∃ number, event = .jobStarted number

namespace World

/-- Events are added to the journal. -/
def notes (w : World) (events : List Event) : World :=
  { w with journal := w.journal ++ events.toArray }

/-- Values are reported: their texts wait for delivery. -/
def reports (w : World) (args : List Value) : World :=
  { w with
    realm := { w.realm with reports := w.realm.reports.push (args.map w.realm.display) }
    journal := w.journal.push (.reported (args.map w.realm.display)) }

/-- The journal of a world goes on with events of some kind. -/
def Adds (p : Event → Prop) (w w' : World) : Prop :=
  ∃ events, w'.journal.toList = w.journal.toList ++ events ∧ ∀ event ∈ events, p event

namespace Adds

variable {p q : Event → Prop} {w w' : World}

theorem none (h : w'.journal = w.journal) : w.Adds p w' :=
  ⟨[], by simp [h], fun _ hevent => absurd hevent List.not_mem_nil⟩

theorem one {event : Event} (hevent : p event)
    (h : w'.journal.toList = w.journal.toList ++ [event]) : w.Adds p w' := by
  refine ⟨[event], h, fun other hother => ?_⟩
  rw [List.mem_singleton.mp hother]
  exact hevent

theorem mono (h : w.Adds p w') (hpq : ∀ event, p event → q event) : w.Adds q w' :=
  have ⟨events, hjournal, hevents⟩ := h
  ⟨events, hjournal, fun event hevent => hpq event (hevents event hevent)⟩

/-- Events that are not looked at do not show. -/
theorem filterMap {f : Event → Option α} (h : w.Adds p w')
    (hp : ∀ event, p event → f event = Option.none) :
    w'.journal.toList.filterMap f = w.journal.toList.filterMap f := by
  obtain ⟨events, hjournal, hevents⟩ := h
  have hnone : events.filterMap f = [] :=
    List.filterMap_eq_nil_iff.mpr fun event hevent => hp event (hevents event hevent)
  rw [hjournal, List.filterMap_append, hnone, List.append_nil]

end Adds

/-- What a failure leaves: a job may have been taken. -/
structure Loses (w w' : World) : Prop where
  hostWork : w'.realm.hostWork = w.realm.hostWork
  searches : w'.realm.searches = w.realm.searches
  reports : w'.realm.reports = w.realm.reports
  history : w.realm.Progresses w'.realm
  journal : w.Adds Event.IsMinor w'
  dealings : w'.dealings = w.dealings
  jobs : ReflTransGen JobStep w w'

/-- What guest code does to a world. -/
inductive Step (e : Embedding) (w : World) : World → Prop where
  /-- It works within its realm, and may make notes. -/
  | works {w' : World} (realm : w.realm.Spares w'.realm) (history : w.realm.Progresses w'.realm)
    (journal : w.Adds Event.IsNote w') (dealings : w'.dealings = w.dealings) : Step e w w'
  /-- It is given a promise for the host to settle. -/
  | promises (polls : Nat) (outcome : HostOutcome) :
    Step e w (deals { w with realm := (Realm.exec (Realm.promiseFromHost polls outcome) w.realm).2 }
      [.promised ⟨w.realm.heap.size⟩ outcome])
  /-- It takes the reports that wait for delivery. -/
  | drains :
    Step e w (deals { w with realm := { w.realm with reports := {} } }
      [.drained w.realm.reports.toList])
  /-- It publishes the searches. -/
  | publishes {results : SearchResults} {realm : Realm}
    (finalizes : Realm.exec Realm.finalizeSearches w.realm = (.ok results, realm)) :
    Step e w { w with realm }
  /-- It calls for a search. -/
  | searches {args : List Value} {outcome : Except HostFailure Value} {w' : World}
    (call : (Machine.searchReferences e args).run w = some (outcome, w')) : Step e w w'
  | reports (args : List Value) : Step e w (w.reports args)
  /-- A job is started that takes no outcome of the host to a promise. -/
  | starts {job : QueuedJob} (next : w.realm.jobs.pop.1 = some job)
    (other : job.work.debt? = none) (affords : w.realm.Affords) : Step e w (w.starts job)
  /-- A job takes an outcome of the host to its promise. -/
  | settles {job : QueuedJob} {promise : ObjectRef} {outcome : HostOutcome} {realm : Realm}
    (next : w.realm.jobs.pop.1 = some job) (work : job.work = .settle promise outcome)
    (settled : Realm.exec (Realm.settleFromHost promise outcome) (w.starts job).realm =
      (.ok (), realm)) (affords : w.realm.Affords) :
    Step e w (deals { w.starts job with realm }
      [.arrived promise outcome ((w.starts job).realm.isPending promise)])
  /-- The outcome that arrives next becomes a job. -/
  | receives {work : HostWork} {hostWork : Queue HostWork}
    (next : e.order.next w.realm.hostWork = some (work, hostWork)) :
    Step e w (w.receives work hostWork)
  /-- Deferred work fails. -/
  | fails {w' : World} (loses : w.Loses w') (cause : Abrupt) :
    Step e w (w'.deals [.interrupted cause])
  /-- Nothing is left to be done. -/
  | quiesces (quiescent : w.realm.isQuiescent = true) : Step e w (w.deals [.quiesced])

end World

namespace Machine

variable {e : Embedding} {w w' : World}

/-! ## Searches -/

/-- The options of a search that guest code starts. -/
def SearchCall.options (c : SearchCall) (r : Realm) : Search.Options :=
  { strongOnly := c.strongOnly, recordPrimitives := r.options.recordPrimitives }

/-- The search that a call asks for, and the notes that analyzers made of its
options. -/
def SearchCall.run (c : SearchCall) (e : Embedding) (w : World) : Except Abrupt Graph × Nat :=
  Search.run w.realm.heap (c.options w.realm) (analyzerTable e w) c.target c.held

/-- The world in which analyzers made notes of the options of a search. -/
def SearchCall.noted (c : SearchCall) (w : World) (count : Nat) : World :=
  w.notes (List.replicate count (.searchOptions (c.options w.realm)))

/-- The cases of a search that guest code calls for. -/
inductive Searches (e : Embedding) (args : List Value) (w : World) :
    Except HostFailure Value → World → Prop where
  | refused {failure : HostFailure} (read : readSearchCall w.realm args = .error failure) :
    Searches e args w (.error failure) w
  | failed {c : SearchCall} {cause : Abrupt} {count : Nat}
    (read : readSearchCall w.realm args = .ok c) (ran : c.run e w = (.error cause, count)) :
    Searches e args w (.error (.abrupt cause)) (c.noted w count)
  | found {c : SearchCall} {graph : Graph} {count : Nat}
    (read : readSearchCall w.realm args = .ok c) (ran : c.run e w = (.ok graph, count)) :
    Searches e args w (.ok (.bool graph.succeeded))
      { c.noted w count with
        realm := { w.realm with searches := w.realm.searches.push { name := c.name, graph } } }

theorem run_search {c : SearchCall} {found : Except Abrupt Graph} {count : Nat}
    (hran : c.run e w = (found, count)) :
    (search e (c.options w.realm) c.target c.held).run.run w = some (found, c.noted w count) := by
  have hget : (getThe World : Machine World).run.run w = some (.ok w, w) := rfl
  unfold SearchCall.run at hran
  unfold search
  rw [run_bind_of_ok hget]
  simp only [hran]
  cases found <;> rfl

theorem searchReferences_cases {args : List Value} {outcome : Except HostFailure Value}
    (hrun : (searchReferences e args).run w = some (outcome, w')) :
    Searches e args w outcome w' := by
  unfold searchReferences at hrun
  rw [StateT.run_bind] at hrun
  obtain ⟨⟨_, _⟩, hget, hrun⟩ := Option.bind_eq_some_iff.mp hrun
  obtain ⟨rfl, rfl⟩ := Prod.mk.inj (Option.some.inj hget)
  cases hread : readSearchCall w.realm args with
  | error failure =>
    simp only [hread] at hrun
    obtain ⟨rfl, rfl⟩ := Prod.mk.inj (Option.some.inj hrun)
    exact .refused hread
  | ok c =>
    simp only [hread] at hrun
    cases hran : c.run e w with
    | mk found count =>
      obtain ⟨⟨_, _⟩, hsearch, hrun⟩ := Option.bind_eq_some_iff.mp hrun
      obtain ⟨rfl, rfl⟩ := Prod.mk.inj (Option.some.inj ((run_search hran).symm.trans hsearch))
      cases found with
      | error cause =>
        obtain ⟨rfl, rfl⟩ := Prod.mk.inj (Option.some.inj hrun)
        exact .failed hread hran
      | ok graph =>
        obtain ⟨rfl, rfl⟩ := Prod.mk.inj (Option.some.inj hrun)
        exact .found hread hran

/-- A search leaves nothing in the journal but notes of its options. -/
theorem Searches.adds {args : List Value} {outcome : Except HostFailure Value}
    (h : Searches e args w outcome w') : w.Adds Event.IsNote w' := by
  have hnotes : ∀ (c : SearchCall) (count : Nat),
      (c.noted w count).journal.toList = w.journal.toList ++
        List.replicate count (.searchOptions (c.options w.realm)) := by
    intro c count
    exact Array.toList_append
  have hnote : ∀ {options : Search.Options} {count : Nat}, ∀ event ∈
      List.replicate count (Event.searchOptions options), event.IsNote := by
    intro options count event hevent
    rw [List.eq_of_mem_replicate hevent]
    trivial
  cases h with
  | refused read => exact .none rfl
  | failed read ran => exact ⟨_, hnotes _ _, hnote⟩
  | found read ran => exact ⟨_, hnotes _ _, hnote⟩

end Machine

namespace World

variable {e : Embedding} {w w' : World}

theorem Loses.refl (w : World) : w.Loses w := ⟨rfl, rfl, rfl, .refl, .none rfl, rfl, .refl⟩

/-- To take the next job is no event of any promise. -/
theorem progresses_takes (w : World) : w.realm.Progresses w.takes.realm :=
  .quiet (.trans .takeJob (.of_eq rfl rfl rfl))

/-- A job was taken that the budget refuses. -/
theorem Loses.takes {job : QueuedJob} (next : w.realm.jobs.pop.1 = some job)
    (spent : ¬w.realm.Affords) : w.Loses w.takes :=
  ⟨rfl, rfl, rfl, progresses_takes w, .none rfl, rfl, .single (.refuses next spent)⟩

theorem progresses_settleFromHost (w : World) (job : QueuedJob) (promise : ObjectRef)
    (outcome : HostOutcome) :
    w.realm.Progresses
      (Realm.exec (Realm.settleFromHost promise outcome) (w.starts job).realm).2 := by
  have hchanging : Realm.Changing (fun _ => True) False
      (Realm.settleFromHost promise outcome) (w.starts job).realm fun _ _ => True :=
    .settleFromHost promise outcome
  exact (progresses_takes w).trans (.exec hchanging)

/-- A job is started that does no more than to settle a promise for the host. -/
theorem jobSteps_settleFromHost {job : QueuedJob} (next : w.realm.jobs.pop.1 = some job)
    (affords : w.realm.Affords) (promise : ObjectRef) (outcome : HostOutcome) :
    ReflTransGen JobStep w { w.starts job with
      realm := (Realm.exec (Realm.settleFromHost promise outcome) (w.starts job).realm).2 } :=
  (ReflTransGen.single (.starts next affords)).tail
    (.enqueues (.of_spares (Realm.spares_settleFromHost promise outcome _) rfl))

/-- A job was started that does not take an outcome of the host to its promise. -/
theorem Loses.settleFromHost {job : QueuedJob} (next : w.realm.jobs.pop.1 = some job)
    (affords : w.realm.Affords) (promise : ObjectRef) (outcome : HostOutcome) :
    w.Loses { w.starts job with
      realm := (Realm.exec (Realm.settleFromHost promise outcome) (w.starts job).realm).2 } := by
  have hspares := Realm.spares_settleFromHost promise outcome (w.starts job).realm
  refine ⟨hspares.hostWork, hspares.searches, hspares.reports,
    progresses_settleFromHost w job promise outcome, ?_, rfl,
    jobSteps_settleFromHost next affords promise outcome⟩
  exact .one (.inr ⟨job.number, rfl⟩) (by simp [World.starts])

/-- No note is the start of a job. -/
theorem started?_of_isNote {event : Event} (h : event.IsNote) : event.started? = none := by
  cases event with
  | noted | searchOptions => rfl
  | _ => exact h.elim

namespace Step

/-- Every step takes the realm along a history of its promises. -/
theorem history (h : Step e w w') : w.realm.Progresses w'.realm := by
  cases h with
  | works realm history journal dealings => exact history
  | promises polls outcome =>
    have hchanging : Realm.Changing (fun _ => True) True
        (Realm.promiseFromHost polls outcome) w.realm fun _ _ => True :=
      .promiseFromHost trivial polls outcome trivial
    exact .exec hchanging
  | drains | reports args => exact .of_eq rfl rfl rfl
  | publishes finalizes =>
    obtain ⟨-, -, rfl⟩ := Realm.exec_finalizeSearches_eq_ok finalizes
    exact .of_eq rfl rfl rfl
  | searches call => cases Machine.searchReferences_cases call <;> exact .of_eq rfl rfl rfl
  | starts next other affords => exact progresses_takes w
  | @settles job promise outcome realm next work settled affords =>
    have hhistory := progresses_settleFromHost w job promise outcome
    rw [settled] at hhistory
    exact hhistory
  | receives next => exact .quiet ((Realm.Quiet.enqueue rfl).trans (.of_eq rfl rfl rfl))
  | fails loses cause => exact loses.history
  | quiesces quiescent => exact .refl

/-- A step is a report, or nothing of note happens but that a job is started. -/
theorem journal (h : Step e w w') : w.Adds Event.IsMinor w' ∨ ∃ args, w' = w.reports args := by
  cases h with
  | works realm history journal dealings => exact .inl (journal.mono fun _ => .inl)
  | promises | drains | publishes | receives | quiesces => exact .inl (.none rfl)
  | searches call =>
    exact .inl ((Machine.searchReferences_cases call).adds.mono fun _ => .inl)
  | reports args => exact .inr ⟨args, rfl⟩
  | @starts job next other affords =>
    exact .inl (.one (.inr ⟨job.number, rfl⟩) Array.toList_append)
  | @settles job promise outcome realm next work settled affords =>
    exact .inl (.one (.inr ⟨job.number, rfl⟩) Array.toList_append)
  | fails loses cause => exact .inl loses.journal

/-- What a step does to the jobs. -/
theorem jobSteps (h : Step e w w') : ReflTransGen JobStep w w' := by
  cases h with
  | works realm history journal dealings =>
    exact .single (.enqueues (.of_spares realm (journal.filterMap fun _ => started?_of_isNote)))
  | promises | drains | quiesces => exact .single (.enqueues (.of_eq rfl rfl rfl rfl))
  | publishes finalizes =>
    obtain ⟨-, -, rfl⟩ := Realm.exec_finalizeSearches_eq_ok finalizes
    exact .single (.enqueues (.of_eq rfl rfl rfl rfl))
  | searches call =>
    have hsearches := Machine.searchReferences_cases call
    have hstarted : w'.started = w.started :=
      hsearches.adds.filterMap fun _ => started?_of_isNote
    cases hsearches <;> exact .single (.enqueues (.of_eq rfl rfl rfl hstarted))
  | reports args =>
    refine .single (.enqueues (.of_eq rfl rfl rfl ?_))
    simp [started, World.reports, Event.started?]
  | starts next other affords => exact .single (.starts next affords)
  | @settles job promise outcome realm next work settled affords =>
    have hsteps := jobSteps_settleFromHost next affords promise outcome
    rw [settled] at hsteps
    exact hsteps.tail (.enqueues (.of_eq rfl rfl rfl rfl))
  | receives next => exact .single (.enqueues (.push rfl rfl rfl rfl))
  | fails loses cause => exact loses.jobs.tail (.enqueues (.of_eq rfl rfl rfl rfl))

end Step

/-- What guest code does to the jobs. -/
theorem jobSteps_of_steps (h : ReflTransGen (Step e) w w') : ReflTransGen JobStep w w' := by
  induction h with
  | refl => exact .refl
  | tail _ hstep ih => exact ih.trans hstep.jobSteps

end World
end Retention
