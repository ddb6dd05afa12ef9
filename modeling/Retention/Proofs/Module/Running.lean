import Retention.Module.Run
import Retention.Proofs.Guest.Promises
import Retention.Proofs.Guest.Stepping

/-!
# What a run does

A run goes step by step as guest code does (`Run.Step`). Each time that guest code
was performed, whether it failed or not, what it reported is delivered at once, as
part of the same step.

* `Run.Step`: what a run does.
* `Run.perform_cases`: guest code that is performed.
* `Run.walks_execute`: a whole run goes along steps.
* `World.ComesUp`: the worlds that come up from a fresh realm on.
-/

namespace Retention

open Relation

namespace Run

variable {α : Type} {e : Embedding} {r r' : Run}

/-- The reports that wait are delivered. -/
def delivers (r : Run) : Run :=
  { r with
    world := { r.world with realm := { r.world.realm with reports := {} } }
    delivered := r.world.realm.reports.toList.foldl Sequence.push r.delivered }

/-- What a run does between the bodies of its modules. -/
inductive Serves (e : Embedding) (r : Run) : Run → Prop where
  /-- Guest code is performed, and its reports are delivered. -/
  | performs {w : World} (steps : ReflTransGen (World.Step e) r.world w) :
    Serves e r (delivers { r with world := w })
  /-- The embedding works within the realm. -/
  | works {realm : Realm} (spares : r.world.realm.Spares realm)
    (history : r.world.realm.Progresses realm) :
    Serves e r { r with world := { r.world with realm } }

/-- What a run does. -/
inductive Step (e : Embedding) (r : Run) : Run → Prop where
  | serves {r' : Run} (serves : Serves e r r') : Step e r r'
  /-- The body of a module is performed. -/
  | evaluates {w : World} (specifier : String) (imports : List (String × Value))
    (steps : ReflTransGen (World.Step e) (r.world.notes [.bodyStarted specifier imports]) w) :
    Step e r (delivers { r with world := w })
  /-- The searches are published. -/
  | publishes {results : SearchResults} {realm : Realm}
    (finalizes : Realm.exec Realm.finalizeSearches r.world.realm = (.ok results, realm)) :
    Step e r { r with world := { r.world with realm } }
  /-- The run goes on with its modules or its warnings. -/
  | keeps {r' : Run} (world : r'.world = r.world) (delivered : r'.delivered = r.delivered) :
    Step e r r'

/-! ## Outcomes -/

theorem run_require (specifier : String) (outcome : Except Abrupt α) (r : Run) :
    (require specifier outcome).run.run r =
      some (outcome.mapError (failure r.world.realm specifier), r) := by
  cases outcome <;> rfl

theorem run_attempt_lift (m : RealmM α) (r : Run) :
    (attempt (Machine.lift m)).run.run r =
      some (.ok (Realm.exec m r.world.realm).1,
        { r with world := { r.world with realm := (Realm.exec m r.world.realm).2 } }) := rfl

theorem run_deliver (r : Run) : deliver.run.run r = some (.ok (), r.delivers) := rfl

/-- An operation of the embedding on the realm has to succeed. -/
theorem run_require_attempt_lift {β : Type} {specifier : String} {m : RealmM α} {f : α → RunM β}
    {b : β}
    (hrun : (do f (← require specifier (← attempt (Machine.lift m)))).run.run r =
      some (.ok b, r')) :
    ∃ a realm, Realm.exec m r.world.realm = (.ok a, realm) ∧
      (f a).run.run { r with world := { r.world with realm } } = some (.ok b, r') := by
  obtain ⟨found, r₁, hfound, hrun⟩ := run_bind_eq_ok hrun
  obtain ⟨hok, rfl⟩ := Prod.mk.inj (Option.some.inj ((run_attempt_lift _ _).symm.trans hfound))
  obtain rfl := Except.ok.inj hok
  obtain ⟨a, r₂, hrequire, hrun⟩ := run_bind_eq_ok hrun
  obtain ⟨hanswer, rfl⟩ := Prod.mk.inj (Option.some.inj ((run_require _ _ _).symm.trans hrequire))
  cases hexec : Realm.exec m r.world.realm with
  | mk outcome realm =>
    rw [hexec] at hanswer hrun
    cases outcome with
    | error cause => cases hanswer
    | ok _ =>
      obtain rfl := Except.ok.inj hanswer
      exact ⟨_, realm, rfl, hrun⟩

/-- An operation on the world is attempted. -/
theorem attempt_cases {m : Machine α} {outcome : Except RunFailure (Except Abrupt α)}
    (hrun : (attempt m).run.run r = some (outcome, r')) :
    ∃ ran w, m.run.run r.world = some (ran, w) ∧ outcome = .ok ran ∧
      r' = { r with world := w } := by
  obtain ⟨⟨ran, w⟩, hm, hrest⟩ := Option.bind_eq_some_iff.mp hrun
  obtain ⟨rfl, rfl⟩ := Prod.mk.inj (Option.some.inj hrest)
  exact ⟨ran, w, hm, rfl, rfl⟩

/-- Guest code is performed: its reports are delivered, and its failure is one of
the run. -/
theorem perform_cases {specifier : String} {m : Machine α} {outcome : Except RunFailure α}
    (hrun : (perform specifier m).run.run r = some (outcome, r')) :
    ∃ ran w, m.run.run r.world = some (ran, w) ∧ r' = delivers { r with world := w } ∧
      outcome = ran.mapError (failure r'.world.realm specifier) := by
  obtain ⟨failure, hattempt, -⟩ | ⟨ran, r₁, hattempt, hrest⟩ := run_bind_eq_some_iff.mp hrun
  · obtain ⟨ran, w, -, herror, -⟩ := attempt_cases hattempt
    cases herror
  · obtain ⟨ran, w, hm, hok, rfl⟩ := attempt_cases hattempt
    obtain rfl := Except.ok.inj hok
    obtain ⟨failure, hdeliver, -⟩ | ⟨_, r₂, hdeliver, hrequire⟩ := run_bind_eq_some_iff.mp hrest
    · cases hdeliver
    · obtain ⟨-, rfl⟩ := Prod.mk.inj (Option.some.inj ((run_deliver _).symm.trans hdeliver))
      rw [run_require] at hrequire
      obtain ⟨rfl, rfl⟩ := Prod.mk.inj (Option.some.inj hrequire)
      exact ⟨_, w, hm, rfl, rfl⟩

/-! ## Steps -/

theorem walks_lift {m : RealmM α} {Q : Realm → α → Realm → Prop}
    (hm : ∀ realm, Realm.Changing (fun _ => True) False m realm (Q realm)) :
    Walks (Serves e) (attempt (Machine.lift m)) :=
  Treads.step (run_attempt_lift m) fun r =>
    .works (hm r.world.realm).spares (.exec (hm r.world.realm))

theorem walks_reportUnhandled :
    Walks (Serves e) (attempt (Machine.lift Realm.reportUnhandled)) :=
  Treads.step (run_attempt_lift _) fun r =>
    .works (Realm.spares_reportUnhandled r.world.realm) (.reported .refl rfl)

theorem walks_require {R : Run → Run → Prop} (specifier : String) (outcome : Except Abrupt α) :
    Walks R (require specifier outcome) :=
  Treads.still (run_require specifier outcome)

theorem walks_perform (specifier : String) {m : Machine α} (hm : Walks (World.Step e) m) :
    Walks (Serves e) (perform specifier m) := by
  refine ⟨fun {r outcome r'} hrun => ?_⟩
  obtain ⟨ran, w, hran, rfl, -⟩ := perform_cases hrun
  exact .single (.performs (hm.steps hran))

theorem walks_setState (i : Nat) (s : ModuleState) : Walks (Step e) (setState i s) :=
  .modify fun _ => .keeps rfl rfl

/-- The body of a module, with the namespaces that it imports. -/
def body (e : Embedding) (steps : Nat) (m : LoadedModule) (imports : List (String × Value)) :
    Machine Value := do
  Machine.record [.bodyStarted m.specifier imports]
  ExceptT.mk ((e.code m.code { imports }).run (Machine.perform e steps))

theorem run_body (e : Embedding) (steps : Nat) (m : LoadedModule) (imports : List (String × Value))
    (w : World) :
    (body e steps m imports).run.run w =
      ((e.code m.code { imports }).run (Machine.perform e steps)).run
        (w.notes [.bodyStarted m.specifier imports]) := rfl

theorem walks_body (specifier : String) (steps : Nat) (m : LoadedModule)
    (imports : List (String × Value)) :
    Walks (Step e) (perform specifier (body e steps m imports)) := by
  refine ⟨fun {r outcome r'} hrun => ?_⟩
  obtain ⟨ran, w, hran, rfl, -⟩ := perform_cases hrun
  rw [run_body] at hran
  exact .single (.evaluates m.specifier imports
    ((Machine.treads_run (Machine.stepping e steps).perform _).steps hran))

theorem walks_settle (steps : Nat) (specifier : String) (result : Value) :
    Walks (Serves e) (settle e steps specifier result) := by
  refine Walks.getThe.bind fun r => ?_
  split
  · exact .pure _
  · rename_i promise _
    refine (walks_lift fun _ => .markHandled promise).bind fun _ =>
      (walks_require ..).bind fun _ =>
      (walks_perform specifier (Machine.stepping e steps).pump).bind fun _ =>
      (walks_lift fun _ => .promiseSlots promise).bind fun found =>
      (walks_require ..).bind fun slots => ?_
    split
    · exact .pure _
    · exact Walks.getThe.bind fun _ => .throw _
    · exact .throw _

theorem walks_evaluate (steps : Nat) (modules : Array LoadedModule) (depth i : Nat) :
    Walks (Step e) (evaluate e steps modules depth i) := by
  induction depth generalizing i with
  | zero => exact ⟨fun hrun => nomatch hrun⟩
  | succ depth ih =>
    refine Walks.bind (Walks.getThe.bind fun _ => .pure _) fun found => ?_
    split
    · exact .pure _
    · exact .pure _
    · exact .pure _
    · rename_i m _
      have himports : ∀ dependency : String × Nat, Walks (Step e) (do
          return (dependency.1, ← evaluate e steps modules depth dependency.2) :
            RunM (String × Value)) :=
        fun dependency => (ih dependency.2).bind fun _ => .pure _
      exact (walks_setState i _).bind fun _ => (Walks.mapM himports m.dependencies).bind
        fun imports => (walks_body m.specifier steps m imports).bind fun result =>
        ((walks_settle steps m.specifier result).mono Step.serves).bind fun exports =>
        (walks_setState i _).bind fun _ => .pure _

theorem walks_load (inputs : Inputs) (steps : Nat) : Walks (Step e) (load inputs steps) := by
  refine ⟨fun {r outcome r'} hrun => ?_⟩
  obtain ⟨⟨loaded, loader⟩, -, hrest⟩ := Option.bind_eq_some_iff.mp hrun
  cases loaded with
  | ok i =>
    obtain ⟨-, rfl⟩ := Prod.mk.inj (Option.some.inj hrest)
    exact .single (.keeps rfl rfl)
  | error failure =>
    obtain ⟨-, rfl⟩ := Prod.mk.inj (Option.some.inj hrest)
    exact .refl

theorem walks_finalizeSearches :
    Walks (Step e) (attempt (Machine.lift Realm.finalizeSearches)) := by
  refine Treads.step (run_attempt_lift _) fun r => ?_
  cases he : Realm.exec Realm.finalizeSearches r.world.realm with
  | mk outcome realm =>
    cases outcome with
    | ok results => exact .publishes he
    | error cause =>
      rw [Realm.exec_finalizeSearches] at he
      split at he
      · cases he
      · cases he
        exact .keeps rfl rfl

/-- A whole run goes along steps, whatever its outcome. -/
theorem walks_execute (steps : Nat) (inputs : Inputs) :
    Walks (Step e) (execute e steps inputs) := by
  refine ((walks_lift fun _ => .installHostFunctions).mono Step.serves).bind fun _ =>
    (walks_require ..).bind fun _ => (walks_load inputs steps).bind fun _ =>
    (walks_evaluate ..).bind fun _ =>
    ((walks_perform _ (Machine.stepping e steps).pump).mono Step.serves).bind fun _ =>
    (walks_reportUnhandled.mono Step.serves).bind fun _ =>
    (walks_require ..).bind fun _ => Walks.bind (.modify fun _ => ?_) fun _ =>
    walks_finalizeSearches.bind fun _ => walks_require ..
  exact .keeps rfl rfl

end Run

namespace World

/-- The worlds that come up from a fresh realm on: after operations of the
embedding, and after a run of modules. -/
inductive ComesUp (e : Embedding) (options : Options) : World → Prop where
  | operations {w : World}
    (runs : ReflTransGen (Machine.Runs (fun _ => True) e) { realm := { options } } w) :
    ComesUp e options w
  | run {steps : Nat} {inputs : Inputs} {outcome : Except RunFailure SearchResults} {r : Run}
    (runs : Run.run e steps inputs options = some (outcome, r)) : ComesUp e options r.world

variable {e : Embedding} {options : Options} {w : World}

theorem steps_of_runs {w' : World} (h : ReflTransGen (Machine.Runs (fun _ => True) e) w w') :
    ReflTransGen (Step e) w w' := by
  induction h with
  | refl => exact .refl
  | tail _ hrun ih =>
    obtain ⟨steps, op, outcome, -, hperform⟩ := hrun
    exact ih.trans (((Machine.stepping e steps).perform op).steps hperform)

/-- What holds in a fresh realm, and is kept by what guest code does and by what a
run does, holds in every world that comes up. -/
theorem ComesUp.induct {P : World → Prop} (hfresh : P { realm := { options } })
    (hstep : ∀ {w w' : World}, P w → Step e w w' → P w')
    (hrun : ∀ {r r' : Run}, P r.world → Run.Step e r r' → P r'.world)
    (h : ComesUp e options w) : P w := by
  cases h with
  | operations runs => exact keeps_of_steps (P := P) hstep hfresh (steps_of_runs runs)
  | @run steps inputs outcome r runs =>
    exact keeps_of_steps (P := fun r : Run => P r.world) hrun hfresh
      ((Run.walks_execute steps inputs).steps runs)

end World
end Retention
