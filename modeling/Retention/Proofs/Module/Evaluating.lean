import Mathlib.Data.Finset.Card
import Mathlib.Data.Finset.Range
import Retention.Proofs.Module.Running
import Retention.Proofs.Realm.Outcomes

/-!
# How a module is evaluated

A module that was not evaluated before evaluates its dependencies, performs its
body and settles what the body answers. What a run does between the bodies of its
modules starts no body and leaves the states of the modules as they are.

* `World.bodies`: the bodies that were started so far.
* `Run.Aside`: what happens between the bodies of modules.
* `Run.body_cases`, `Run.settle_cases`: a body, and the namespace it answers.
* `Run.evaluate_cases`: the evaluation of a module.
* `Run.evaluate_depth`: the depth that a run evaluates its modules with is enough.
-/

namespace Retention

open Relation

/-- The body of a module that was started, with what it imports. -/
def Event.body? : Event → Option (String × List (String × Value))
  | .bodyStarted specifier imports => some (specifier, imports)
  | .noted _ | .searchOptions _ | .jobStarted _ | .reported _ => none

namespace World

variable {e : Embedding} {w w' : World}

/-- The bodies of modules that were started so far, in order, with what they import. -/
def bodies (w : World) : List (String × List (String × Value)) :=
  w.journal.toList.filterMap Event.body?

theorem body?_of_isMinor {event : Event} (h : event.IsMinor) : event.body? = none := by
  obtain hnote | ⟨number, rfl⟩ := h
  · cases event with
    | noted | searchOptions => rfl
    | _ => exact hnote.elim
  · rfl

/-- No step of guest code starts the body of a module. -/
theorem Step.bodies (h : Step e w w') : w'.bodies = w.bodies := by
  obtain hadds | ⟨args, rfl⟩ := h.journal
  · exact hadds.filterMap fun _ => body?_of_isMinor
  · simp [World.bodies, World.reports, Event.body?]

theorem bodies_of_steps (h : ReflTransGen (Step e) w w') : w'.bodies = w.bodies :=
  keeps_of_steps (P := fun w' => w'.bodies = w.bodies) (fun hw hstep => hstep.bodies.trans hw) rfl h

theorem progresses_of_steps (h : ReflTransGen (Step e) w w') :
    w.realm.Progresses w'.realm :=
  keeps_of_steps (P := fun w' : World => w.realm.Progresses w'.realm)
    (fun hw hstep => hw.trans hstep.history) .refl h

end World

namespace Run

variable {e : Embedding} {steps : Nat} {r r' : Run}

/-! ## Between bodies -/

/-- Something happens, but no body is started and no module gets further. -/
structure Aside (r r' : Run) : Prop where
  states : r'.states = r.states
  bodies : r'.world.bodies = r.world.bodies
  progresses : r.world.realm.Progresses r'.world.realm

namespace Aside

theorem refl (r : Run) : Aside r r := ⟨rfl, rfl, .refl⟩

theorem trans {r'' : Run} (h : Aside r r') (h' : Aside r' r'') : Aside r r'' :=
  ⟨h'.states.trans h.states, h'.bodies.trans h.bodies, h.progresses.trans h'.progresses⟩

theorem of_serves (h : Serves e r r') : Aside r r' := by
  cases h with
  | @performs w steps =>
    have hbodies : w.bodies = r.world.bodies := World.bodies_of_steps steps
    exact ⟨rfl, hbodies, (World.progresses_of_steps steps).trans (.of_eq rfl rfl rfl)⟩
  | works spares history => exact ⟨rfl, rfl, history⟩

/-- What an operation between bodies comes to. -/
theorem of_walks {α : Type} {m : RunM α} (hm : Walks (Serves e) m)
    {outcome : Except RunFailure α} (hrun : m.run.run r = some (outcome, r')) : Aside r r' :=
  keeps_of_steps (P := Aside r) (fun hr hserves => hr.trans (of_serves hserves)) (refl r)
    (hm.steps hrun)

end Aside

/-! ## A body and its namespace -/

/-- A body is started once, and answers a value. -/
theorem body_cases {m : LoadedModule} {imports : List (String × Value)} {result : Value}
    (hrun : (perform m.specifier (body e steps m imports)).run.run r = some (.ok result, r')) :
    ∃ w w', w.journal.back? = some (.bodyStarted m.specifier imports) ∧
      ((e.code m.code { imports }).run (Machine.perform e steps)).run w = some (.ok result, w') ∧
      r' = delivers { r with world := w' } ∧
      w'.bodies = r.world.bodies ++ [(m.specifier, imports)] ∧
      r.world.realm.Progresses w'.realm := by
  obtain ⟨ran, w', hran, rfl, hok⟩ := perform_cases hrun
  cases ran with
  | error cause => cases hok
  | ok value =>
    obtain rfl := Except.ok.inj hok
    rw [run_body] at hran
    have hsteps := (Machine.treads_run (Machine.stepping e steps).perform _).steps hran
    have hprogresses := World.progresses_of_steps hsteps
    refine ⟨_, w', ?_, hran, rfl, ?_, hprogresses⟩
    · simp [World.notes]
    rw [World.bodies_of_steps hsteps]
    simp [World.bodies, World.notes, Event.body?]

/-- The namespace of a module is what its body answered, or what that is fulfilled
with if it is a promise. -/
theorem settle_cases {specifier : String} {result exports : Value}
    (hrun : (settle e steps specifier result).run.run r = some (.ok exports, r')) :
    Aside r r' ∧
      (r.world.realm.promise? result = none ∧ exports = result ∨
        ∃ promise, r.world.realm.promise? result = some promise ∧
          r'.world.realm.IsSettled promise (.fulfilled exports)) := by
  refine ⟨.of_walks (walks_settle steps specifier result) hrun, ?_⟩
  obtain ⟨_, _, hget, hrun⟩ := run_bind_eq_ok hrun
  cases hget
  cases hpromise : r.world.realm.promise? result with
  | none =>
    simp only [hpromise] at hrun
    obtain ⟨hexports, rfl⟩ := Prod.mk.inj (Option.some.inj hrun)
    exact .inl ⟨rfl, (Except.ok.inj hexports).symm⟩
  | some promise =>
    simp only [hpromise] at hrun
    refine .inr ⟨promise, rfl, ?_⟩
    obtain ⟨_, _, -, hrun⟩ := run_require_attempt_lift hrun
    obtain ⟨_, r₁, -, hrun⟩ := run_bind_eq_ok hrun
    obtain ⟨found, realm, hexec, hrun⟩ := run_require_attempt_lift hrun
    obtain ⟨hslots, rfl⟩ := Realm.exec_promiseSlots_eq_ok hexec
    cases hstate : found.state with
    | fulfilled =>
      simp only [hstate] at hrun
      obtain ⟨hexports, rfl⟩ := Prod.mk.inj (Option.some.inj hrun)
      refine ⟨found, hslots, ?_⟩
      rw [PromiseSlots.settlement?, hstate, Except.ok.inj hexports]
    | rejected =>
      simp only [hstate] at hrun
      obtain ⟨_, _, -, hrun⟩ := run_bind_eq_ok hrun
      cases hrun
    | pending =>
      simp only [hstate] at hrun
      cases hrun

/-- The body of a module was performed with what it imports, and its namespace is
what the body answered, or what that was fulfilled with if it is a promise. -/
def Answers (e : Embedding) (steps : Nat) (specifier : String) (code : Nat)
    (imports : List (String × Value)) (exports : Value) (realm : Realm) : Prop :=
  ∃ w result w', w.journal.back? = some (.bodyStarted specifier imports) ∧
    ((e.code code { imports }).run (Machine.perform e steps)).run w = some (.ok result, w') ∧
    (w'.realm.promise? result = none ∧ exports = result ∨
      ∃ promise, w'.realm.promise? result = some promise ∧
        realm.IsSettled promise (.fulfilled exports))

theorem Answers.progresses {specifier : String} {code : Nat} {imports : List (String × Value)}
    {exports : Value} {realm realm' : Realm}
    (h : Answers e steps specifier code imports exports realm) (hrealm : realm.Progresses realm') :
    Answers e steps specifier code imports exports realm' := by
  obtain ⟨w, result, w', hjournal, hrun, hexports⟩ := h
  refine ⟨w, result, w', hjournal, hrun, hexports.imp_right fun ⟨promise, hpromise, hsettled⟩ => ?_⟩
  exact ⟨promise, hpromise, hrealm.isSettled hsettled⟩

/-- The body of a module is performed, and answers its namespace. -/
structure Performs (e : Embedding) (steps : Nat) (m : LoadedModule)
    (imports : List (String × Value)) (exports : Value) (r r' : Run) : Prop where
  states : r'.states = r.states
  bodies : r'.world.bodies = r.world.bodies ++ [(m.specifier, imports)]
  progresses : r.world.realm.Progresses r'.world.realm
  answers : Answers e steps m.specifier m.code imports exports r'.world.realm

theorem performs_of_settle {m : LoadedModule} {imports : List (String × Value)}
    {result exports : Value} {r₁ : Run}
    (hbody : (perform m.specifier (body e steps m imports)).run.run r = some (.ok result, r₁))
    (hsettle : (settle e steps m.specifier result).run.run r₁ = some (.ok exports, r')) :
    Performs e steps m imports exports r r' := by
  obtain ⟨w, w', hjournal, hran, rfl, hbodies, hprogresses⟩ := body_cases hbody
  obtain ⟨haside, hexports⟩ := settle_cases hsettle
  refine ⟨haside.states, haside.bodies.trans hbodies, ?_, w, result, w', hjournal, hran, hexports⟩
  have hdelivers : w'.realm.Progresses (delivers { r with world := w' }).world.realm :=
    .of_eq rfl rfl rfl
  exact hprogresses.trans (hdelivers.trans haside.progresses)

/-! ## Evaluation -/

/-- A module gets further. -/
def marks (r : Run) (i : Nat) (s : ModuleState) : Run :=
  { r with states := r.states.setIfInBounds i s }

/-- The evaluation of dependencies, in order. -/
def evaluateAll (e : Embedding) (steps : Nat) (modules : Array LoadedModule) (depth : Nat)
    (dependencies : List (String × Nat)) : RunM (List (String × Value)) :=
  dependencies.mapM fun (request, dependency) => do
    return (request, ← evaluate e steps modules depth dependency)

/-- The evaluation of a module, if it succeeds. -/
inductive Evaluates (e : Embedding) (steps : Nat) (modules : Array LoadedModule) (depth i : Nat)
    (r : Run) : Value → Run → Prop where
  /-- It was evaluated before. -/
  | evaluated {exports : Value} (state : r.states.getD i .unevaluated = .evaluated exports) :
    Evaluates e steps modules depth i r exports r
  /-- It is still being evaluated. -/
  | evaluating (state : r.states.getD i .unevaluated = .evaluating) :
    Evaluates e steps modules depth i r .undefined r
  | missing (none : modules[i]? = none) : Evaluates e steps modules depth i r .undefined r
  /-- It is evaluated after its dependencies. -/
  | performed {m : LoadedModule} {imports : List (String × Value)} {exports : Value} {r₁ r₂ : Run}
    (state : r.states.getD i .unevaluated = .unevaluated) (module : modules[i]? = some m)
    (before : (evaluateAll e steps modules depth m.dependencies).run.run (r.marks i .evaluating) =
      some (.ok imports, r₁))
    (performs : Performs e steps m imports exports r₁ r₂) :
    Evaluates e steps modules depth i r exports (r₂.marks i (.evaluated exports))

theorem evaluate_cases {modules : Array LoadedModule} {depth i : Nat} {exports : Value}
    (hrun : (evaluate e steps modules (depth + 1) i).run.run r = some (.ok exports, r')) :
    Evaluates e steps modules depth i r exports r' := by
  obtain ⟨s, r₁, hstate, hrun⟩ := run_bind_eq_ok hrun
  obtain ⟨hs, rfl⟩ := Prod.mk.inj (Option.some.inj hstate)
  obtain rfl := Except.ok.inj hs
  split at hrun
  · rename_i found hfound
    obtain ⟨hexports, rfl⟩ := Prod.mk.inj (Option.some.inj hrun)
    obtain rfl := Except.ok.inj hexports
    exact .evaluated hfound
  · rename_i hfound
    obtain ⟨hexports, rfl⟩ := Prod.mk.inj (Option.some.inj hrun)
    obtain rfl := Except.ok.inj hexports
    exact .evaluating hfound
  · rename_i hnone _ _
    obtain ⟨hexports, rfl⟩ := Prod.mk.inj (Option.some.inj hrun)
    obtain rfl := Except.ok.inj hexports
    exact .missing hnone
  · rename_i m hfound hmodule
    obtain ⟨_, r₁, hmarks, hrun⟩ := run_bind_eq_ok hrun
    obtain ⟨-, rfl⟩ := Prod.mk.inj (Option.some.inj hmarks)
    obtain ⟨imports, r₁, hbefore, hrun⟩ := run_bind_eq_ok hrun
    obtain ⟨result, r₂, hperforms, hrun⟩ := run_bind_eq_ok hrun
    obtain ⟨value, r₃, hsettles, hrun⟩ := run_bind_eq_ok hrun
    obtain ⟨_, r₄, hmarks, hrun⟩ := run_bind_eq_ok hrun
    obtain ⟨-, rfl⟩ := Prod.mk.inj (Option.some.inj hmarks)
    obtain ⟨hexports, rfl⟩ := Prod.mk.inj (Option.some.inj hrun)
    obtain rfl := Except.ok.inj hexports
    exact .performed hfound hmodule hbefore (performs_of_settle hperforms hsettles)

/-! ## Depth -/

variable {modules : Array LoadedModule} {depth i : Nat} {exports : Value}

theorem evaluate_succ (e : Embedding) (steps : Nat) (modules : Array LoadedModule) (depth i : Nat) :
    evaluate e steps modules (depth + 1) i = (do
      match ← state i, modules[i]? with
      | .evaluated exports, _ => return exports
      | .evaluating, _ | _, none => return .undefined
      | .unevaluated, some m =>
        setState i .evaluating
        let imports ← evaluateAll e steps modules depth m.dependencies
        let result ← perform m.specifier (body e steps m imports)
        let exports ← settle e steps m.specifier result
        setState i (.evaluated exports)
        return exports) := rfl

/-- How far a module is. -/
def stateAt (r : Run) (i : Nat) : ModuleState := r.states.getD i .unevaluated

theorem stateAt_marks (r : Run) {i : Nat} (hi : i < r.states.size) (s : ModuleState) (j : Nat) :
    (r.marks i s).stateAt j = if j = i then s else r.stateAt j := by
  unfold stateAt marks
  simp only [Array.getD_eq_getD_getElem?, Array.getElem?_setIfInBounds]
  grind

/-- The places of the modules whose evaluation did not begin. -/
def unmarked (r : Run) : Finset Nat :=
  (Finset.range r.states.size).filter fun i => r.stateAt i = .unevaluated

theorem mem_unmarked : i ∈ r.unmarked ↔ i < r.states.size ∧ r.stateAt i = .unevaluated := by
  simp [unmarked]

theorem card_unmarked_le (r : Run) : r.unmarked.card ≤ r.states.size :=
  (Finset.card_filter_le _ _).trans (Finset.card_range _).le

theorem size_marks (r : Run) (i : Nat) (s : ModuleState) :
    (r.marks i s).states.size = r.states.size := by
  simp [marks]

theorem unmarked_marks_subset (r : Run) (i : Nat) {s : ModuleState} (hs : s ≠ .unevaluated) :
    (r.marks i s).unmarked ⊆ r.unmarked := by
  intro j hj
  obtain ⟨hlt, hstate⟩ := mem_unmarked.mp hj
  rw [size_marks] at hlt
  refine mem_unmarked.mpr ⟨hlt, ?_⟩
  by_cases hi : i < r.states.size
  · rw [stateAt_marks r hi] at hstate
    split at hstate
    · exact absurd hstate hs
    · exact hstate
  · rwa [marks, Array.setIfInBounds_eq_of_size_le (Nat.le_of_not_lt hi)] at hstate

/-- The evaluation of a module begins. -/
theorem card_unmarked_marks (hi : i < r.states.size) (hstate : r.stateAt i = .unevaluated) :
    (r.marks i .evaluating).unmarked.card < r.unmarked.card := by
  have hsubset : (r.marks i .evaluating).unmarked ⊆ r.unmarked :=
    unmarked_marks_subset r i (by simp)
  refine Finset.card_lt_card ((Finset.ssubset_iff_of_subset hsubset).mpr
    ⟨i, mem_unmarked.mpr ⟨hi, hstate⟩, fun hmem => ?_⟩)
  obtain ⟨-, hmarked⟩ := mem_unmarked.mp hmem
  rw [stateAt_marks r hi, if_pos rfl] at hmarked
  cases hmarked

/-- No module goes back to where its evaluation did not begin. -/
structure Advances (r r' : Run) : Prop where
  size : r'.states.size = r.states.size
  unmarked : r'.unmarked ⊆ r.unmarked

namespace Advances

theorem of_states (h : r'.states = r.states) : Advances r r' := by
  refine ⟨congrArg Array.size h, fun i hi => ?_⟩
  rwa [mem_unmarked, stateAt, h, ← stateAt, ← mem_unmarked] at hi

theorem trans {r'' : Run} (h : Advances r r') (h' : Advances r' r'') : Advances r r'' :=
  ⟨h'.size.trans h.size, h'.unmarked.trans h.unmarked⟩

theorem marks (r : Run) (i : Nat) {s : ModuleState} (hs : s ≠ .unevaluated) :
    Advances r (r.marks i s) :=
  ⟨size_marks r i s, unmarked_marks_subset r i hs⟩

end Advances

theorem advances_of_evaluateAll {dependencies : List (String × Nat)}
    {imports : List (String × Value)}
    (hevaluate : ∀ {i r exports r'},
      (evaluate e steps modules depth i).run.run r = some (.ok exports, r') → Advances r r')
    (hrun : (evaluateAll e steps modules depth dependencies).run.run r = some (.ok imports, r')) :
    Advances r r' := by
  unfold evaluateAll at hrun
  induction dependencies generalizing r imports with
  | nil =>
    obtain ⟨-, rfl⟩ := Prod.mk.inj (Option.some.inj hrun)
    exact .of_states rfl
  | cons dependency rest ih =>
    rw [List.mapM_cons] at hrun
    obtain ⟨first, r₁, hfirst, hrun⟩ := run_bind_eq_ok hrun
    obtain ⟨later, r₂, hrest, hrun⟩ := run_bind_eq_ok hrun
    obtain ⟨-, rfl⟩ := Prod.mk.inj (Option.some.inj hrun)
    obtain ⟨exports, r₁', hexports, hfirst⟩ := run_bind_eq_ok hfirst
    obtain ⟨-, rfl⟩ := Prod.mk.inj (Option.some.inj hfirst)
    exact (hevaluate hexports).trans (ih hrest)

theorem advances_of_evaluate
    (hrun : (evaluate e steps modules depth i).run.run r = some (.ok exports, r')) :
    Advances r r' := by
  induction depth generalizing i r exports r' with
  | zero => cases hrun
  | succ depth ih =>
    cases evaluate_cases hrun with
    | evaluated | evaluating | missing => exact .of_states rfl
    | @performed m imports exports r₁ r₂ state module before performs =>
      have hbegins : Advances r (r.marks i .evaluating) := .marks r i (by simp)
      have hends : Advances r₂ (r₂.marks i (.evaluated exports)) := .marks r₂ i (by simp)
      exact hbegins.trans ((advances_of_evaluateAll ih before).trans
        ((Advances.of_states performs.states).trans hends))

/-- More depth makes no difference to dependencies if it makes none to a module. -/
theorem evaluateAll_of_lt
    (hevaluate : ∀ {i : Nat} {r : Run}, r.states.size = modules.size → r.unmarked.card < depth →
      (evaluate e steps modules (depth + 1) i).run.run r =
        (evaluate e steps modules depth i).run.run r)
    (dependencies : List (String × Nat)) (hsize : r.states.size = modules.size)
    (hdepth : r.unmarked.card < depth) :
    (evaluateAll e steps modules (depth + 1) dependencies).run.run r =
      (evaluateAll e steps modules depth dependencies).run.run r := by
  unfold evaluateAll
  induction dependencies generalizing r with
  | nil => rfl
  | cons dependency rest ih =>
    rw [List.mapM_cons, List.mapM_cons]
    refine run_bind_congr (run_bind_congr (hevaluate hsize hdepth) fun _ _ _ => rfl)
      fun _ r₁ hfirst => run_bind_congr ?_ fun _ _ _ => rfl
    obtain ⟨exports, r₁', hexports, hfirst⟩ := run_bind_eq_ok hfirst
    obtain ⟨-, rfl⟩ := Prod.mk.inj (Option.some.inj hfirst)
    have hadvances := advances_of_evaluate hexports
    exact ih (hadvances.size.trans hsize)
      ((Finset.card_le_card hadvances.unmarked).trans_lt hdepth)

/-- More depth than there are modules to begin with makes no difference. -/
theorem evaluate_of_lt (hsize : r.states.size = modules.size) (hdepth : r.unmarked.card < depth) :
    (evaluate e steps modules (depth + 1) i).run.run r =
      (evaluate e steps modules depth i).run.run r := by
  induction depth generalizing i r with
  | zero => cases hdepth
  | succ depth ih =>
    rw [evaluate_succ, evaluate_succ e steps modules depth]
    refine run_bind_congr rfl fun s r₁ hs => ?_
    obtain ⟨hstate, rfl⟩ := Prod.mk.inj (Option.some.inj hs)
    obtain rfl := Except.ok.inj hstate
    clear hs
    split
    · rfl
    · rfl
    · rfl
    · rename_i m hstate hm
      have hi : i < r.states.size := hsize ▸ (Array.getElem?_eq_some_iff.mp hm).1
      refine run_bind_congr rfl fun _ r₁ hmarks => ?_
      obtain ⟨-, rfl⟩ := Prod.mk.inj (Option.some.inj hmarks)
      refine run_bind_congr (evaluateAll_of_lt ih m.dependencies ?_ ?_) fun _ _ _ => rfl
      · exact (size_marks r i .evaluating).trans hsize
      · have := card_unmarked_marks hi hstate
        show (r.marks i .evaluating).unmarked.card < depth
        omega

/-- The depth of a run is enough to evaluate its modules. -/
theorem evaluate_depth (hsize : r.states.size = modules.size) (hdepth : modules.size < depth) :
    (evaluate e steps modules depth i).run.run r =
      (evaluate e steps modules (modules.size + 1) i).run.run r := by
  have hcard := card_unmarked_le r
  induction hdepth with
  | refl => rfl
  | @step m hle ih =>
    have hlt : r.unmarked.card < m := (hcard.trans_eq hsize).trans_lt hle
    exact (evaluate_of_lt hsize hlt).trans ih

end Run
end Retention
