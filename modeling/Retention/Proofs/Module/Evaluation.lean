import Retention.Proofs.Module.Evaluating
import Retention.Proofs.Module.Loading
import Retention.Proofs.Module.PostOrder

/-!
# Modules are evaluated in post-order

The bodies of the modules that are reached from the entry are started once each, in
the order of a walk over their requests. A body sees the namespaces of the modules
that the walk has left, and `undefined` for those that it is below of.

* `Run.Marked`: how far the modules of a run are.
* `Run.Visits`: what the evaluation of modules comes to.
* `Run.evaluate_spec`: a module and what it requests are evaluated in post-order.
* `Inputs.Loadable.inPostOrder_of_evaluate`: a run that loads its modules and evaluates its entry.
-/

namespace Retention

open Relation

/-- What the body of a visited module sees, in the order of its requests. -/
def Inputs.imports (inputs : Inputs) (exports : String → Value) (visit : Visit String) :
    List (String × Value) :=
  match inputs.contents visit.node with
  | .error _ => []
  | .ok source => source.requests.map fun request =>
    (request,
      match inputs.resolve request visit.node with
      | .ok target => if target ∈ visit.finished then exports target else .undefined
      | .error _ => .undefined)

namespace Run

variable {e : Embedding} {steps i : Nat} {inputs : Inputs} {modules : Array LoadedModule}
  {above finished : List String} {m : LoadedModule} {r r' : Run}

/-! ## How far modules are -/

/-- The modules that are being evaluated, and those that were. -/
structure Marked (modules : Array LoadedModule) (r : Run) (above finished : List String) :
    Prop where
  size : r.states.size = modules.size
  evaluating : ∀ {i m}, modules[i]? = some m → (r.stateAt i = .evaluating ↔ m.specifier ∈ above)
  evaluated : ∀ {i m}, modules[i]? = some m →
    ((∃ exports, r.stateAt i = .evaluated exports) ↔ m.specifier ∈ finished)

/-- What was marked stays marked. -/
def Keeps (r r' : Run) : Prop := ∀ i, r.stateAt i ≠ .unevaluated → r'.stateAt i = r.stateAt i

/-- The namespaces of the modules that were evaluated. -/
def Exports (modules : Array LoadedModule) (r : Run) (exports : String → Value) : Prop :=
  ∀ {i m value}, modules[i]? = some m → r.stateAt i = .evaluated value →
    exports m.specifier = value

/-- What is seen of a module: its namespace, or nothing while it is being evaluated. -/
def Sees (r : Run) (i : Nat) (value : Value) : Prop :=
  r.stateAt i = .evaluated value ∨ r.stateAt i = .evaluating ∧ value = .undefined

theorem Keeps.trans {r'' : Run} (h : Keeps r r') (h' : Keeps r' r'') : Keeps r r'' := by
  intro i hi
  have hsame := h i hi
  rw [← hsame] at hi
  rw [h' i hi, hsame]

theorem Keeps.exports {exports : String → Value} (h : Keeps r r')
    (hexports : Exports modules r' exports) : Exports modules r exports := by
  intro i m value hm hvalue
  exact hexports hm ((h i (by simp [hvalue])).trans hvalue)

theorem Sees.keeps {value : Value} (hs : r.Sees i value) (h : Keeps r r') : r'.Sees i value := by
  obtain hstate | ⟨hstate, hvalue⟩ := hs
  · exact .inl ((h i (by simp [hstate])).trans hstate)
  · exact .inr ⟨(h i (by simp [hstate])).trans hstate, hvalue⟩

namespace Marked

theorem of_states (h : Marked modules r above finished) (hstates : r'.states = r.states) :
    Marked modules r' above finished := by
  have hstate (i : Nat) : r'.stateAt i = r.stateAt i := by rw [stateAt, hstates, ← stateAt]
  exact ⟨hstates ▸ h.size, fun hm => hstate _ ▸ h.evaluating hm,
    fun hm => hstate _ ▸ h.evaluated hm⟩

variable (h : Marked modules r above finished) (hm : modules[i]? = some m)

include h hm

theorem not_mem_of_unevaluated (hstate : r.stateAt i = .unevaluated) :
    m.specifier ∉ above ∧ m.specifier ∉ finished := by
  refine ⟨fun hmem => ?_, fun hmem => ?_⟩
  · cases hstate.symm.trans ((h.evaluating hm).mpr hmem)
  · obtain ⟨exports, hexports⟩ := (h.evaluated hm).mpr hmem
    cases hstate.symm.trans hexports

/-- A module is marked anew: nothing changes for the other modules. -/
theorem marks (hloaded : inputs.Loaded modules) {state : ModuleState}
    {above' finished' : List String} (hothers : ∀ s ≠ m.specifier,
      (s ∈ above' ↔ s ∈ above) ∧ (s ∈ finished' ↔ s ∈ finished))
    (hevaluating : state = .evaluating ↔ m.specifier ∈ above')
    (hevaluated : (∃ exports, state = .evaluated exports) ↔ m.specifier ∈ finished') :
    Marked modules (r.marks i state) above' finished' := by
  have hi : i < r.states.size := h.size ▸ (Array.getElem?_eq_some_iff.mp hm).1
  have hmarks {j : Nat} {m' : LoadedModule} (hm' : modules[j]? = some m') :
      ((r.marks i state).stateAt j = .evaluating ↔ m'.specifier ∈ above') ∧
        ((∃ exports, (r.marks i state).stateAt j = .evaluated exports) ↔
          m'.specifier ∈ finished') := by
    rw [stateAt_marks r hi]
    by_cases hj : j = i
    · subst hj
      obtain rfl := Option.some.inj (hm.symm.trans hm')
      simpa only [if_true] using ⟨hevaluating, hevaluated⟩
    · obtain ⟨habove, hfinished⟩ :=
        hothers m'.specifier fun heq => hj (hloaded.unique hm' hm heq)
      rw [if_neg hj, habove, hfinished]
      exact ⟨h.evaluating hm', h.evaluated hm'⟩
  exact ⟨by simpa [Run.marks] using h.size, fun hm' => (hmarks hm').1, fun hm' => (hmarks hm').2⟩

/-- The evaluation of a module begins. -/
theorem enter (hloaded : inputs.Loaded modules) (hstate : r.stateAt i = .unevaluated) :
    Marked modules (r.marks i .evaluating) (m.specifier :: above) finished := by
  obtain ⟨-, hfinished⟩ := h.not_mem_of_unevaluated hm hstate
  exact h.marks hm hloaded (fun s hs => by simp [hs]) (by simp) (by simpa using hfinished)

omit h in
/-- The evaluation of a module ends. -/
theorem leave (h : Marked modules r (m.specifier :: above) finished)
    (hloaded : inputs.Loaded modules) (habove : m.specifier ∉ above) (exports : Value) :
    Marked modules (r.marks i (.evaluated exports)) above (finished ++ [m.specifier]) :=
  h.marks hm hloaded (fun s hs => by simp [hs]) (by simpa using habove) (by simp)

end Marked

/-! ## What modules come to -/

/-- What the evaluation of modules comes to, with the visits of their walk. -/
structure Visits (inputs : Inputs) (e : Embedding) (steps : Nat) (modules : Array LoadedModule)
    (above finished todo : List String) (r r' : Run) (visits : List (Visit String)) : Prop where
  order : PostOrder inputs.targets above finished todo visits
  marked : Marked modules r' above (finished ++ visits.map Visit.node)
  keeps : Keeps r r'
  progresses : r.world.realm.Progresses r'.world.realm
  bodies : ∀ exports, Exports modules r' exports →
    r'.world.bodies =
      r.world.bodies ++ visits.map fun visit => (visit.node, inputs.imports exports visit)
  answers : ∀ exports, Exports modules r' exports → ∀ visit ∈ visits,
    ∃ source, inputs.contents visit.node = .ok source ∧
      Answers e steps visit.node source.code (inputs.imports exports visit) (exports visit.node)
        r'.world.realm

namespace Visits

variable {todo : List String} {visits : List (Visit String)}

theorem nil (hmarked : Marked modules r above finished) :
    Visits inputs e steps modules above finished [] r r [] where
  order := .nil
  marked := by simpa using hmarked
  keeps _ _ := rfl
  progresses := .refl
  bodies _ _ := by simp
  answers := by simp

/-- A module that was evaluated, or is being evaluated, is passed over. -/
theorem passed (hmarked : Marked modules r above finished)
    (hpassed : m.specifier ∈ above ∨ m.specifier ∈ finished) :
    Visits inputs e steps modules above finished [m.specifier] r r [] :=
  { nil hmarked with order := .skip hpassed .nil }

theorem append {r'' : Run} {todo' : List String} {visits' : List (Visit String)}
    (h : Visits inputs e steps modules above finished todo r r' visits)
    (h' : Visits inputs e steps modules above (finished ++ visits.map Visit.node) todo' r' r''
      visits') :
    Visits inputs e steps modules above finished (todo ++ todo') r r'' (visits ++ visits') where
  order := h.order.append h'.order
  marked := by simpa using h'.marked
  keeps := h.keeps.trans h'.keeps
  progresses := h.progresses.trans h'.progresses
  bodies exports hexports := by
    rw [h'.bodies exports hexports, h.bodies exports (h'.keeps.exports hexports), List.map_append,
      List.append_assoc]
  answers exports hexports visit hvisit := by
    obtain hvisit | hvisit := List.mem_append.mp hvisit
    · obtain ⟨source, hsource, hanswers⟩ :=
        h.answers exports (h'.keeps.exports hexports) visit hvisit
      exact ⟨source, hsource, hanswers.progresses h'.progresses⟩
    · exact h'.answers exports hexports visit hvisit

end Visits

/-- What a module imports is what is seen of the modules that its requests denote. -/
theorem imports_eq {importer : String} {source : ModuleSource} {dependencies : List (String × Nat)}
    {imports : List (String × Value)} {exports : String → Value}
    (hmarked : Marked modules r (importer :: above) finished) (hexports : Exports modules r exports)
    (hsource : inputs.contents importer = .ok source)
    (hdenotes : List.Forall₂
      (inputs.Denotes (modules.toList.map LoadedModule.specifier) importer) source.requests
      dependencies)
    (hsees : List.Forall₂ (fun dependency seen =>
      seen.1 = dependency.1 ∧ r.Sees dependency.2 seen.2) dependencies imports) :
    imports = inputs.imports exports ⟨importer, above, finished⟩ := by
  unfold Inputs.imports
  simp only [hsource]
  generalize source.requests = requests at hdenotes
  induction hdenotes generalizing imports with
  | nil =>
    cases hsees
    rfl
  | @cons request dependency _ _ hdenotes _ ih =>
    cases hsees with
    | @cons _ seen _ rest hseen hrest =>
      obtain ⟨hrequest, target, hresolve, hplace⟩ := hdenotes
      obtain ⟨m, hm, rfl⟩ := exists_module hplace
      obtain ⟨hname, hvalue⟩ := hseen
      rw [List.map_cons, ← ih hrest]
      refine congrArg (· :: rest) (Prod.ext (hname.trans hrequest) ?_)
      simp only [hresolve]
      obtain hstate | ⟨hstate, hundefined⟩ := hvalue
      · rw [if_pos ((hmarked.evaluated hm).mp ⟨_, hstate⟩), hexports hm hstate]
      · have hunfinished : m.specifier ∉ finished := fun hmem => by
          obtain ⟨exported, hexported⟩ := (hmarked.evaluated hm).mpr hmem
          cases hstate.symm.trans hexported
        rw [if_neg hunfinished, hundefined]

/-! ## Evaluation -/

/-- Dependencies are evaluated one after the other. -/
theorem evaluateAll_spec {depth : Nat} {dependencies : List (String × Nat)} {targets : List String}
    {imports : List (String × Value)}
    (hevaluate : ∀ {i m finished r exports r'}, modules[i]? = some m →
      Marked modules r above finished →
      (evaluate e steps modules depth i).run.run r = some (.ok exports, r') →
      ∃ visits, Visits inputs e steps modules above finished [m.specifier] r r' visits ∧
        r'.Sees i exports)
    (htargets : List.Forall₂ (fun dependency target =>
      (modules.toList.map LoadedModule.specifier)[dependency.2]? = some target)
      dependencies targets)
    (hmarked : Marked modules r above finished)
    (hrun : (evaluateAll e steps modules depth dependencies).run.run r = some (.ok imports, r')) :
    ∃ visits, Visits inputs e steps modules above finished targets r r' visits ∧
      List.Forall₂ (fun dependency seen => seen.1 = dependency.1 ∧ r'.Sees dependency.2 seen.2)
        dependencies imports := by
  induction htargets generalizing imports finished r with
  | nil =>
    obtain ⟨himports, rfl⟩ := Prod.mk.inj (Option.some.inj hrun)
    obtain rfl := Except.ok.inj himports
    exact ⟨[], .nil hmarked, .nil⟩
  | @cons dependency target _ _ hplace _ ih =>
    unfold evaluateAll at hrun
    rw [List.mapM_cons] at hrun
    obtain ⟨first, r₁, hfirst, hrun⟩ := run_bind_eq_ok hrun
    obtain ⟨rest, r₂, hrest, hrun⟩ := run_bind_eq_ok hrun
    obtain ⟨himports, rfl⟩ := Prod.mk.inj (Option.some.inj hrun)
    obtain rfl := Except.ok.inj himports
    obtain ⟨exports, r₁', hexports, hfirst⟩ := run_bind_eq_ok hfirst
    obtain ⟨hseen, rfl⟩ := Prod.mk.inj (Option.some.inj hfirst)
    obtain rfl := Except.ok.inj hseen
    obtain ⟨m, hm, rfl⟩ := exists_module hplace
    obtain ⟨visits, hvisits, hsees⟩ := hevaluate hm hmarked hexports
    obtain ⟨visits', hvisits', hrest⟩ := ih hvisits.marked hrest
    have hfirst := hsees.keeps hvisits'.keeps
    exact ⟨visits ++ visits', hvisits.append hvisits', .cons ⟨rfl, hfirst⟩ hrest⟩

/-- When a module has been performed it is evaluated, and no other module got further. -/
theorem Performs.stateAt {imports : List (String × Value)} {exports : Value}
    (h : Performs e steps m imports exports r r') (hi : i < r.states.size) (j : Nat) :
    (r'.marks i (.evaluated exports)).stateAt j =
      if j = i then .evaluated exports else r.stateAt j := by
  rw [stateAt_marks r' (h.states ▸ hi), Run.stateAt, h.states, ← Run.stateAt]

/-- The namespaces after a module has been performed are those before, and its own. -/
theorem Exports.of_performs {imports : List (String × Value)} {exports : Value}
    {namespaces : String → Value}
    (h : Exports modules (r'.marks i (.evaluated exports)) namespaces)
    (hperforms : Performs e steps m imports exports r r') (hi : i < r.states.size)
    (hm : modules[i]? = some m) (hstate : r.stateAt i = .evaluating) :
    Exports modules r namespaces ∧ namespaces m.specifier = exports := by
  refine ⟨fun {j m' value} hm' hvalue => h hm' ?_, h hm ?_⟩
  · have hj : j ≠ i := fun heq => by
      subst heq
      cases hstate.symm.trans hvalue
    rw [hperforms.stateAt hi, if_neg hj, hvalue]
  · rw [hperforms.stateAt hi, if_pos rfl]

/-- A module is evaluated after what it requests. -/
theorem Visits.performed {imports : List (String × Value)} {exports : Value} {r₁ r₂ : Run}
    {below : List (Visit String)} (hloaded : inputs.Loaded modules) (hm : modules[i]? = some m)
    (hmarked : Marked modules r above finished) (hstate : r.stateAt i = .unevaluated)
    (hbelow : Visits inputs e steps modules (m.specifier :: above) finished
      (inputs.targets m.specifier) (r.marks i .evaluating) r₁ below)
    (hsees : List.Forall₂ (fun dependency seen =>
      seen.1 = dependency.1 ∧ r₁.Sees dependency.2 seen.2) m.dependencies imports)
    (hperforms : Performs e steps m imports exports r₁ r₂) :
    Visits inputs e steps modules above finished [m.specifier] r (r₂.marks i (.evaluated exports))
        (below ++ [⟨m.specifier, above, finished ++ below.map Visit.node⟩]) ∧
      (r₂.marks i (.evaluated exports)).stateAt i = .evaluated exports := by
  obtain ⟨source, hsource, hcode, hdenotes⟩ :=
    hloaded.describes m (Array.mem_toList_iff.mpr (Array.mem_of_getElem? hm))
  obtain ⟨habove, hfinished⟩ := hmarked.not_mem_of_unevaluated hm hstate
  have hi : i < modules.size := (Array.getElem?_eq_some_iff.mp hm).1
  have hi₁ : i < r₁.states.size := hbelow.marked.size ▸ hi
  have hnow : r₁.stateAt i = .evaluating := (hbelow.marked.evaluating hm).mpr List.mem_cons_self
  refine ⟨⟨.visit habove hfinished hbelow.order .nil, ?_, fun j hj => ?_, ?_,
    fun namespaces h => ?_, fun namespaces h visit hvisit => ?_⟩, ?_⟩
  · simpa using (hbelow.marked.of_states hperforms.states).leave hm hloaded habove exports
  · have hne : j ≠ i := fun heq => hj (heq ▸ hstate)
    have hbefore : (r.marks i .evaluating).stateAt j = r.stateAt j := by
      rw [stateAt_marks r (hmarked.size ▸ hi), if_neg hne]
    rw [hperforms.stateAt hi₁, if_neg hne, hbelow.keeps j (hbefore ▸ hj), hbefore]
  · exact hbelow.progresses.trans hperforms.progresses
  · obtain ⟨hearlier, -⟩ := h.of_performs hperforms hi₁ hm hnow
    have hbodies : r₁.world.bodies = r.world.bodies ++ _ := hbelow.bodies namespaces hearlier
    show r₂.world.bodies = _
    rw [hperforms.bodies, hbodies, imports_eq hbelow.marked hearlier hsource hdenotes hsees]
    simp
  · obtain ⟨hearlier, hexports⟩ := h.of_performs hperforms hi₁ hm hnow
    obtain hvisit | hvisit := List.mem_append.mp hvisit
    · obtain ⟨source', hsource', hanswers⟩ := hbelow.answers namespaces hearlier visit hvisit
      exact ⟨source', hsource', hanswers.progresses hperforms.progresses⟩
    · obtain rfl := List.mem_singleton.mp hvisit
      refine ⟨source, hsource, ?_⟩
      rw [hexports, ← imports_eq hbelow.marked hearlier hsource hdenotes hsees, ← hcode]
      exact hperforms.answers
  · rw [hperforms.stateAt hi₁, if_pos rfl]

/-- A module is evaluated with what it requests, in post-order. -/
theorem evaluate_spec (hloaded : inputs.Loaded modules) {depth : Nat} {exports : Value}
    (hm : modules[i]? = some m) (hmarked : Marked modules r above finished)
    (hrun : (evaluate e steps modules depth i).run.run r = some (.ok exports, r')) :
    ∃ visits, Visits inputs e steps modules above finished [m.specifier] r r' visits ∧
      r'.Sees i exports := by
  induction depth generalizing i m above finished r exports r' with
  | zero => cases hrun
  | succ depth ih =>
    cases evaluate_cases hrun with
    | evaluated state =>
      exact ⟨[], .passed hmarked (.inr ((hmarked.evaluated hm).mp ⟨_, state⟩)), .inl state⟩
    | evaluating state =>
      exact ⟨[], .passed hmarked (.inl ((hmarked.evaluating hm).mp state)), .inr ⟨state, rfl⟩⟩
    | missing none => cases hm.symm.trans none
    | @performed m' imports exports r₁ r₂ state module before performs =>
      obtain rfl := Option.some.inj (hm.symm.trans module)
      have hdescribes := hloaded.describes m (Array.mem_toList_iff.mpr (Array.mem_of_getElem? hm))
      obtain ⟨below, hbelow, hsees⟩ :=
        evaluateAll_spec ih hdescribes.targets (hmarked.enter hm hloaded state) before
      obtain ⟨hvisits, hstate⟩ :=
        Visits.performed hloaded hm hmarked state hbelow hsees performs
      exact ⟨_, hvisits, .inl hstate⟩

/-- Before a run evaluates its modules none of them is marked. -/
theorem marked_of_replicate (h : r.states = .replicate modules.size .unevaluated) :
    Marked modules r [] [] := by
  have hstate (i : Nat) : r.stateAt i = .unevaluated := by
    rw [stateAt, h, Array.getD_eq_getD_getElem?, Array.getElem?_replicate]
    split <;> rfl
  exact ⟨by simp [h], by simp [hstate], by simp [hstate]⟩

/-- Each module that was evaluated has one namespace. -/
theorem exists_exports (hloaded : inputs.Loaded modules) (r : Run) :
    ∃ exports, Exports modules r exports := by
  have hexists (s : String) : ∃ exported, ∀ {i m value}, modules[i]? = some m → m.specifier = s →
      r.stateAt i = .evaluated value → exported = value := by
    by_cases hs : ∃ i m value, modules[i]? = some m ∧ m.specifier = s ∧
        r.stateAt i = .evaluated value
    · obtain ⟨i, m, value, hm, rfl, hvalue⟩ := hs
      refine ⟨value, fun {j m' value'} hm' hsame hvalue' => ?_⟩
      obtain rfl := hloaded.unique hm' hm hsame
      exact ModuleState.evaluated.inj (hvalue.symm.trans hvalue')
    · exact ⟨.undefined, fun hm hsame hvalue => absurd ⟨_, _, _, hm, hsame, hvalue⟩ hs⟩
  choose exports hexports using hexists
  exact ⟨exports, fun hm hvalue => hexports _ hm rfl hvalue⟩

end Run

/-- The modules that are reached from the entry were evaluated, in the order of the
visits of a walk over their requests. -/
structure Run.InPostOrder (inputs : Inputs) (e : Embedding) (steps : Nat) (r r' : Run)
    (visits : List (Visit String)) (namespaces : String → Value) : Prop where
  order : PostOrder inputs.targets [] [] [inputs.entry] visits
  /-- Each module that is reached was visited once. -/
  nodup : (visits.map Visit.node).Nodup
  mem_iff : ∀ s, s ∈ visits.map Visit.node ↔ inputs.Reaches s
  /-- The bodies that were started are those of the visits. -/
  bodies : r'.world.bodies = r.world.bodies ++
    visits.map fun visit => (visit.node, inputs.imports namespaces visit)
  /-- The namespace of a module is what its body answered, settled. -/
  answers : ∀ visit ∈ visits, ∃ source, inputs.contents visit.node = .ok source ∧
    Run.Answers e steps visit.node source.code (inputs.imports namespaces visit)
      (namespaces visit.node) r'.world.realm
  /-- What was finished at a visit are the modules that were visited before it. -/
  listed : Visit.Listed [] visits
  /-- What a visit is below of are its importers, one requested by the next, up to the
  entry. -/
  chain : ∀ visit ∈ visits, List.IsChain
    (fun target importer => target ∈ inputs.targets importer) (visit.node :: visit.above)
  /-- What a module requests was finished, or waits for the module, never both. -/
  apart : ∀ visit ∈ visits, ∀ target ∈ inputs.targets visit.node,
    (target ∈ visit.finished ↔ target ∉ visit.node :: visit.above)

/-- A run whose loader has loaded the entry has modules none of which is marked. -/
theorem Run.run_load {inputs : Inputs} {steps entry : Nat} {l : Loader}
    (h : (Loader.load inputs steps inputs.entry).run.run {} = some (.ok entry, l)) (r : Run) :
    (Run.load inputs steps).run.run r = some (.ok (entry, l.modules),
      { r with states := .replicate l.modules.size .unevaluated }) := by
  show Option.bind _ _ = _
  rw [h]
  rfl

/-- Modules that can be loaded are, and the embedding is asked once for each that is
reached. If the evaluation of the entry then succeeds, the bodies of all of them were
started once, in post-order. The body of a module sees the namespace of each module
that it requests and whose body ran before, and `undefined` for each that it requests
and that waits for it: the module itself, or one along requests up to the entry. -/
theorem Inputs.Loadable.inPostOrder_of_evaluate {inputs : Inputs} (h : inputs.Loadable) :
    ∃ least entry l,
      (∀ steps ≥ least,
        (Loader.load inputs steps inputs.entry).run.run {} = some (.ok entry, l) ∧
        ∀ r, (Run.load inputs steps).run.run r = some (.ok (entry, l.modules),
          { r with states := .replicate l.modules.size .unevaluated })) ∧
      l.asked.toList.Nodup ∧ (∀ s, s ∈ l.asked.toList ↔ inputs.Reaches s) ∧
      ∀ {e steps depth r exports r'}, r.states = .replicate l.modules.size .unevaluated →
        (Run.evaluate e steps l.modules depth entry).run.run r = some (.ok exports, r') →
        ∃ visits namespaces, Run.InPostOrder inputs e steps r r' visits namespaces ∧
          exports = namespaces inputs.entry := by
  obtain ⟨least, entry, l, hload, hentry, hloaded, hnodup, hasked⟩ := h.exists_load
  have hloads : ∀ steps ≥ least, _ ∧ _ := fun steps hsteps =>
    ⟨hload steps hsteps, Run.run_load (hload steps hsteps)⟩
  refine ⟨least, entry, l, hloads, hnodup, hasked,
    fun {e steps depth r exports r'} hstates hrun => ?_⟩
  obtain ⟨m, hm, hname⟩ := exists_module hentry
  obtain ⟨namespaces, hnamespaces⟩ := Run.exists_exports hloaded r'
  obtain ⟨visits, hvisits, hsees⟩ :=
    Run.evaluate_spec hloaded hm (Run.marked_of_replicate hstates) hrun
  have hexports : namespaces inputs.entry = exports := by
    obtain hstate | ⟨hstate, -⟩ := hsees
    · rw [← hname, hnamespaces hm hstate]
    · have hwaits := (hvisits.marked.evaluating hm).mp hstate
      cases hwaits
  rw [hname] at hvisits
  have hfresh : Fresh ([] : List String) [] := ⟨List.nodup_nil, by simp⟩
  have horder := hvisits.order
  refine ⟨visits, namespaces, ?_, hexports.symm⟩
  exact {
    order := horder
    nodup := by simpa using (horder.fresh hfresh).nodup
    mem_iff := fun _ => horder.mem_iff_reachable
    bodies := hvisits.bodies namespaces hnamespaces
    answers := hvisits.answers namespaces hnamespaces
    listed := horder.listed
    chain := horder.chain (by simp)
    apart := fun visit hvisit target htarget =>
      ⟨fun hfinished hwaits => horder.apart hfresh visit hvisit target hwaits hfinished,
        (horder.seen visit hvisit target htarget).resolve_right⟩ }

/-- An entry that requests another module and itself, and is requested by the other. -/
def Inputs.cyclic : Inputs where
  entry := "main"
  contents s :=
    if s = "main" then .ok { requests := ["other", "main"], code := 0 }
    else if s = "other" then .ok { requests := ["main"], code := 1 }
    else .error (.message "missing")
  resolve target _ := .ok target

theorem Inputs.loadable_cyclic : cyclic.Loadable := by
  have hreached : ∀ s, cyclic.Reaches s → s ∈ ["main", "other"] := by
    intro s hs
    induction hs with
    | refl => decide
    | tail _ htarget ih =>
      obtain rfl | rfl := by simpa using ih
      · have htargets : cyclic.targets "main" = ["other", "main"] := by decide
        rw [htargets] at htarget
        simpa [or_comm] using htarget
      · have htargets : cyclic.targets "other" = ["main"] := by decide
        rw [htargets] at htarget
        simp_all
  refine ⟨(List.finite_toSet ["main", "other"]).subset hreached, fun s hs => ?_,
    fun _ _ _ _ request _ => ⟨request, rfl⟩⟩
  obtain rfl | rfl := by simpa using hreached s hs
  · exact ⟨_, rfl⟩
  · exact ⟨_, rfl⟩

/-- Code that answers whether it is that of the entry. -/
def Run.naming : Embedding where
  code number _ := pure (.bool (number == 0))
  host _ _ _ := pure .undefined
  analyzer _ _ _ _ := []

/-- A run that has loaded two modules. -/
def Run.loaded : Run where
  world := { realm := {} }
  states := .replicate 2 .unevaluated

def Inputs.cyclicModules : Array LoadedModule :=
  #[⟨"main", 0, [("other", 1), ("main", 0)]⟩, ⟨"other", 1, [("main", 0)]⟩]

/-- The other module is evaluated first, and does not see the entry. -/
theorem Inputs.inPostOrder_of_evaluate_cyclic :
    ∃ exports r' visits namespaces,
      (Run.evaluate Run.naming 4 cyclicModules 3 0).run.run Run.loaded = some (.ok exports, r') ∧
      Run.InPostOrder cyclic Run.naming 4 Run.loaded r' visits namespaces ∧
      visits.map (fun visit => (visit.node, cyclic.imports namespaces visit)) =
        [("other", [("main", .undefined)]),
          ("main", [("other", .bool false), ("main", .undefined)])] := by
  obtain ⟨least, entry, l, hload, -, -, hevaluates⟩ := loadable_cyclic.inPostOrder_of_evaluate
  have hfound : ((Loader.load cyclic 4 "main").run.run {}).map (fun loaded =>
      (loaded.1.toOption, loaded.2.modules)) = some (some 0, cyclicModules) := by
    decide +kernel
  obtain ⟨⟨outcome, l'⟩, hrun, hresult⟩ := Option.map_eq_some_iff.mp hfound
  obtain ⟨houtcome, hmodules⟩ := Prod.mk.inj hresult
  cases outcome with
  | error failure => cases houtcome
  | ok i =>
    obtain rfl := Option.some.inj houtcome
    -- the same is loaded in more steps
    have hmore := Loader.covers_load_of_le (le_max_right least 4) _ _ _ hrun
    obtain ⟨hentry, rfl⟩ := Prod.mk.inj (Option.some.inj
      ((hload (max least 4) (le_max_left _ _)).1.symm.trans hmore))
    obtain rfl := Except.ok.inj hentry
    have hfacts : ((Run.evaluate Run.naming 4 cyclicModules 3 0).run.run Run.loaded).map
        (fun evaluated => (evaluated.1.isOk, evaluated.2.world.bodies)) =
        some (true, [("other", [("main", .undefined)]),
          ("main", [("other", .bool false), ("main", .undefined)])]) := by
      decide +kernel
    obtain ⟨⟨outcome, r'⟩, hevaluated, hresult⟩ := Option.map_eq_some_iff.mp hfacts
    obtain ⟨hok, hbodies⟩ := Prod.mk.inj hresult
    cases outcome with
    | error failure => cases hok
    | ok exports =>
      obtain ⟨visits, namespaces, hvisits, -⟩ :=
        hevaluates (r := Run.loaded) (by rw [hmodules]; rfl) (hmodules ▸ hevaluated)
      exact ⟨exports, r', visits, namespaces, hevaluated, hvisits,
        hvisits.bodies.symm.trans hbodies⟩

end Retention
