import Mathlib.Data.Finset.Card
import Mathlib.Data.Set.Finite.Basic
import Retention.Module.Loader
import Retention.Proofs.Walking

/-!
# Loading

Modules that are reached from the entry, if they are finitely many and all of them
load and resolve, are loaded, and the embedding is asked for each of them once. A
module is registered before its requests are followed, so the modules that are not
registered become fewer from one request to the next below it.

* `Inputs.Loadable`: the modules that are reached can be loaded.
* `Inputs.Loadable.load_spec`: what a module that is loaded adds.
* `Inputs.Loadable.exists_load`: the entry is loaded.
-/

namespace Retention

open Relation

namespace Inputs

variable {inputs : Inputs} {specifiers : List String}

/-- The specifiers that the requests of a module denote, in source order. -/
def targets (inputs : Inputs) (specifier : String) : List String :=
  match inputs.contents specifier with
  | .ok source =>
    source.requests.filterMap fun request => (inputs.resolve request specifier).toOption
  | .error _ => []

/-- A specifier is reached from the entry along requests. -/
def Reaches (inputs : Inputs) (specifier : String) : Prop :=
  ReflTransGen (fun importer target => target ∈ inputs.targets importer) inputs.entry specifier

/-- Finitely many specifiers are reached from the entry, and all of them load and
resolve. -/
structure Loadable (inputs : Inputs) : Prop where
  finite : {specifier | inputs.Reaches specifier}.Finite
  loads : ∀ specifier, inputs.Reaches specifier →
    ∃ source, inputs.contents specifier = .ok source
  resolves : ∀ specifier source, inputs.Reaches specifier →
    inputs.contents specifier = .ok source →
      ∀ request ∈ source.requests, ∃ target, inputs.resolve request specifier = .ok target

/-- A dependency leads a request of an importer to the place of what it denotes. -/
def Denotes (inputs : Inputs) (specifiers : List String) (importer request : String)
    (dependency : String × Nat) : Prop :=
  dependency.1 = request ∧
    ∃ target, inputs.resolve request importer = .ok target ∧
      specifiers[dependency.2]? = some target

/-- A module has the code of what is loaded under its specifier, and a dependency for
each request. -/
def Describes (inputs : Inputs) (specifiers : List String) (m : LoadedModule) : Prop :=
  ∃ source, inputs.contents m.specifier = .ok source ∧ m.code = source.code ∧
    List.Forall₂ (inputs.Denotes specifiers m.specifier) source.requests m.dependencies

theorem Denotes.mono {more : List String} {importer request : String} {dependency : String × Nat}
    (h : inputs.Denotes specifiers importer request dependency) :
    inputs.Denotes (specifiers ++ more) importer request dependency := by
  obtain ⟨hrequest, target, hresolve, hplace⟩ := h
  refine ⟨hrequest, target, hresolve, ?_⟩
  obtain ⟨hlt, -⟩ := List.getElem?_eq_some_iff.mp hplace
  rwa [List.getElem?_append_left hlt]

theorem Describes.mono {more : List String} {m : LoadedModule}
    (h : inputs.Describes specifiers m) : inputs.Describes (specifiers ++ more) m :=
  have ⟨source, hsource, hcode, hdependencies⟩ := h
  ⟨source, hsource, hcode, hdependencies.imp fun _ _ => .mono⟩

theorem mem_targets {specifier request target : String} {source : ModuleSource}
    (hsource : inputs.contents specifier = .ok source) (hrequest : request ∈ source.requests)
    (hresolve : inputs.resolve request specifier = .ok target) :
    target ∈ inputs.targets specifier := by
  unfold targets
  rw [hsource]
  exact List.mem_filterMap.mpr ⟨request, hrequest, by rw [hresolve]; rfl⟩

/-- The targets of a module are what its dependencies lead to. -/
theorem Describes.targets {m : LoadedModule} (h : inputs.Describes specifiers m) :
    List.Forall₂ (fun dependency target => specifiers[dependency.2]? = some target)
      m.dependencies (inputs.targets m.specifier) := by
  obtain ⟨source, hsource, -, hdependencies⟩ := h
  unfold Inputs.targets
  simp only [hsource]
  generalize m.dependencies = dependencies, source.requests = requests at hdependencies ⊢
  induction hdependencies with
  | nil => exact .nil
  | cons hdenotes _ ih =>
    obtain ⟨-, target, hresolve, hplace⟩ := hdenotes
    simp only [List.filterMap_cons, hresolve]
    exact .cons hplace ih

/-- Each target of a module is what a dependency leads to. -/
theorem Describes.exists_dependency {m : LoadedModule} (h : inputs.Describes specifiers m)
    {target : String} (htarget : target ∈ inputs.targets m.specifier) :
    ∃ dependency ∈ m.dependencies, specifiers[dependency.2]? = some target := by
  have htargets := h.targets
  generalize m.dependencies = dependencies, inputs.targets m.specifier = targets
    at htargets htarget
  induction htargets with
  | nil => cases htarget
  | @cons dependency _ _ _ hplace _ ih =>
    cases List.mem_cons.mp htarget with
    | inl heq => exact ⟨dependency, List.mem_cons_self, heq ▸ hplace⟩
    | inr hrest =>
      obtain ⟨later, hlater, hplace'⟩ := ih hrest
      exact ⟨later, List.mem_cons_of_mem _ hlater, hplace'⟩

end Inputs

namespace Loader

variable {inputs : Inputs} {steps i : Nat} {l l' : Loader} {s : String}

/-- The specifiers of the modules, in order. -/
def specifiers (l : Loader) : List String := l.modules.toList.map LoadedModule.specifier

/-! ## Operations -/

theorem getElem?_specifiers_of_place? (h : l.place? s = some i) : l.specifiers[i]? = some s := by
  obtain ⟨hlt, hname, -⟩ := Array.findIdx?_eq_some_iff_getElem.mp h
  simpa [specifiers, hlt] using hname

theorem not_mem_specifiers_of_place? (h : l.place? s = none) : s ∉ l.specifiers := by
  intro hmem
  obtain ⟨m, hm, rfl⟩ := List.mem_map.mp hmem
  have hne := Array.findIdx?_eq_none_iff.mp h m (Array.mem_toList_iff.mp hm)
  exact absurd hne (by simp)

/-- A module is registered, without dependencies. -/
def registers (l : Loader) (specifier : String) (code : Nat) : Loader where
  modules := l.modules.push { specifier, code }
  asked := l.asked.push specifier

/-- A request of a module is followed. -/
def follow (inputs : Inputs) (steps : Nat) (importer : String) (i : Nat) (request : String) :
    LoadM Unit := do
  let resolved ← match inputs.resolve request importer with
    | .ok resolved => pure resolved
    | .error cause => throw (.moduleResolution request importer cause)
  depend i request (← load inputs steps resolved)

theorem run_load_of_place? (h : l.place? s = some i) :
    (load inputs (steps + 1) s).run.run l = some (.ok i, l) := by
  have hget : (getThe Loader : LoadM Loader).run.run l = some (.ok l, l) := rfl
  unfold load
  rw [run_bind_of_ok hget]
  simp only [h]
  rfl

theorem run_load_of_error {cause : HostFailure} (h : l.place? s = none)
    (herror : inputs.contents s = .error cause) :
    (load inputs (steps + 1) s).run.run l =
      some (.error (.moduleLoad s cause), { l with asked := l.asked.push s }) := by
  have hget : (getThe Loader : LoadM Loader).run.run l = some (.ok l, l) := rfl
  have hask : (ask inputs s).run.run l =
      some (.error (.moduleLoad s cause), { l with asked := l.asked.push s }) := by
    unfold ask
    simp only [herror]
    rfl
  unfold load
  rw [run_bind_of_ok hget]
  simp only [h]
  exact run_bind_eq_some_iff.mpr (.inl ⟨_, hask, rfl⟩)

theorem run_load_of_contents {source : ModuleSource} (h : l.place? s = none)
    (hsource : inputs.contents s = .ok source) :
    (load inputs (steps + 1) s).run.run l =
      (do
        source.requests.forM (follow inputs steps s l.modules.size)
        return l.modules.size : LoadM Nat).run.run (l.registers s source.code) := by
  have hget : (getThe Loader : LoadM Loader).run.run l = some (.ok l, l) := rfl
  have hask : (ask inputs s).run.run l =
      some (.ok source, { l with asked := l.asked.push s }) := by
    unfold ask
    simp only [hsource]
    rfl
  unfold load
  rw [run_bind_of_ok hget]
  simp only [h]
  rw [run_bind_of_ok hask]
  rfl

theorem run_follow {importer request target : String}
    (h : inputs.resolve request importer = .ok target) :
    (follow inputs steps importer i request).run.run l =
      (do depend i request (← load inputs steps target) : LoadM Unit).run.run l := by
  unfold follow
  simp only [h]
  rfl

/-- More steps change nothing once a module is loaded. -/
theorem covers_load (inputs : Inputs) (steps : Nat) (s : String) :
    Covers (load inputs steps s) (load inputs (steps + 1) s) := by
  induction steps generalizing s with
  | zero => exact fun _ _ hrun => nomatch hrun
  | succ steps ih =>
    intro l result hrun
    cases hplace : l.place? s with
    | some i => rwa [run_load_of_place? hplace] at hrun ⊢
    | none =>
      cases hsource : inputs.contents s with
      | error cause => rwa [run_load_of_error hplace hsource] at hrun ⊢
      | ok source =>
        have hfollow (request : String) : Covers (follow inputs steps s l.modules.size request)
            (follow inputs (steps + 1) s l.modules.size request) := by
          have hrest (resolved : String) := (ih resolved).bind fun j =>
            .refl (depend l.modules.size request j)
          unfold follow
          cases inputs.resolve request s with
          | ok resolved => exact .bind (.refl _) hrest
          | error cause => exact .bind (.refl _) hrest
        rw [run_load_of_contents hplace hsource] at hrun ⊢
        exact (Covers.forM hfollow source.requests).bind (fun _ => .refl _) _ _ hrun

theorem covers_load_of_le {steps' : Nat} (hsteps : steps ≤ steps') (s : String) :
    Covers (load inputs steps s) (load inputs steps' s) := by
  induction hsteps with
  | refl => exact .refl _
  | step _ ih => exact ih.trans (covers_load inputs _ s)

/-- A dependency is added to a module. -/
def depends (l : Loader) (i : Nat) (request : String) (dependency : Nat) : Loader :=
  { l with modules := l.modules.modify i fun m =>
      { m with dependencies := m.dependencies ++ [(request, dependency)] } }

theorem run_depend (l : Loader) (i : Nat) (request : String) (dependency : Nat) :
    (depend i request dependency).run.run l = some (.ok (), l.depends i request dependency) := rfl

/-! ## What is loaded -/

/-- Modules are registered under specifiers that differ and are reached, and the
embedding was asked for each of them. -/
structure Tidy (inputs : Inputs) (l : Loader) : Prop where
  asked : l.asked.toList = l.specifiers
  nodup : l.specifiers.Nodup
  reaches : ∀ s ∈ l.specifiers, inputs.Reaches s

/-- Whole modules are added to those that are there. -/
def Grows (inputs : Inputs) (l l' : Loader) : Prop :=
  ∃ new, l'.modules.toList = l.modules.toList ++ new ∧
    ∀ m ∈ new, inputs.Describes l'.specifiers m

/-- A module has dependencies for some of its requests, and the modules that were
added after it are whole. -/
def Opens (inputs : Inputs) (before : List LoadedModule) (specifier : String) (code : Nat)
    (done : List String) (l : Loader) : Prop :=
  ∃ dependencies new, l.modules.toList = before ++ ⟨specifier, code, dependencies⟩ :: new ∧
    List.Forall₂ (inputs.Denotes l.specifiers specifier) done dependencies ∧
    ∀ m ∈ new, inputs.Describes l.specifiers m

theorem specifiers_registers (l : Loader) (specifier : String) (code : Nat) :
    (l.registers specifier code).specifiers = l.specifiers ++ [specifier] := by
  simp [specifiers, registers]

theorem Grows.specifiers (h : l.Grows inputs l') :
    ∃ more, l'.specifiers = l.specifiers ++ more := by
  obtain ⟨new, hnew, -⟩ := h
  exact ⟨new.map LoadedModule.specifier, by simp [Loader.specifiers, hnew]⟩

theorem Tidy.registers (h : l.Tidy inputs) (hs : s ∉ l.specifiers) (hreaches : inputs.Reaches s)
    (code : Nat) : (l.registers s code).Tidy inputs := by
  have hspecifiers := specifiers_registers l s code
  refine ⟨?_, ?_, ?_⟩
  · rw [hspecifiers, ← h.asked]
    exact Sequence.toList_push ..
  · rw [hspecifiers]
    refine List.nodup_append.mpr ⟨h.nodup, List.pairwise_singleton _ s, ?_⟩
    intro x hx y hy hxy
    obtain rfl : y = s := List.mem_singleton.mp hy
    exact hs (hxy ▸ hx)
  · rw [hspecifiers]
    intro x hx
    obtain hx | hx := List.mem_append.mp hx
    · exact h.reaches x hx
    · exact List.mem_singleton.mp hx ▸ hreaches

theorem opens_registers (l : Loader) (s : String) (code : Nat) :
    (l.registers s code).Opens inputs l.modules.toList s code [] :=
  ⟨[], [], Array.toList_push, .nil, by simp⟩

/-- A module that was left open stays as it is while others are added. -/
theorem Opens.grows {before : List LoadedModule} {code : Nat} {done : List String}
    (h : l.Opens inputs before s code done) (hgrows : l.Grows inputs l') :
    l'.Opens inputs before s code done := by
  obtain ⟨more, hmore⟩ := hgrows.specifiers
  obtain ⟨dependencies, new, hmodules, hdone, hnew⟩ := h
  obtain ⟨new', hmodules', hnew'⟩ := hgrows
  refine ⟨dependencies, new ++ new', by rw [hmodules', hmodules]; simp, ?_, fun m hm => ?_⟩
  · rw [hmore]
    exact hdone.imp fun _ _ => .mono
  · obtain hm | hm := List.mem_append.mp hm
    · rw [hmore]
      exact (hnew m hm).mono
    · exact hnew' m hm

theorem modify_append {α : Type} (before : List α) (a : α) (after : List α) (f : α → α) :
    (before ++ a :: after).modify before.length f = before ++ f a :: after := by
  induction before with
  | nil => rfl
  | cons first rest ih => exact congrArg (first :: ·) ih

/-- One more dependency of an open module. -/
theorem Opens.depends {before : List LoadedModule} {code j : Nat} {done : List String}
    {request : String} (h : l.Opens inputs before s code done)
    (hdenotes : inputs.Denotes l.specifiers s request (request, j)) :
    (l.depends before.length request j).specifiers = l.specifiers ∧
      (l.depends before.length request j).Opens inputs before s code (done ++ [request]) := by
  obtain ⟨dependencies, new, hmodules, hdone, hnew⟩ := h
  have hmodules' : (l.depends before.length request j).modules.toList =
      before ++ ⟨s, code, dependencies ++ [(request, j)]⟩ :: new := by
    unfold Loader.depends
    rw [Array.toList_modify, hmodules, modify_append]
  have hspecifiers : (l.depends before.length request j).specifiers = l.specifiers := by
    simp [specifiers, hmodules, hmodules']
  refine ⟨hspecifiers, dependencies ++ [(request, j)], new, hmodules', ?_, ?_⟩
  · rw [hspecifiers]
    exact List.rel_append hdone (.cons hdenotes .nil)
  · rwa [hspecifiers]

end Loader

namespace Inputs.Loadable

open Loader

variable {inputs : Inputs} {steps : Nat} {l l' : Loader} {s : String} (h : inputs.Loadable)

/-- The specifiers that are reached but not registered. -/
noncomputable def unplaced (l : Loader) : Finset String :=
  h.finite.toFinset.filter (· ∉ l.specifiers)

theorem mem_unplaced : s ∈ h.unplaced l ↔ inputs.Reaches s ∧ s ∉ l.specifiers := by
  simp [unplaced]

theorem unplaced_subset {more : List String} (hmore : l'.specifiers = l.specifiers ++ more) :
    h.unplaced l' ⊆ h.unplaced l := by
  intro s hs
  rw [mem_unplaced, hmore] at hs
  exact h.mem_unplaced.mpr ⟨hs.1, fun hmem => hs.2 (List.mem_append_left _ hmem)⟩

theorem card_unplaced_registers (hs : s ∉ l.specifiers) (hreaches : inputs.Reaches s)
    (code : Nat) : (h.unplaced (l.registers s code)).card < (h.unplaced l).card := by
  have hspecifiers := specifiers_registers l s code
  refine Finset.card_lt_card ((Finset.ssubset_iff_of_subset (h.unplaced_subset hspecifiers)).mpr
    ⟨s, h.mem_unplaced.mpr ⟨hreaches, hs⟩, fun hmem => ?_⟩)
  rw [mem_unplaced, hspecifiers] at hmem
  exact hmem.2 (List.mem_append_right _ (List.mem_singleton_self s))

/-! ## Loading -/

/-- What the loading of a reached module comes to. -/
def Loads (inputs : Inputs) (m : LoadM Nat) (s : String) (l : Loader) : Prop :=
  ∃ i l', m.run.run l = some (.ok i, l') ∧ l'.Tidy inputs ∧ l.Grows inputs l' ∧
    l'.specifiers[i]? = some s

variable (hload : ∀ {s l}, l.Tidy inputs → inputs.Reaches s → (h.unplaced l).card < steps →
    Loads inputs (load inputs steps s) s l)

include hload

/-- A request of an open module is followed. -/
theorem follow_spec {source : ModuleSource} {before : List LoadedModule} {code : Nat}
    {done : List String} {request : String} (hreaches : inputs.Reaches s)
    (hsource : inputs.contents s = .ok source) (hrequest : request ∈ source.requests)
    (htidy : l.Tidy inputs) (hopens : l.Opens inputs before s code done)
    (hsteps : (h.unplaced l).card < steps) :
    ∃ l', (follow inputs steps s before.length request).run.run l = some (.ok (), l') ∧
      l'.Tidy inputs ∧ l'.Opens inputs before s code (done ++ [request]) ∧
      ∃ more, l'.specifiers = l.specifiers ++ more := by
  obtain ⟨target, hresolve⟩ := h.resolves s source hreaches hsource request hrequest
  have htarget : inputs.Reaches target :=
    hreaches.tail (mem_targets hsource hrequest hresolve)
  obtain ⟨j, l₁, hrun, htidy₁, hgrows, hplace⟩ := hload htidy htarget hsteps
  obtain ⟨hspecifiers, hopens'⟩ :=
    (hopens.grows hgrows).depends (j := j) ⟨rfl, target, hresolve, hplace⟩
  refine ⟨l₁.depends before.length request j, ?_, ?_, hopens', ?_⟩
  · rw [run_follow hresolve, run_bind_of_ok hrun, run_depend]
  · exact ⟨htidy₁.asked.trans hspecifiers.symm, hspecifiers ▸ htidy₁.nodup,
      hspecifiers ▸ htidy₁.reaches⟩
  · rw [hspecifiers]
    exact hgrows.specifiers

/-- The requests of an open module are followed, one after the other. -/
theorem forM_follow_spec {source : ModuleSource} {before : List LoadedModule} {code : Nat}
    {done todo : List String} (hreaches : inputs.Reaches s)
    (hsource : inputs.contents s = .ok source) (htodo : ∀ request ∈ todo, request ∈ source.requests)
    (htidy : l.Tidy inputs) (hopens : l.Opens inputs before s code done)
    (hsteps : (h.unplaced l).card < steps) :
    ∃ l', (todo.forM (follow inputs steps s before.length)).run.run l = some (.ok (), l') ∧
      l'.Tidy inputs ∧ l'.Opens inputs before s code (done ++ todo) := by
  induction todo generalizing done l with
  | nil => exact ⟨l, rfl, htidy, by simpa using hopens⟩
  | cons request rest ih =>
    obtain ⟨hrequest, hrest⟩ := List.forall_mem_cons.mp htodo
    obtain ⟨l₁, hrun, htidy₁, hopens₁, more, hmore⟩ :=
      h.follow_spec hload hreaches hsource hrequest htidy hopens hsteps
    have hsteps₁ := (Finset.card_le_card (h.unplaced_subset hmore)).trans_lt hsteps
    obtain ⟨l', hrun', htidy', hopens'⟩ := ih hrest htidy₁ hopens₁ hsteps₁
    exact ⟨l', (run_bind_of_ok hrun).trans hrun', htidy', by simpa using hopens'⟩

omit hload in
/-- A module that is reached is loaded with everything it requests, and the modules
that were left open stay as they are. -/
theorem load_spec (htidy : l.Tidy inputs) (hreaches : inputs.Reaches s)
    (hsteps : (h.unplaced l).card < steps) : Loads inputs (load inputs steps s) s l := by
  induction steps generalizing s l with
  | zero => cases hsteps
  | succ steps ih =>
    cases hplace : l.place? s with
    | some i =>
      exact ⟨i, l, run_load_of_place? hplace, htidy, ⟨[], by simp, by simp⟩,
        getElem?_specifiers_of_place? hplace⟩
    | none =>
      obtain ⟨source, hsource⟩ := h.loads s hreaches
      have hnew := not_mem_specifiers_of_place? hplace
      have hsteps' : (h.unplaced (l.registers s source.code)).card < steps := by
        have := h.card_unplaced_registers hnew hreaches source.code
        omega
      obtain ⟨l', hrun, htidy', dependencies, new, hmodules, hdone, hwhole⟩ :=
        h.forM_follow_spec ih hreaches hsource (fun _ => id)
          (htidy.registers hnew hreaches source.code) (opens_registers l s source.code) hsteps'
      refine ⟨l.modules.size, l', ?_, htidy', ⟨_, hmodules, ?_⟩, ?_⟩
      · rw [run_load_of_contents hplace hsource]
        exact run_bind_of_ok hrun
      · exact List.forall_mem_cons.mpr ⟨⟨source, hsource, rfl, hdone⟩, hwhole⟩
      · simp [specifiers, hmodules]

end Inputs.Loadable

/-! ## The entry -/

/-- The modules of a run are those that are reached from the entry, each once and
whole. -/
structure Inputs.Loaded (inputs : Inputs) (modules : Array LoadedModule) : Prop where
  nodup : (modules.toList.map LoadedModule.specifier).Nodup
  mem_iff : ∀ s, s ∈ modules.toList.map LoadedModule.specifier ↔ inputs.Reaches s
  describes : ∀ m ∈ modules.toList,
    inputs.Describes (modules.toList.map LoadedModule.specifier) m

/-- A module has one place. -/
theorem Inputs.Loaded.unique {inputs : Inputs} {modules : Array LoadedModule}
    (h : inputs.Loaded modules) {i j : Nat} {m m' : LoadedModule} (hi : modules[i]? = some m)
    (hj : modules[j]? = some m') (hsame : m.specifier = m'.specifier) : i = j := by
  have hlt : i < (modules.toList.map LoadedModule.specifier).length := by
    simpa using (Array.getElem?_eq_some_iff.mp hi).1
  refine (List.getElem?_inj hlt h.nodup).mp ?_
  simp [hi, hj, hsame]

theorem exists_module {modules : Array LoadedModule} {i : Nat} {s : String}
    (hs : (modules.toList.map LoadedModule.specifier)[i]? = some s) :
    ∃ m, modules[i]? = some m ∧ m.specifier = s := by
  rw [List.getElem?_map, Array.getElem?_toList] at hs
  exact Option.map_eq_some_iff.mp hs

/-- Modules that are whole, from the entry on, are all that are reached. -/
theorem Loader.Tidy.loaded {inputs : Inputs} {l : Loader} (h : l.Tidy inputs)
    (hentry : inputs.entry ∈ l.specifiers)
    (hwhole : ∀ m ∈ l.modules.toList, inputs.Describes l.specifiers m) :
    inputs.Loaded l.modules := by
  refine ⟨h.nodup, fun s => ⟨h.reaches s, fun hs => ?_⟩, hwhole⟩
  induction hs with
  | refl => exact hentry
  | tail _ htarget ih =>
    obtain ⟨m, hm, rfl⟩ := List.mem_map.mp ih
    obtain ⟨dependency, -, hplace⟩ := (hwhole m hm).exists_dependency htarget
    exact List.mem_of_getElem? hplace

/-- The entry is loaded with all that is reached from it, and for each specifier that
is reached the embedding is asked once. -/
theorem Inputs.Loadable.exists_load {inputs : Inputs} (h : inputs.Loadable) :
    ∃ least i l, (∀ steps ≥ least,
        (Loader.load inputs steps inputs.entry).run.run {} = some (.ok i, l)) ∧
      l.specifiers[i]? = some inputs.entry ∧ inputs.Loaded l.modules ∧
      l.asked.toList.Nodup ∧ ∀ s, s ∈ l.asked.toList ↔ inputs.Reaches s := by
  have hempty : Loader.Tidy inputs {} := ⟨rfl, List.nodup_nil, by simp [Loader.specifiers]⟩
  obtain ⟨i, l, hrun, htidy, ⟨new, hnew, hwhole⟩, hplace⟩ :=
    h.load_spec hempty .refl (Nat.lt_succ_self (h.unplaced {}).card)
  have hloaded : inputs.Loaded l.modules :=
    htidy.loaded (List.mem_of_getElem? hplace) (by simpa [hnew] using hwhole)
  refine ⟨_, i, l, fun steps hsteps => Loader.covers_load_of_le hsteps _ _ _ hrun, hplace,
    hloaded, ?_, ?_⟩
  · rw [htidy.asked]
    exact htidy.nodup
  · rw [htidy.asked]
    exact hloaded.mem_iff

end Retention
