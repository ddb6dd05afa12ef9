import Retention.Proofs.Module.Running
import Retention.Proofs.Realm.Outcomes
import Retention.Proofs.Search.Verdict

/-!
# Searches and their publication

A search that guest code calls for either answers a verdict, and its graph is kept
under the name of the search, or fails, and nothing is kept. What is kept is
published in the order of the calls: the results have the graph of a search
exactly if its call answered that the target is reachable.

* `Machine.searchReferences_spec`: what a call for a search comes to.
* `World.Searched`: calls for searches, with anything else in between.
* `World.Searched.records`: what is kept of the calls.
* `World.published_of_searched`: what is published.
-/

namespace Retention

open Relation

variable {ε α β : Type}

theorem exists_of_bind_eq_ok {x : Except ε α} {f : α → Except ε β} {b : β}
    (h : x >>= f = .ok b) : ∃ a, x = .ok a ∧ f a = .ok b := by
  cases x with
  | ok a => exact ⟨a, rfl, h⟩
  | error cause => cases h

namespace SearchResults

variable {records : List SearchRecord}

/-- Under names that differ, each search is found under its own. -/
theorem get?_ofRecords {record : SearchRecord} (hnodup : (records.map SearchRecord.name).Nodup)
    (hmem : record ∈ records) : (ofRecords records).get? record.name = record.published? := by
  induction records with
  | nil => exact absurd hmem List.not_mem_nil
  | cons first rest ih =>
    obtain ⟨hnew, hrest⟩ := List.nodup_cons.mp hnodup
    cases List.mem_cons.mp hmem with
    | inl heq => simp [ofRecords, get?, heq]
    | inr hlater =>
      have hne : first.name ≠ record.name := fun heq =>
        hnew (heq ▸ List.mem_map_of_mem hlater)
      simpa [ofRecords, get?, hne] using ih hrest hlater

/-- A graph is found only if its search reached the target. -/
theorem succeeded_of_get? {name : String} {graph : Graph}
    (h : (ofRecords records).get? name = some graph) : graph.succeeded = true := by
  obtain ⟨entry, hfound, hgraph⟩ := Option.bind_eq_some_iff.mp h
  obtain ⟨record, -, rfl⟩ := List.mem_map.mp (List.mem_of_find?_eq_some hfound)
  unfold SearchRecord.published? at hgraph
  split at hgraph
  · rename_i hsucceeded
    obtain rfl := Option.some.inj hgraph
    exact hsucceeded
  · cases hgraph

end SearchResults

/-- A call for a search, and what it came to. -/
structure SearchAttempt where
  args : List Value
  answer : Except HostFailure Value

namespace SearchAttempt

/-- The name of a search and its verdict, if the call answered one. -/
def verdict? (attempt : SearchAttempt) : Option (String × Bool) :=
  match attempt.args.head?, attempt.answer with
  | some (.string name), .ok (.bool verdict) => some (name, verdict)
  | _, _ => none

/-- The names of the searches whose calls answered a verdict, with the verdicts,
in the order of the calls. -/
def verdicts (attempts : List SearchAttempt) : List (String × Bool) :=
  attempts.filterMap verdict?

/-- What a call does to the searches that wait for publication. -/
inductive Keeps (attempt : SearchAttempt) (w w' : World) : Prop where
  /-- It answers the verdict of a graph, which is kept under the name of the search. -/
  | verdict {name : String} {graph : Graph} (named : attempt.args.head? = some (.string name))
    (new : name ∉ w.realm.searches.toList.map SearchRecord.name)
    (answers : attempt.answer = .ok (.bool graph.succeeded))
    (kept : w'.realm.searches.toList = w.realm.searches.toList ++ [⟨name, graph⟩])
  /-- It fails, and nothing is kept. -/
  | failure {failure : HostFailure} (fails : attempt.answer = .error failure)
    (kept : w'.realm.searches = w.realm.searches)

/-- The results are those of calls: they have the names of the calls that answered
a verdict, in the order of the calls, and the graphs of those that answered true. -/
structure Published (attempts : List SearchAttempt) (results : SearchResults) : Prop where
  names : results.names = (verdicts attempts).map Prod.fst
  nodup : results.names.Nodup
  graphs : ∀ name verdict, (name, verdict) ∈ verdicts attempts →
    (verdict = true ↔ ∃ graph, results.get? name = some graph)
  succeeded : ∀ name graph, results.get? name = some graph → graph.succeeded = true

theorem verdict?_of_verdict {attempt : SearchAttempt} {name : String} {verdict : Bool}
    (hname : attempt.args.head? = some (.string name))
    (hanswer : attempt.answer = .ok (.bool verdict)) : attempt.verdict? = some (name, verdict) := by
  rw [verdict?, hname, hanswer]

theorem verdict?_of_failure {attempt : SearchAttempt} {failure : HostFailure}
    (hanswer : attempt.answer = .error failure) : attempt.verdict? = none := by
  rw [verdict?, hanswer]
  split
  · rename_i herror
    cases herror
  · rfl

end SearchAttempt

namespace Machine

variable {e : Embedding} {w w' : World} {args : List Value}

/-- The arguments of a search start with a name that no other search has. -/
theorem readSearchCall_eq_ok {r : Realm} {c : SearchCall} (h : readSearchCall r args = .ok c) :
    args.head? = some (.string c.name) ∧ c.name ∉ r.searches.toList.map SearchRecord.name := by
  obtain ⟨name, hname, h⟩ := exists_of_bind_eq_ok h
  obtain ⟨target, -, h⟩ := exists_of_bind_eq_ok h
  obtain ⟨held, -, h⟩ := exists_of_bind_eq_ok h
  obtain ⟨strongOnly, -, h⟩ := exists_of_bind_eq_ok h
  have hhead : args.head? = some (.string name) := by
    unfold Argument.string Argument.typed at hname
    split at hname
    · rename_i found hfound
      obtain rfl := Except.ok.inj hname
      cases args with
      | nil => cases hfound
      | cons v rest =>
        cases v with
        | string s => exact congrArg (fun s => some (Value.string s)) (Option.some.inj hfound)
        | _ => cases hfound
    · cases hname
  dsimp only at h
  split at h
  · cases h
  · rename_i hany
    obtain rfl := Except.ok.inj h
    refine ⟨hhead, fun hmem => hany ?_⟩
    obtain ⟨record, hrecord, hname'⟩ := List.mem_map.mp hmem
    rw [← Sequence.any_toList]
    exact List.any_eq_true.mpr ⟨record, hrecord, beq_iff_eq.mpr hname'⟩

/-- Every call for a search comes to an end. -/
theorem exists_searchReferences (e : Embedding) (args : List Value) (w : World) :
    ∃ answer w', (searchReferences e args).run w = some (answer, w') := by
  unfold searchReferences
  rw [StateT.run_bind]
  cases hread : readSearchCall w.realm args with
  | error failure => exact ⟨.error failure, w, by simp [hread]⟩
  | ok c =>
    cases hran : c.run e w with
    | mk found count =>
      have hsearch := run_search hran
      unfold SearchCall.options at hsearch
      cases found with
      | error cause => exact ⟨.error (.abrupt cause), c.noted w count, by simp [hread, hsearch]⟩
      | ok graph => simp [hread, hsearch]

/-- A call for a search either answers the verdict of a graph that is kept under
its name, which no other search had, or fails, and nothing is kept. -/
theorem searchReferences_spec {answer : Except HostFailure Value}
    (hrun : (searchReferences e args).run w = some (answer, w')) :
    SearchAttempt.Keeps ⟨args, answer⟩ w w' := by
  cases searchReferences_cases hrun with
  | refused read => exact .failure rfl rfl
  | failed read ran => exact .failure rfl rfl
  | @found c graph count read ran =>
    obtain ⟨hname, hnew⟩ := readSearchCall_eq_ok read
    exact .verdict hname hnew rfl (Sequence.toList_push ..)

/-- A failure of a host function throws, and keeps what waits for publication. -/
theorem hostFailed_spec {name : String} {failure : HostFailure} {outcome : Except Abrupt Value}
    (hrun : (hostFailed name failure : Machine Value).run.run w = some (outcome, w')) :
    w'.realm.searches = w.realm.searches ∧ ∃ cause, outcome = .error cause := by
  have hthrows : ∀ {message : String},
      (lift (Realm.throwTypeError message) : Machine Value).run.run w = some (outcome, w') →
        w'.realm.searches = w.realm.searches ∧ ∃ cause, outcome = .error cause := by
    intro message hrun
    rw [run_lift] at hrun
    obtain ⟨rfl, rfl⟩ := Prod.mk.inj (Option.some.inj hrun)
    obtain ⟨v, realm, hexec⟩ := Realm.exec_throwTypeError (α := Value) message w.realm
    have hspares := Realm.spares_throwTypeError (α := Value) message w.realm
    exact ⟨hspares.searches, .thrown v, congrArg Prod.fst hexec⟩
  cases failure with
  | abrupt cause =>
    obtain ⟨rfl, rfl⟩ := Prod.mk.inj (Option.some.inj hrun)
    exact ⟨rfl, cause, rfl⟩
  | _ => exact hthrows hrun

/-- Guest code that calls for a search is answered what the search answers; if the
search fails the call throws, and keeps no more than the search does. -/
theorem dispatch_searchReferences {steps id : Nat} {this : Value} {f : HostFunction}
    {outcome : Except Abrupt Value} (hf : w.realm.hostFunctions[id]? = some f)
    (hcode : f.code = .searchReferences)
    (hrun : (dispatch e (steps + 1) id this args).run.run w = some (outcome, w')) :
    ∃ answer w₁, (searchReferences e args).run w = some (answer, w₁) ∧
      w'.realm.searches = w₁.realm.searches ∧
      match answer with
      | .ok value => outcome = .ok value
      | .error _ => ∃ cause, outcome = .error cause := by
  obtain ⟨answer, w₁, hsearch⟩ := exists_searchReferences e args w
  refine ⟨answer, w₁, hsearch, ?_⟩
  unfold dispatch at hrun
  obtain ⟨failure, hget, -⟩ | ⟨_, _, hget, hrun⟩ := run_bind_eq_some_iff.mp hrun
  · cases hget
  obtain ⟨hw, rfl⟩ := Prod.mk.inj (Option.some.inj hget)
  obtain rfl := Except.ok.inj hw
  simp only [hf, hcode] at hrun
  have hlift : (liftM (searchReferences e args) : Machine (Except HostFailure Value)).run.run w =
      some (.ok answer, w₁) := by
    show ((searchReferences e args).run w).bind _ = _
    rw [hsearch]
    rfl
  obtain ⟨failure, hsearch', -⟩ | ⟨_, _, hsearch', hrun⟩ := run_bind_eq_some_iff.mp hrun
  · cases hlift.symm.trans hsearch'
  obtain ⟨hanswer, rfl⟩ := Prod.mk.inj (Option.some.inj (hlift.symm.trans hsearch'))
  obtain rfl := Except.ok.inj hanswer
  cases answer with
  | ok value =>
    obtain ⟨rfl, rfl⟩ := Prod.mk.inj (Option.some.inj hrun)
    exact ⟨rfl, rfl⟩
  | error failure => exact hostFailed_spec hrun

end Machine

namespace World

variable {e : Embedding} {w w' : World} {attempts : List SearchAttempt}

/-- The calls for searches since nothing waited for publication, with anything in
between that leaves alone what waits. -/
inductive Searched (e : Embedding) : List SearchAttempt → World → Prop where
  | nothing {w : World} (none : w.realm.searches.toList = []) : Searched e [] w
  | other {attempts : List SearchAttempt} {w w' : World} (before : Searched e attempts w)
    (same : w'.realm.searches = w.realm.searches) : Searched e attempts w'
  | call {attempts : List SearchAttempt} {w w' : World} {args : List Value}
    {answer : Except HostFailure Value} (before : Searched e attempts w)
    (called : (Machine.searchReferences e args).run w = some (answer, w')) :
    Searched e (attempts ++ [⟨args, answer⟩]) w'

/-- What waits for publication are the searches whose calls answered a verdict, in
the order of the calls, under names that differ. -/
theorem Searched.records (h : Searched e attempts w) :
    w.realm.searches.toList.map (fun record => (record.name, record.graph.succeeded)) =
      SearchAttempt.verdicts attempts ∧
    (w.realm.searches.toList.map SearchRecord.name).Nodup := by
  induction h with
  | nothing none =>
    rw [none]
    exact ⟨rfl, List.nodup_nil⟩
  | other before same ih => rwa [same]
  | @call attempts w w' args answer before called ih =>
    obtain ⟨hverdicts, hnodup⟩ := ih
    rw [SearchAttempt.verdicts, List.filterMap_append, ← SearchAttempt.verdicts, ← hverdicts]
    cases Machine.searchReferences_spec called with
    | @verdict name graph named new answers kept =>
      have hverdict := SearchAttempt.verdict?_of_verdict named answers
      rw [kept, List.map_append, List.map_append]
      refine ⟨by simp [hverdict], List.nodup_append.mpr ⟨hnodup, List.pairwise_singleton _ _, ?_⟩⟩
      intro other hother last hlast heq
      obtain rfl : last = name := List.mem_singleton.mp hlast
      exact new (heq ▸ hother)
    | @failure failure fails kept =>
      have hnone := SearchAttempt.verdict?_of_failure fails
      rw [kept]
      exact ⟨by simp [hnone], hnodup⟩

/-- The results of what is kept are those of the calls. -/
theorem Searched.published (h : Searched e attempts w) :
    SearchAttempt.Published attempts (.ofRecords w.realm.searches.toList) := by
  obtain ⟨hverdicts, hnodup⟩ := h.records
  have hnames := SearchResults.names_ofRecords w.realm.searches.toList
  refine ⟨?_, hnames ▸ hnodup, fun name verdict hmem => ?_, fun name graph hfound =>
    SearchResults.succeeded_of_get? hfound⟩
  · rw [hnames, ← hverdicts, List.map_map]
    rfl
  · rw [← hverdicts] at hmem
    obtain ⟨record, hrecord, heq⟩ := List.mem_map.mp hmem
    obtain ⟨rfl, rfl⟩ := Prod.mk.inj heq
    rw [SearchResults.get?_ofRecords hnodup hrecord, SearchRecord.published?]
    cases record.graph.succeeded <;> simp

/-- Publication leaves nothing that waits. -/
theorem searched_of_finalizeSearches {results : SearchResults} {realm : Realm}
    (h : Realm.exec Realm.finalizeSearches w.realm = (.ok results, realm)) :
    Searched e [] { w with realm } := by
  obtain ⟨-, -, rfl⟩ := Realm.exec_finalizeSearches_eq_ok h
  exact .nothing rfl

/-- What guest code does to what is kept is to call for searches. -/
theorem Step.searched (h : Step e w w') (hw : ∃ attempts, Searched e attempts w) :
    ∃ attempts, Searched e attempts w' := by
  obtain ⟨attempts, hw⟩ := hw
  cases h with
  | works realm history journal dealings => exact ⟨attempts, hw.other realm.searches⟩
  | promises polls outcome => exact ⟨attempts, hw.other rfl⟩
  | drains | reports args | starts next other | receives next | quiesces quiescent =>
    exact ⟨attempts, hw.other rfl⟩
  | publishes finalizes => exact ⟨[], searched_of_finalizeSearches finalizes⟩
  | searches call => exact ⟨_, hw.call call⟩
  | @settles job promise outcome realm next work settled =>
    have hspares := Realm.spares_settleFromHost promise outcome (w.starts job).realm
    rw [settled] at hspares
    exact ⟨attempts, hw.other hspares.searches⟩
  | fails loses cause => exact ⟨attempts, hw.other loses.searches⟩

theorem searched_of_steps (h : ReflTransGen (Step e) w w')
    (hw : ∃ attempts, Searched e attempts w) : ∃ attempts, Searched e attempts w' :=
  keeps_of_steps (P := fun w => ∃ attempts, Searched e attempts w)
    (fun hw hstep => hstep.searched hw) hw h

end World

/-- A run calls for searches through guest code alone. -/
theorem Run.Step.searched {e : Embedding} {r r' : Run} (h : Step e r r')
    (hr : ∃ attempts, World.Searched e attempts r.world) :
    ∃ attempts, World.Searched e attempts r'.world := by
  have hdelivers {w : World} (hw : ∃ attempts, World.Searched e attempts w) :
      ∃ attempts, World.Searched e attempts (delivers { r with world := w }).world := by
    obtain ⟨attempts, hw⟩ := hw
    exact ⟨attempts, hw.other rfl⟩
  cases h with
  | serves serves =>
    cases serves with
    | performs steps => exact hdelivers (World.searched_of_steps steps hr)
    | works spares history =>
      obtain ⟨attempts, hr⟩ := hr
      exact ⟨attempts, hr.other spares.searches⟩
  | evaluates specifier imports steps =>
    obtain ⟨attempts, hr⟩ := hr
    exact hdelivers (World.searched_of_steps steps ⟨attempts, hr.other rfl⟩)
  | publishes finalizes => exact ⟨[], World.searched_of_finalizeSearches finalizes⟩
  | keeps world delivered => rwa [world]

namespace World

variable {e : Embedding} {w w' : World} {attempts : List SearchAttempt}

/-- Calls for searches are all that adds to what is kept, from a fresh realm on. -/
theorem ComesUp.searched {options : Options} (h : w.ComesUp e options) :
    ∃ attempts, Searched e attempts w :=
  h.induct ⟨[], .nothing rfl⟩ (fun hw hstep => hstep.searched hw) fun hr hstep =>
    hstep.searched hr

/-- Each call for a search either answers a verdict, and its search is kept, or
fails, and nothing is kept. Guest code is answered the same, or the call throws. A
quiescent realm publishes what is kept, and the results are those of the calls,
whatever happened in between. Another realm refuses, and keeps what it has. Nothing
but calls adds to what is kept. -/
theorem published_of_searched (e : Embedding) :
    (∀ args w, ∃ answer w', (Machine.searchReferences e args).run w = some (answer, w') ∧
      SearchAttempt.Keeps ⟨args, answer⟩ w w') ∧
    (∀ {steps id this args f w outcome w'}, w.realm.hostFunctions[id]? = some f →
      f.code = .searchReferences →
      (Machine.dispatch e (steps + 1) id this args).run.run w = some (outcome, w') →
      ∃ answer w₁, (Machine.searchReferences e args).run w = some (answer, w₁) ∧
        w'.realm.searches = w₁.realm.searches ∧
        match answer with
        | .ok value => outcome = .ok value
        | .error _ => ∃ cause, outcome = .error cause) ∧
    (∀ {attempts w}, Searched e attempts w →
      (w.realm.isQuiescent = true →
        ∃ results realm, Realm.exec Realm.finalizeSearches w.realm = (.ok results, realm) ∧
          realm.searches.toList = [] ∧ SearchAttempt.Published attempts results) ∧
      (w.realm.isQuiescent = false →
        Realm.exec Realm.finalizeSearches w.realm =
          (.error (.broken (.notQuiescent w.realm.jobs.size w.realm.hostWork.size)), w.realm))) ∧
    ∀ {options w}, ComesUp e options w → ∃ attempts, Searched e attempts w := by
  refine ⟨fun args w => ?_, fun hf hcode hrun => Machine.dispatch_searchReferences hf hcode hrun,
    fun {attempts w} hw => ⟨fun hquiescent => ?_, fun hbusy => ?_⟩, fun hw => hw.searched⟩
  · obtain ⟨answer, w', hrun⟩ := Machine.exists_searchReferences e args w
    exact ⟨answer, w', hrun, Machine.searchReferences_spec hrun⟩
  · have hexec := Realm.exec_finalizeSearches w.realm
    rw [if_pos hquiescent] at hexec
    exact ⟨_, _, hexec, rfl, hw.published⟩
  · have hexec := Realm.exec_finalizeSearches w.realm
    rwa [if_neg (Bool.eq_false_iff.mp hbusy)] at hexec

/-- An object, and an array that holds it. -/
def holding : World :=
  Machine.afterEffects [.newObject, .newArray [.object ⟨14⟩]] { realm := {} }

/-- A search for the object from the items of the array. -/
def heldSearch : List Value := [.string "held", .object ⟨14⟩, .object ⟨15⟩]

theorem analyzerTable_holding : Machine.analyzerTable Machine.idle holding = .builtin := by
  funext kind
  cases kind <;> rfl

/-- The object is held, and so it is reached. -/
theorem searchReferences_holding :
    ∃ w, (Machine.searchReferences Machine.idle heldSearch).run holding =
        some (.ok (.bool true), w) ∧ w.realm.isQuiescent = true := by
  have hread : (Machine.readSearchCall holding.realm heldSearch).toOption =
      some ⟨"held", .object ⟨14⟩, [.object ⟨14⟩], true⟩ := by
    decide +kernel
  have hanswers (options : Search.Options) : ∃ g, (Search.run holding.realm.heap options .builtin
      (.object ⟨14⟩) [.object ⟨14⟩]).1 = .ok g :=
    Search.exists_run_eq_ok
      (fun _ hreq => hreq.isValid_builtin (by decide +kernel : holding.realm.heap.WellFormed)) rfl
      (by decide +kernel) (by decide +kernel)
  have hheld : Search.Given [.object ⟨14⟩] (.object ⟨14⟩) := List.mem_singleton.mpr rfl
  obtain ⟨answer, w, hrun⟩ := Machine.exists_searchReferences Machine.idle heldSearch holding
  cases Machine.searchReferences_cases hrun with
  | refused read =>
    rw [read] at hread
    cases hread
  | failed read ran =>
    rw [read] at hread
    obtain rfl := Option.some.inj hread
    unfold Machine.SearchCall.run at ran
    rw [analyzerTable_holding] at ran
    obtain ⟨g, hg⟩ := hanswers _
    cases hg.symm.trans (congrArg Prod.fst ran)
  | @found c graph count read ran =>
    rw [read] at hread
    obtain rfl := Option.some.inj hread
    have hsucceeded := Search.succeeded_of_held hheld (congrArg Prod.fst ran)
    rw [hsucceeded] at hrun
    exact ⟨_, hrun, (by decide +kernel : holding.realm.isQuiescent = true)⟩

/-- The search is answered, and its graph is published. -/
theorem published_of_searched_holding :
    ∃ w results realm, Searched Machine.idle [⟨heldSearch, .ok (.bool true)⟩] w ∧
      Realm.exec Realm.finalizeSearches w.realm = (.ok results, realm) ∧
      results.names = ["held"] ∧
      ∃ graph, results.get? "held" = some graph ∧ graph.succeeded = true := by
  obtain ⟨-, -, hpublishes, -⟩ := published_of_searched Machine.idle
  obtain ⟨w, hcall, hquiescent⟩ := searchReferences_holding
  have hsearched : Searched Machine.idle [⟨heldSearch, .ok (.bool true)⟩] w :=
    .call (.nothing (by decide +kernel)) hcall
  obtain ⟨results, realm, hexec, -, hpublished⟩ := (hpublishes hsearched).1 hquiescent
  obtain ⟨graph, hgraph⟩ := (hpublished.graphs "held" true (by decide)).mp rfl
  exact ⟨w, results, realm, hsearched, hexec, hpublished.names, graph, hgraph,
    hpublished.succeeded _ _ hgraph⟩

end World
end Retention
