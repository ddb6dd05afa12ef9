import Retention.Proofs.Search.Analyzers

/-!
# Verdicts

A search that answers has expanded its agenda and has nothing left to resolve
(`Finished`), and it does answer if whatever it is asked for is there
(`exists_run_eq_ok`). The graph that it publishes then decides its own verdict
(`succeeded_iff_live`): the target is reached if and only if it is alive by the
held nodes and the references of the graph, whatever the analyzers are.
-/

namespace Retention.Search

variable {h : Heap} {options : Options} {analyzers : AnalyzerTable} {target : Value}
  {held : List Value} {g : Graph} {s : State}

/-- What a search has come to when it answers. -/
structure Finished (h : Heap) (options : Options) (analyzers : AnalyzerTable) (held : List Value)
    (s : State) : Prop where
  moves : Moves h options (Requested h analyzers) (Given held) {} s
  drained : s.Drained
  holds : ∀ i, Given held i → s.Holds i
  expands : ∀ ref ∈ s.agenda.toList, s.Expands h options analyzers ref

theorem Finished.sound (hf : Finished h options analyzers held s) : Sound s := hf.moves.sound .init

theorem Finished.indexed (hf : Finished h options analyzers held s) : Indexed h s :=
  hf.moves.indexed (.init h)

theorem Finished.linked (hf : Finished h options analyzers held s)
    (howned : ∀ req, Requested h analyzers req → req.IsOwned) : Linked options s :=
  hf.moves.linked howned

theorem exists_exec_of_run (hrun : (run h options analyzers target held).1 = .ok g) :
    ∃ s, exec (search h options analyzers target held) {} = (.ok g, s) :=
  ⟨_, Prod.ext hrun rfl⟩

/-- A search that answers has finished. -/
theorem finished_of_exec (hexec : exec (search h options analyzers target held) {} = (.ok g, s)) :
    ∃ id, Finished h options analyzers held s ∧ s.interner.Names target id ∧ g = s.graph id := by
  have hspec : WP (search h options analyzers target held) True {} _ :=
    search_spec (fun _ _ => .inr trivial) (.inr trivial) fun _ _ => .inr trivial
  obtain ⟨hm, hd, ⟨id, hid, hg⟩, hheld, hall⟩ := hspec.of_exec_eq_ok hexec
  exact ⟨id, ⟨hm, hd, hheld, hall⟩, hid, hg⟩

/-- A search that answers reaches its target if that is held. -/
theorem succeeded_of_held {i : Identity} (hi : Given held i)
    (hrun : (run h options analyzers i.toValue held).1 = .ok g) : g.succeeded = true := by
  obtain ⟨s, hexec⟩ := exists_exec_of_run hrun
  obtain ⟨id, hf, hid, rfl⟩ := finished_of_exec hexec
  obtain ⟨id', hid', hlog, -⟩ := hf.holds i hi
  rw [Interner.names_toValue] at hid
  obtain rfl := Option.some.inj (hid.symm.trans hid')
  exact (hf.sound.coherent.reached_iff_spreads hf.drained id).mpr (.held hlog ⟨rfl, rfl, rfl⟩)

/-- A search answers if whatever it is asked for is there. -/
theorem exists_run_eq_ok (hvalid : ∀ req, Requested h analyzers req → req.IsValid h)
    (hidentity : target.hasIdentity = true) (htarget : h.isValid target = true)
    (hheld : ∀ v ∈ held, h.isValid v = true) :
    ∃ g, (run h options analyzers target held).1 = .ok g := by
  have hspec : WP (search h options analyzers target held) False {} _ :=
    search_spec (fun req hreq => .inl (hvalid req hreq)) (.inl ⟨hidentity, htarget⟩)
      fun v hv => .inl (hheld v hv)
  obtain ⟨g, s, hexec, -⟩ := hspec.exists_ok
  exact ⟨g, congrArg Prod.fst hexec⟩

/-- What any analyzers ask for has owners if what they answer does. -/
theorem Requested.isOwned
    (howned : ∀ kind analyze, analyzers kind = some analyze →
      ∀ ref, ∀ req ∈ analyze h ref, req.IsOwned)
    {req : Request} (hreq : Requested h analyzers req) : req.IsOwned := by
  obtain ⟨ref, reqs, hreqs, hmem⟩ := hreq
  cases ho : h.object ref with
  | error cause =>
    rw [requestsFor, ho] at hreqs
    cases hreqs
  | ok o =>
    have hbuiltin : req ∈ ownRequests ref o → req.IsOwned := fun hreq =>
      Requested.isOwned_builtin (requested_builtin.mpr ⟨ref, o, ho, .inr hreq⟩)
    rw [requestsFor, ho] at hreqs
    cases hreqs
    rcases List.mem_append.mp hmem with hmem | hmem
    · split at hmem
      · rename_i analyze hanalyze
        exact howned _ analyze hanalyze ref req hmem
      · cases hmem
    · exact hbuiltin hmem

/-- The graph that a search publishes decides the verdict of the search, for any
analyzers whose joint references have owners: the target is reached if and only
if the graph says that it is alive. -/
theorem succeeded_iff_live
    (howned : ∀ kind analyze, analyzers kind = some analyze →
      ∀ ref, ∀ req ∈ analyze h ref, req.IsOwned)
    (hrun : (run h options analyzers target held).1 = .ok g) :
    g.succeeded = true ↔ g.Live options.strongOnly g.target := by
  obtain ⟨s, hexec⟩ := exists_exec_of_run hrun
  obtain ⟨id, hf, -, rfl⟩ := finished_of_exec hexec
  have hl := hf.linked fun _ => Requested.isOwned howned
  exact hl.reached_iff_live hf.sound.coherent hf.drained id id

/-- An object without a prototype and without properties refers to nothing by itself. -/
@[simp] theorem ownRequests_bare (ref : ObjectRef) (kind : ObjectKind) :
    ownRequests ref ⟨none, [], kind⟩ = [] := by
  simp [ownRequests, Request.slot?, Properties.ordered, Properties.sortedElements,
    Properties.elements]

/-- Two ordinary objects. -/
def twoObjects : Heap where
  slots := #[.object ⟨none, [], .ordinary⟩, .object ⟨none, [], .ordinary⟩]

/-- Analyzers by which the first object keeps the second alive, jointly with itself. -/
def jointAnalyzers : AnalyzerTable := fun _ => some fun _ ref =>
  [.edge ref (.slot "[[Peer]]") (.object ⟨1⟩) (.joint [.object ⟨0⟩, .object ref])]

theorem requested_jointAnalyzers {req : Request} (hreq : Requested twoObjects jointAnalyzers req) :
    ∃ ref, twoObjects.has (.object ref) = true ∧
      req = .edge ref (.slot "[[Peer]]") (.object ⟨1⟩) (.joint [.object ⟨0⟩, .object ref]) := by
  obtain ⟨ref, reqs, hreqs, hmem⟩ := hreq
  refine ⟨ref, ?_⟩
  cases ho : twoObjects.object ref with
  | error cause =>
    rw [requestsFor, ho] at hreqs
    cases hreqs
  | ok o =>
    have hslot := List.mem_of_getElem? (Heap.slot_of_object ho)
    obtain rfl : o = ⟨none, [], .ordinary⟩ := by simpa [twoObjects] using hslot
    rw [requestsFor, ho] at hreqs
    cases hreqs
    refine ⟨Heap.has_object.mpr ⟨_, ho⟩, ?_⟩
    simpa [jointAnalyzers] using hmem

theorem succeeded_iff_live_jointAnalyzers :
    ∃ g, (run twoObjects {} jointAnalyzers (.object ⟨1⟩) [.object ⟨0⟩]).1 = .ok g ∧
      (g.succeeded = true ↔ g.Live true g.target) := by
  have hvalid : ∀ req, Requested twoObjects jointAnalyzers req → req.IsValid twoObjects :=
    fun req hreq => by
      obtain ⟨ref, href, rfl⟩ := requested_jointAnalyzers hreq
      refine ⟨href, by decide, ?_⟩
      show ∀ v ∈ [Value.object ⟨0⟩, .object ref], _
      simp only [List.mem_cons, List.not_mem_nil, or_false, forall_eq_or_imp, forall_eq]
      exact ⟨⟨rfl, by decide⟩, rfl, href⟩
  have hanswers : ∃ g, (run twoObjects {} jointAnalyzers (.object ⟨1⟩) [.object ⟨0⟩]).1 = .ok g :=
    exists_run_eq_ok hvalid rfl (by decide) (by decide)
  obtain ⟨g, hrun⟩ := hanswers
  refine ⟨g, hrun, succeeded_iff_live (fun kind analyze hanalyze ref req hreq => ?_) hrun⟩
  cases hanalyze
  rw [List.mem_singleton.mp hreq]
  rfl

end Retention.Search
