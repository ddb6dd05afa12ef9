import Retention.Proofs.Graph.Path
import Retention.Proofs.Search.Certificate
import Retention.Proofs.Search.Reachability

/-!
# Paths of a search

The built-in analyzers ask for joint references that need their parent, so the
way up from a node along its confirmations never leaves what the confirmations
prove. A search that answers publishes a graph with a path to each node that it
reached and did not hold (`isPath_of_run`).
-/

namespace Retention

/-- The owners of a joint reference of an object include the object. -/
def Strength.Includes (parent : ObjectRef) : Strength → Prop
  | .joint owners => .object parent ∈ owners
  | .strong | .weak => True

theorem Object.Refers.includes {o : Object} {ref : ObjectRef} {child : Value} {strength : Strength}
    (hr : o.Refers ref child strength) : strength.Includes ref := by
  cases strength with
  | strong | weak => trivial
  | joint owners =>
    obtain ⟨key, rfl, -⟩ := hr
    exact List.mem_cons_self

/-- A reference needs its parent if its owners include it. -/
theorem Edge.Records.parent_mem_premises {e : Edge} {t : Interner} {parent : ObjectRef}
    {kind : EdgeKind} {child : Value} {strength : Strength}
    (he : e.Records t parent kind child strength) (hp : strength.Includes parent) :
    e.parent ∈ e.premises := by
  cases strength with
  | strong | weak =>
    rw [Search.premises_of_owns he.owners rfl]
    exact List.mem_singleton_self e.parent
  | joint owners =>
    have howned : (Strength.joint owners).isOwned = true := by
      simpa [Strength.isOwned] using List.ne_nil_of_mem hp
    rw [Search.premises_of_owns he.owners howned]
    have howns : List.Forall₂ t.Names owners e.owners := he.owners
    obtain ⟨id, hid, hnames⟩ := (Search.exists_of_forall₂ howns).1 _ hp
    rwa [he.parent.unique hnames]

namespace Search

variable {h : Heap} {options : Options} {target : Value} {held : List Value} {g : Graph} {s : State}

theorem Finished.anchored (hf : Finished h options .builtin held s) (target : NodeId) :
    (s.graph target).Anchored := fun e he => by
  obtain ⟨req, parent, kind, child, strength, hreq, hadds, hrecords⟩ := hf.traced.edge e he
  obtain ⟨o, -, hasks⟩ := hreq.asks hadds
  exact hrecords.parent_mem_premises hasks.refers.includes

/-- A search that answers publishes a path from a held node down to each node
that it reached and did not hold, and none to any other node. The bound on the
steps of a path never cuts one off. -/
theorem isPath_of_run (hrun : (run h options .builtin target held).1 = .ok g) :
    ∃ s, exec (search h options .builtin target held) {} = (.ok g, s) ∧ ∀ id,
      (g.Holds id ∨ s.reached.contains id = false → g.pathTo id = []) ∧
      (¬g.Holds id → s.reached.contains id = true → g.IsPath id (g.pathTo id)) ∧
      (g.pathTo id).length ≤ g.confirmations.length ∧
      ∀ steps, g.confirmations.length ≤ steps →
        (Graph.ascent g.confirmation? g.origin? steps id).reverse = g.pathTo id := by
  obtain ⟨s, hexec⟩ := exists_exec_of_run hrun
  obtain ⟨target, hf, -, rfl⟩ := finished_of_exec hexec
  have hs := hf.settled fun _ hreq => hreq.isOwned_builtin
  have hg := hs.certified target
  have ha := hf.anchored target
  refine ⟨s, hexec, fun id => ⟨fun hid => ?_, fun hnot hreached => ?_, ?_, fun steps hle => ?_⟩⟩
  · refine hg.pathTo_eq_nil (hid.imp_right fun hreached hlive => ?_)
    rw [(hs.reached_iff_live target id).mpr hlive] at hreached
    cases hreached
  · exact hg.isPath ha ((hs.reached_iff_live target id).mp hreached) hnot
  · rw [Graph.pathTo_eq, List.length_reverse]
    exact hg.length_ascent_le ha
  · rw [Graph.pathTo_eq, hg.ascent_of_le ha hle]

theorem isPath_of_run_oneEntry :
    ∃ g s, exec (search .oneEntry {} .builtin (.object ⟨2⟩) [.object ⟨0⟩, .object ⟨1⟩]) {} =
        (.ok g, s) ∧
      (g.Holds g.target ∨ s.reached.contains g.target = false → g.pathTo g.target = []) ∧
      (¬g.Holds g.target → s.reached.contains g.target = true →
        g.IsPath g.target (g.pathTo g.target)) := by
  have hanswers : ∃ g, (run .oneEntry {} .builtin (.object ⟨2⟩) [.object ⟨0⟩, .object ⟨1⟩]).1 =
      .ok g :=
    exists_run_eq_ok (fun _ hreq => hreq.isValid_builtin Heap.wellFormed_oneEntry) rfl (by decide)
      (by decide)
  obtain ⟨g, hrun⟩ := hanswers
  obtain ⟨s, hexec, hpaths⟩ := isPath_of_run hrun
  exact ⟨g, s, hexec, (hpaths g.target).1, (hpaths g.target).2.1⟩

end Search
end Retention
