import Retention.Proofs.Search.Verdict

/-!
# Confirmations are proofs

In a finished search the confirmations are a well-founded proof of what is
alive (`Settled.certified`). A confirmation is that of the resolution that
made its node what it is in the end (`proofOf`): a held node for a node that is
held (`edge?_proofOf_of_holds`), and else a reference whose owners rank below
the node.

* `Concluded`: what any finished search comes to.
* `Settled`: what it comes to if joint references have owners.
-/

namespace Retention.Search

variable {h : Heap} {options : Options} {analyzers : AnalyzerTable} {target : Value}
  {held : List Value} {g : Graph} {s : State} {id : NodeId} {r : Resolution} {c : Confirmation}

theorem Grounded.supportedBy_of_mem {log : List Resolution} (hg : Grounded log) (hr : r ∈ log) :
    r.SupportedBy log := by
  obtain ⟨i, hi⟩ := List.mem_iff_getElem?.mp hr
  exact (hg.supportedBy_take hi).mono fun q => List.mem_of_mem_take

/-- A search that has nothing left to resolve. -/
structure Concluded (s : State) : Prop where
  sound : Sound s
  held : s.LogsHeld
  drained : s.Drained

theorem Finished.concluded (hf : Finished h options analyzers held s) : Concluded s :=
  ⟨hf.sound, hf.moves.logsHeld, hf.drained⟩

namespace Concluded

variable (hs : Concluded s)
include hs

theorem mem_confirmations (target : NodeId) :
    c ∈ (s.graph target).confirmations ↔
      ∃ r, proofOf s.log c.child = some r ∧ r.confirmation? = some c := by
  rw [← hs.drained]
  exact hs.sound.confirms.mem_iff c

/-- A held node is held strongly. -/
theorem strong_of_edge?_eq_none (hr : r ∈ s.log) (hnone : r.edge? = none) : r.strong = true := by
  rcases hs.sound.coherent.sound r hr with hh | ⟨ρ, -, hby⟩
  · exact hh.2.2
  · rw [hby.edge] at hnone
    cases hnone

/-- The proof of a held node is that it is held: it was held before anything
else was resolved. -/
theorem edge?_proofOf_of_holds (target : NodeId) (hid : (s.graph target).Holds id)
    (hr : proofOf s.log id = some r) : r.edge? = none := by
  obtain ⟨q, hq, hnone, rfl⟩ := (hs.held id).mp hid
  have hqs := hs.strong_of_edge?_eq_none hq hnone
  rcases proofOf_eq_some hr with hf | ⟨hn, -⟩
  · obtain ⟨-, before, after, hlog, hbefore⟩ := List.find?_eq_some_iff_append.mp hf
    rw [hlog, List.mem_append, List.mem_cons] at hq
    have hfirst := hs.sound.confirms.heldFirst
    rw [hlog, List.pairwise_append, List.pairwise_cons] at hfirst
    rcases hq with hq | rfl | hq
    · have := hbefore q hq
      simp [Resolution.provesStrongly, hqs] at this
    · exact hnone
    · exact hfirst.2.1.1 q hq hnone
  · rw [hn q hq rfl] at hqs
    cases hqs

/-- The proof of any other node is a reference. -/
theorem exists_rule_proofOf (target : NodeId) (hid : ¬(s.graph target).Holds id)
    (hr : proofOf s.log id = some r) : ∃ ρ, s.HasRule ρ ∧ r.By ρ := by
  rcases hs.sound.coherent.sound r (mem_of_proofOf hr) with hh | hρ
  · exact absurd ((hs.held id).mpr ⟨r, mem_of_proofOf hr, hh.1, child_of_proofOf hr⟩) hid
  · exact hρ

/-- A node with a proof is held or confirmed by its proof. -/
theorem holds_or_confirmed (target : NodeId) (hr : proofOf s.log id = some r) :
    (s.graph target).Holds id ∨
      ∃ c ∈ (s.graph target).confirmations, c.child = id ∧ c.strong = r.strong := by
  by_cases hid : (s.graph target).Holds id
  · exact .inl hid
  · obtain ⟨ρ, -, hby⟩ := hs.exists_rule_proofOf target hid hr
    have hchild := child_of_proofOf hr
    have hc : r.confirmation? = some ⟨r.child, r.owners, ρ.edge, r.strong⟩ := by
      rw [Resolution.confirmation?, hby.edge]; rfl
    exact .inr ⟨_, (hs.mem_confirmations target).mpr ⟨r, by rwa [hchild], hc⟩, hchild, rfl⟩

/-- The nodes that are strongly reached are those that are held or strongly
confirmed. -/
theorem strong_iff (target id : NodeId) :
    s.strong.contains id = true ↔ (s.graph target).Holds id ∨
      ∃ c ∈ (s.graph target).confirmations, c.child = id ∧ c.strong = true := by
  rw [hs.sound.coherent.strong_iff, hs.drained]
  constructor
  · rintro ⟨q, hq, rfl, hqs⟩
    obtain ⟨r, hr⟩ := exists_proofOf hq
    have hrs := (strong_of_proofOf hr).mpr ⟨q, hq, rfl, hqs⟩
    exact (hs.holds_or_confirmed target hr).imp_right fun ⟨c, hc, hid, hcs⟩ =>
      ⟨c, hc, hid, hcs.trans hrs⟩
  · rintro (hid | ⟨c, hc, rfl, hcs⟩)
    · obtain ⟨q, hq, hnone, rfl⟩ := (hs.held id).mp hid
      exact ⟨q, hq, rfl, hs.strong_of_edge?_eq_none hq hnone⟩
    · obtain ⟨r, hr, hrc⟩ := (hs.mem_confirmations target).mp hc
      obtain ⟨edge, -, rfl⟩ := Option.map_eq_some_iff.mp hrc
      exact (strong_of_proofOf hr).mp hcs

end Concluded

/-- A finished search of whatever analyzers ask for joint references with owners. -/
structure Settled (options : Options) (s : State) : Prop extends Concluded s where
  linked : Linked options s

theorem Finished.settled (hf : Finished h options analyzers held s)
    (howned : ∀ req, Requested h analyzers req → req.IsOwned) : Settled options s :=
  ⟨hf.concluded, hf.linked howned⟩

namespace Settled

variable (hs : Settled options s)
include hs

theorem reached_iff_live (target id : NodeId) :
    s.reached.contains id = true ↔ (s.graph target).Live options.strongOnly id :=
  hs.linked.reached_iff_live hs.sound.coherent hs.drained target id

/-- The nodes that are alive are those with a resolution. -/
theorem live_iff (target id : NodeId) :
    (s.graph target).Live options.strongOnly id ↔ ∃ r ∈ s.log, r.child = id := by
  rw [← hs.reached_iff_live, hs.sound.coherent.reached_iff, hs.drained]

/-- The nodes that are alive by strong references alone are those with a strong
resolution. -/
theorem live_true_iff (target id : NodeId) :
    (s.graph target).Live true id ↔ ∃ r ∈ s.log, r.child = id ∧ r.strong = true := by
  rw [← hs.linked.strong_iff_live hs.sound.coherent hs.drained, hs.sound.coherent.strong_iff,
    hs.drained]

theorem confirmed_iff (target id : NodeId) :
    (∃ c ∈ (s.graph target).confirmations, c.child = id) ↔
      (s.graph target).Live options.strongOnly id ∧ ¬(s.graph target).Holds id := by
  constructor
  · rintro ⟨c, hc, rfl⟩
    obtain ⟨r, hr, hrc⟩ := (hs.mem_confirmations target).mp hc
    refine ⟨(hs.live_iff target _).mpr ⟨r, mem_of_proofOf hr, child_of_proofOf hr⟩, fun hid => ?_⟩
    rw [Resolution.confirmation?, hs.edge?_proofOf_of_holds target hid hr] at hrc
    cases hrc
  · rintro ⟨hlive, hnot⟩
    obtain ⟨q, hq, rfl⟩ := (hs.live_iff target id).mp hlive
    obtain ⟨r, hr⟩ := exists_proofOf hq
    obtain ⟨c, hc, hid, -⟩ := (hs.holds_or_confirmed target hr).resolve_left hnot
    exact ⟨c, hc, hid⟩

/-- A confirmation names the reference that it is by. -/
theorem exists_edge (target : NodeId) (hc : c ∈ (s.graph target).confirmations) :
    ∃ e, (s.graph target).edge? c.edge = some e ∧ e.child = .node c.child ∧
      c.owners = e.premises ∧ (c.strong = true → e.strong = true) := by
  obtain ⟨r, hr, hrc⟩ := (hs.mem_confirmations target).mp hc
  obtain ⟨edge, hedge, rfl⟩ := Option.map_eq_some_iff.mp hrc
  rcases hs.sound.coherent.sound r (mem_of_proofOf hr) with hh | ⟨ρ, hρ, hby⟩
  · rw [hh.1] at hedge
    cases hedge
  · obtain ⟨e, he, hrule, -⟩ := (hs.linked.rules ρ).mp hρ
    obtain ⟨child, hchild, rfl⟩ := Option.map_eq_some_iff.mp hrule
    have hid : edge = e.id := Option.some.inj (hedge.symm.trans hby.edge)
    refine ⟨e, ?_, ?_, hby.owners, hby.strong⟩
    · rw [hid]
      exact hs.linked.find?_id he
    · rw [hby.child]
      cases hce : e.child <;> rw [hce] at hchild <;> cases hchild
      rfl

theorem owners (target : NodeId) (hc : c ∈ (s.graph target).confirmations) :
    ∀ o ∈ c.owners, (s.graph target).Holds o ∨ ∃ d ∈ (s.graph target).confirmations,
      d.child = o ∧ (c.strong = true → d.strong = true) := fun o ho => by
  obtain ⟨r, hr, hrc⟩ := (hs.mem_confirmations target).mp hc
  obtain ⟨edge, -, rfl⟩ := Option.map_eq_some_iff.mp hrc
  obtain ⟨q, hq, rfl, hqs⟩ :=
    hs.sound.coherent.grounded.supportedBy_of_mem (mem_of_proofOf hr) o ho
  obtain ⟨p, hp⟩ := exists_proofOf hq
  refine (hs.holds_or_confirmed target hp).imp_right fun ⟨d, hd, hdc, hds⟩ =>
    ⟨d, hd, hdc, fun hstrong => ?_⟩
  rw [hds]
  exact (strong_of_proofOf hp).mpr ⟨q, hq, rfl, hqs hstrong⟩

/-- When only strong references count, every proof is strong. -/
theorem strong (hmode : options.strongOnly = true) (target : NodeId)
    (hc : c ∈ (s.graph target).confirmations) : c.strong = true := by
  obtain ⟨r, hr, hrc⟩ := (hs.mem_confirmations target).mp hc
  obtain ⟨edge, -, rfl⟩ := Option.map_eq_some_iff.mp hrc
  have hlive := (hs.live_iff target r.child).mpr ⟨r, mem_of_proofOf hr, rfl⟩
  rw [hmode, hs.live_true_iff, child_of_proofOf hr] at hlive
  exact (strong_of_proofOf hr).mpr hlive

/-- The nodes that are alive by strong references alone are those that are held
or strongly confirmed, whether or not weak references count. -/
theorem live_strongly_iff (target id : NodeId) :
    (s.graph target).Live true id ↔ (s.graph target).Holds id ∨
      ∃ c ∈ (s.graph target).confirmations, c.child = id ∧ c.strong = true :=
  (hs.linked.strong_iff_live hs.sound.coherent hs.drained target id).symm.trans
    (hs.strong_iff target id)

/-- An owner of a node's confirmation ranks below the node. -/
theorem rank_lt (target : NodeId) {owner : NodeId} (ho : (s.graph target).IsOwner owner id) :
    rank s.log owner < rank s.log id := by
  obtain ⟨c, hc, rfl, howner⟩ := ho
  obtain ⟨r, hr, hrc⟩ := (hs.mem_confirmations target).mp hc
  obtain ⟨edge, -, rfl⟩ := Option.map_eq_some_iff.mp hrc
  exact hs.sound.coherent.grounded.rank_lt hr howner

theorem certified (target : NodeId) : (s.graph target).Certified options.strongOnly where
  confirmed_iff id := hs.confirmed_iff target id
  unique := hs.sound.confirms.placed.nodup
  edge _ hc := hs.exists_edge target hc
  owners _ hc := hs.owners target hc
  strong hmode _ hc := hs.strong hmode target hc
  acyclic id hid := by
    have hlt := hid.lift (rank s.log) fun _ _ ho => hs.rank_lt target ho
    rw [Relation.transGen_eq_self] at hlt
    exact Nat.lt_irrefl _ hlt

end Settled

/-- The graph that a search with the built-in analyzers publishes is certified
by its confirmations, and what it says is alive is what the search has reached. -/
theorem certified_of_run (hrun : (run h options .builtin target held).1 = .ok g) :
    ∃ s, exec (search h options .builtin target held) {} = (.ok g, s) ∧
      (∀ id, s.reached.contains id = true ↔ g.Live options.strongOnly id) ∧
      g.Certified options.strongOnly := by
  obtain ⟨s, hexec⟩ := exists_exec_of_run hrun
  obtain ⟨id, hf, -, rfl⟩ := finished_of_exec hexec
  have hs := hf.settled fun _ hreq => hreq.isOwned_builtin
  exact ⟨s, hexec, hs.reached_iff_live id, hs.certified id⟩

theorem certified_of_run_oneEntry :
    ∃ g s, exec (search .oneEntry { strongOnly := false } .builtin (.object ⟨2⟩) [.object ⟨0⟩]) {} =
        (.ok g, s) ∧
      (∀ id, s.reached.contains id = true ↔ g.Live false id) ∧ g.Certified false := by
  have hanswers : ∃ g, (run .oneEntry { strongOnly := false } .builtin (.object ⟨2⟩)
      [.object ⟨0⟩]).1 = .ok g :=
    exists_run_eq_ok (fun _ hreq => hreq.isValid_builtin Heap.wellFormed_oneEntry) rfl (by decide)
      (by decide)
  obtain ⟨g, hrun⟩ := hanswers
  exact ⟨g, certified_of_run hrun⟩

end Retention.Search
