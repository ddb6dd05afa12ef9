import Retention.Proofs.Search.Depiction

/-!
# The order of references

A search records references in the order in which it performs the requests for them
(`State.InOrder`). So what holds between any two of the requests, the earlier and the
later one, holds between those that two references were recorded for.

* `Move.inOrder`: every move keeps the order.
* `inOrder_of_exec`: the references of a whole search.
* `State.InOrder.pairwise`: what the order of the requests says of the references.
-/

namespace Retention

/-- A reference is one that a request adds. -/
def Request.AddsEdge (t : Interner) (req : Request) (e : Edge) : Prop :=
  ∃ parent kind child strength, req.Adds t parent kind child strength ∧
    e.Records t parent kind child strength

theorem Request.AddsEdge.mono {t t' : Interner} {req : Request} {e : Edge}
    (ha : req.AddsEdge t e) (ht : ∀ {v id}, t.Names v id → t'.Names v id) :
    req.AddsEdge t' e := by
  obtain ⟨parent, kind, child, strength, hadds, he⟩ := ha
  exact ⟨parent, kind, child, strength, hadds.mono ht, he.mono ht⟩

namespace Search

variable {h : Heap} {options : Options} {analyzers : AnalyzerTable} {asked : Request → Prop}
  {given : Identity → Prop} {s s' : State} {reqs : List Request} {e : Edge} {i : Nat}

/-- A reference is one that the request at a place adds. -/
def AddedAt (t : Interner) (reqs : List Request) (e : Edge) (i : Nat) : Prop :=
  ∃ req, reqs[i]? = some req ∧ req.AddsEdge t e

theorem AddedAt.lt_length {t : Interner} (ha : AddedAt t reqs e i) : i < reqs.length := by
  obtain ⟨req, hreq, -⟩ := ha
  exact (List.getElem?_eq_some_iff.mp hreq).1

/-- The references are recorded in the order of the requests. -/
def State.InOrder (s : State) (reqs : List Request) : Prop :=
  ∃ places, List.Forall₂ (AddedAt s.interner reqs) s.edges.toList places ∧ places.Pairwise (· ≤ ·)

namespace State.InOrder

/-- More requests are made. -/
theorem append (hs : s.InOrder reqs) (later : List Request) : s.InOrder (reqs ++ later) := by
  obtain ⟨places, hplaces, hsorted⟩ := hs
  refine ⟨places, hplaces.imp fun e i ⟨req, hreq, hadds⟩ => ⟨req, ?_, hadds⟩, hsorted⟩
  rw [List.getElem?_append_left (List.getElem?_eq_some_iff.mp hreq).1, hreq]

/-- No reference is recorded. -/
theorem grows (hg : Grows s s') (hedges : s'.edges = s.edges) (hs : s.InOrder reqs) :
    s'.InOrder reqs := by
  obtain ⟨places, hplaces, hsorted⟩ := hs
  rw [InOrder, hedges]
  refine ⟨places, hplaces.imp fun _ _ ⟨req, hreq, hadds⟩ => ?_, hsorted⟩
  exact ⟨req, hreq, hadds.mono hg.names⟩

/-- The request that is performed last adds a reference. -/
theorem snoc {req : Request} (hg : Grows s s') (hedges : s'.edges.toList = s.edges.toList ++ [e])
    (hlast : reqs.getLast? = some req) (hadds : req.AddsEdge s'.interner e) (hs : s.InOrder reqs) :
    s'.InOrder reqs := by
  obtain ⟨places, hplaces, hsorted⟩ := hs
  have hplaces' : List.Forall₂ (AddedAt s'.interner reqs) s.edges.toList places :=
    hplaces.imp fun _ _ ⟨req, hreq, hadds⟩ => ⟨req, hreq, hadds.mono hg.names⟩
  refine ⟨places ++ [reqs.length - 1], ?_, ?_⟩
  · rw [hedges]
    exact rel_snoc hplaces' ⟨req, by rw [← List.getLast?_eq_getElem?, hlast], hadds⟩
  · refine List.pairwise_append.mpr ⟨hsorted, List.pairwise_singleton .., fun i hi j hj => ?_⟩
    obtain ⟨e, -, he⟩ := (exists_of_forall₂ hplaces).2 i hi
    rw [List.mem_singleton.mp hj]
    exact Nat.le_sub_one_of_lt he.lt_length

/-- What holds between a request and those after it holds between the requests that two
references were recorded for, unless both were recorded for one. -/
theorem pairwise {R : Request → Request → Prop} (hs : s.InOrder reqs) (hreqs : reqs.Pairwise R) :
    s.edges.toList.Pairwise fun e e' => ∃ req ∈ reqs, ∃ req' ∈ reqs,
      req.AddsEdge s.interner e ∧ req'.AddsEdge s.interner e' ∧ (req = req' ∨ R req req') := by
  obtain ⟨places, hplaces, hsorted⟩ := hs
  refine pairwise_of_rel hplaces.flip hsorted ?_
  rintro i j e e' ⟨req, hreq, hadds⟩ ⟨req', hreq', hadds'⟩ hle
  refine ⟨req, List.mem_of_getElem? hreq, req', List.mem_of_getElem? hreq', hadds, hadds', ?_⟩
  rcases Nat.eq_or_lt_of_le hle with rfl | hlt
  · exact .inl (Option.some.inj (hreq.symm.trans hreq'))
  · obtain ⟨hi, rfl⟩ := List.getElem?_eq_some_iff.mp hreq
    obtain ⟨hj, rfl⟩ := List.getElem?_eq_some_iff.mp hreq'
    exact .inr (List.pairwise_iff_getElem.mp hreqs i j hi hj hlt)

end State.InOrder

/-- Moves are made for the request that is performed last. -/
theorem Move.inOrder (hm : Move h options asked given s s')
    (hasked : ∀ req, asked req → reqs.getLast? = some req) (hs : s.InOrder reqs) :
    s'.InOrder reqs := by
  have hg := hm.grows
  cases hm with
  | discover hd => exact hs.grows hg (by rw [← hd.frame]; rfl)
  | hold | enter | note | expand => exact hs.grows hg rfl
  | record hreq hadds he =>
    refine hs.snoc hg ?_ (hasked _ hreq)
      ⟨_, _, _, _, hadds.mono hg.names, he.mono hg.names⟩
    rw [eq_of_view State.records State.edges (fun _ => rfl) (records_follow ..)]
    exact Array.toList_push
  | resolve =>
    exact hs.grows hg (eq_of_view State.records State.edges (fun _ => rfl) (records_resolve ..))

/-- The references that are recorded are in the order of the requests so far. -/
theorem tracks_inOrder :
    Tracks h options given fun reqs s => Indexed h s ∧ s.InOrder reqs where
  init := ⟨.init h, [], .nil, .nil⟩
  indexed hs := hs.1
  move hm hs := ⟨hm.indexed hs.1, hm.inOrder (fun _ => False.elim) hs.2⟩
  perform {reqs s} req hs := by
    have hspec : WP (perform h options req) True s fun _ s' =>
        Moves h options (· = req) (fun _ => False) s s' ∧ _ :=
      perform_spec hs.1 rfl (.inr trivial)
    refine hspec.mono ?_
    rintro _ s' ⟨hm, -⟩
    have hlast : ∀ other, other = req → (reqs ++ [req]).getLast? = some other := fun _ heq => by
      rw [heq, List.getLast?_concat]
    exact ⟨hm.indexed hs.1, hm.keep (fun hm => hm.inOrder hlast) (hs.2.append [req])⟩

/-- A search records references in the order in which the objects of its agenda ask for
them. -/
theorem inOrder_of_exec {target : Value} {held : List Value} {g : Graph}
    (hexec : exec (search h options analyzers target held) {} = (.ok g, s)) :
    s.InOrder (s.agenda.toList.flatMap (requestsOf h analyzers)) :=
  ((tracks_inOrder.search target).of_exec_eq_ok hexec).2

end Search
end Retention
