import Retention.Proofs.Search.Certificate
import Retention.Proofs.Search.Exploration

/-!
# The first request for a reference decides

A search records a reference once, as the first request asks for it, and passes
over what is asked later (`Obeys`). So a reference that is first asked for
strongly carries strength from its parent to its child, whatever else is asked
for (`strongly_of_adds_first`), but one that is asked for weakly before does not
(`not_strongly_of_weak_first`).

* `FirstAt`: the request at a position is the first for a reference.
* `tracks_served`: all requests are served in this way.
-/

namespace Retention

/-- A node that is held or strongly confirmed. -/
def Graph.ReachesStrongly (g : Graph) (id : NodeId) : Prop :=
  g.Holds id ∨ ∃ c ∈ g.confirmations, c.child = id ∧ c.strong = true

instance (g : Graph) (id : NodeId) : Decidable (g.ReachesStrongly id) :=
  inferInstanceAs (Decidable ((∃ n ∈ g.nodes, n.held = true ∧ n.id = id) ∨
    ∃ c ∈ g.confirmations, c.child = id ∧ c.strong = true))

variable {t : Interner} {req : Request} {reqs : List Request} {i j : Nat} {parent : ObjectRef}
  {kind : EdgeKind} {child : Value} {strength strength' : Strength}

/-- The request at a position is the first that adds a reference, and adds it with
the given strength. -/
structure FirstAt (t : Interner) (reqs : List Request) (i : Nat) (parent : ObjectRef)
    (kind : EdgeKind) (child : Value) (strength : Strength) : Prop where
  adds : ∃ req, reqs[i]? = some req ∧ req.Adds t parent kind child strength
  first : ∀ j < i, ∀ req, reqs[j]? = some req → ∀ other, ¬req.Adds t parent kind child other

/-- The first request that adds a reference adds it with the given strength. -/
def AddsFirst (t : Interner) (reqs : List Request) (parent : ObjectRef) (kind : EdgeKind)
    (child : Value) (strength : Strength) : Prop :=
  ∃ i, FirstAt t reqs i parent kind child strength

/-- A request adds a reference with one strength. -/
theorem Request.Adds.unique (ha : req.Adds t parent kind child strength)
    (ha' : req.Adds t parent kind child strength') : strength = strength' := by
  cases ha <;> cases ha' <;> rfl

namespace FirstAt

/-- Only one request is the first. -/
theorem unique (hf : FirstAt t reqs i parent kind child strength)
    (hf' : FirstAt t reqs j parent kind child strength') : strength = strength' := by
  obtain ⟨req, hreq, hadds⟩ := hf.adds
  obtain ⟨req', hreq', hadds'⟩ := hf'.adds
  rcases Nat.lt_trichotomy i j with hlt | rfl | hlt
  · exact absurd hadds (hf'.first i hlt req hreq _)
  · cases hreq.symm.trans hreq'
    exact hadds.unique hadds'
  · exact absurd hadds' (hf.first j hlt req' hreq' _)

theorem lt_length (hf : FirstAt t reqs i parent kind child strength) : i < reqs.length := by
  obtain ⟨req, hreq, -⟩ := hf.adds
  exact (List.getElem?_eq_some_iff.mp hreq).1

/-- What is asked for later does not matter. -/
theorem append (hf : FirstAt t reqs i parent kind child strength) (later : List Request) :
    FirstAt t (reqs ++ later) i parent kind child strength where
  adds := by rw [List.getElem?_append_left hf.lt_length]; exact hf.adds
  first j hj := by
    rw [List.getElem?_append_left (Nat.lt_trans hj hf.lt_length)]
    exact hf.first j hj

/-- A reference that no request added so far. -/
theorem concat (hadds : req.Adds t parent kind child strength)
    (hnew : ∀ earlier ∈ reqs, ∀ other, ¬earlier.Adds t parent kind child other) :
    FirstAt t (reqs ++ [req]) reqs.length parent kind child strength where
  adds := ⟨req, List.getElem?_concat_length, hadds⟩
  first j hj earlier hearlier := by
    rw [List.getElem?_append_left hj] at hearlier
    exact hnew earlier (List.mem_of_getElem? hearlier)

end FirstAt

namespace Search

variable {h : Heap} {options : Options} {analyzers : AnalyzerTable} {asked : Request → Prop}
  {given : Identity → Prop} {s s' : State} {held : List Value} {target : Value} {g : Graph}
  {e : Edge}

/-! ## Requests that are done -/

/-- A request that is done adds no other references later. -/
theorem State.Performs.adds (hp : s.Performs options req) (hg : Grows s s')
    (ha : req.Adds s'.interner parent kind child strength) :
    req.Adds s.interner parent kind child strength := by
  cases ha with
  | edge => exact .edge
  | entryKey => exact .entryKey
  | entryValue => exact .entryValue
  | symbolKey => exact .symbolKey
  | symbolValue hid =>
    obtain ⟨-, id, hid', -⟩ := hp
    rw [hid.unique (hg.names hid')]
    exact .symbolValue hid'

theorem Grows.firstAt (hg : Grows s s') (hdone : ∀ req ∈ reqs.take i, s.Performs options req)
    (hf : FirstAt s.interner reqs i parent kind child strength) :
    FirstAt s'.interner reqs i parent kind child strength where
  adds := by
    obtain ⟨req, hreq, hadds⟩ := hf.adds
    exact ⟨req, hreq, hadds.mono hg.names⟩
  first j hj req hreq other hadds := by
    have hmem : req ∈ reqs.take i := List.mem_of_getElem? ((List.getElem?_take_of_lt hj).trans hreq)
    exact hf.first j hj req hreq other ((hdone req hmem).adds hg hadds)

/-! ## References are recorded as they are first asked for -/

/-- A reference is recorded as the first request for it asks, and it is a rule if
it counts. -/
structure Obeys (options : Options) (s : State) (reqs : List Request) (e : Edge) (i : Nat)
    (parent : ObjectRef) (kind : EdgeKind) (child : Value) (strength : Strength) : Prop where
  first : FirstAt s.interner reqs i parent kind child strength
  done : ∀ req ∈ reqs.take i, s.Performs options req
  records : e.Records s.interner parent kind child strength
  counts : (options.strongOnly = true → (strength != .weak) = true) →
    ∀ ρ, ruleBy? e strength = some ρ → s.HasRule ρ

/-- The requests are served: those that are done are, and what is recorded obeys
those that were made. -/
structure Served (h : Heap) (options : Options) (done reqs : List Request) (s : State) : Prop where
  indexed : Indexed h s
  performed : ∀ req ∈ done, s.Performs options req
  edges : ∀ e ∈ s.edges.toList,
    ∃ i parent kind child strength, Obeys options s reqs e i parent kind child strength

theorem Obeys.append (ho : Obeys options s reqs e i parent kind child strength)
    (later : List Request) : Obeys options s (reqs ++ later) e i parent kind child strength where
  first := ho.first.append later
  done := by
    rw [List.take_append_of_le_length (Nat.le_of_lt ho.first.lt_length)]
    exact ho.done
  records := ho.records
  counts := ho.counts

/-- Rules are not forgotten. -/
theorem Move.hasRule (hm : Move h options asked given s s') {ρ : Rule} (hρ : s.HasRule ρ) :
    s'.HasRule ρ := by
  cases hm with
  | discover hd _ => rw [← hd.frame]; exact hρ
  | hold | enter | note | expand => exact hρ
  | record => exact (hasRule_follow ρ).mpr (.inl hρ)
  | resolve => exact (hasRule_resolve ..).mpr hρ

theorem Move.obeys (hm : Move h options asked given s s')
    (ho : Obeys options s reqs e i parent kind child strength) :
    Obeys options s' reqs e i parent kind child strength where
  first := hm.grows.firstAt ho.done ho.first
  done req hreq := hm.grows.performs (ho.done req hreq)
  records := ho.records.mono hm.grows.names
  counts hc ρ hρ := hm.hasRule (ho.counts hc ρ hρ)

/-- A reference that is not recorded was asked for by no request that is done. -/
theorem not_adds_of_performs (hp : s.Performs options req)
    (he : e.Records s.interner parent kind child strength) (hnew : s.hasRecorded e = false)
    (hprim : e.child.node? = none → options.recordPrimitives = true) (other : Strength) :
    ¬req.Adds s.interner parent kind child other := by
  intro hadds
  obtain ⟨parentId, child?, hparent, hends, hrecorded⟩ := hp.notes hadds
  have hchild := node?_of_denotes hends he.child
  have hold := hrecorded (hchild ▸ hprim)
  rw [← he.parent.unique hparent, ← he.kind, ← hchild] at hold
  exact Bool.false_ne_true (hnew.symm.trans hold)

/-- The reference that a request records is one that it asks for first. -/
theorem obeys_record {done : List Request} (hdone : ∀ req ∈ done, s.Performs options req)
    (hadds : req.Adds s.interner parent kind child strength)
    (he : e.Records s.interner parent kind child strength) (hnew : s.hasRecorded e = false)
    (hprim : e.child.node? = none → options.recordPrimitives = true)
    (hg : Grows s ((s.record e).follow options e strength)) :
    Obeys options ((s.record e).follow options e strength) (done ++ [req]) e done.length parent
      kind child strength := by
  have hfirst : FirstAt s.interner (done ++ [req]) done.length parent kind child strength :=
    .concat hadds fun earlier hearlier =>
      not_adds_of_performs (hdone earlier hearlier) he hnew hprim
  have htake : (done ++ [req]).take done.length = done := List.take_left
  refine ⟨hg.firstAt (htake ▸ hdone) hfirst, fun earlier hearlier => ?_, he.mono hg.names,
    fun hcounts ρ hρ => (hasRule_follow ρ).mpr (.inr ⟨hρ, hcounts⟩)⟩
  rw [htake] at hearlier
  exact hg.performs (hdone earlier hearlier)

/-- Moves are made for the request that is next. -/
theorem Move.served {done : List Request} (hm : Move h options asked given s s')
    (hasked : ∀ req, asked req → reqs = done ++ [req]) (hs : Served h options done reqs s) :
    Served h options done reqs s' := by
  have hedges : ∀ e ∈ s.edges.toList,
      ∃ i parent kind child strength, Obeys options s' reqs e i parent kind child strength :=
    fun e he => by
      obtain ⟨i, parent, kind, child, strength, ho⟩ := hs.edges e he
      exact ⟨i, parent, kind, child, strength, hm.obeys ho⟩
  refine ⟨hm.indexed hs.indexed, fun req hreq => hm.grows.performs (hs.performed req hreq), ?_⟩
  have hg := hm.grows
  cases hm with
  | discover hd _ => rw [← hd.frame] at hedges ⊢; exact hedges
  | hold | enter | note | expand => exact hedges
  | @record req parent kind child strength e hreq hadds he hid hnew hprim =>
    obtain rfl := hasked req hreq
    intro d hd
    rw [eq_of_view State.records State.edges (fun _ => rfl) (records_follow ..)] at hd
    rcases List.mem_append.mp (Array.toList_push ▸ hd) with hd | hd
    · exact hedges d hd
    · obtain rfl := List.mem_singleton.mp hd
      exact ⟨_, _, _, _, _, obeys_record hs.performed hadds he hnew hprim hg⟩
  | resolve =>
    rw [eq_of_view State.records State.edges (fun _ => rfl) (records_resolve ..)]
    exact hedges

/-- A request that is performed is served. -/
theorem wp_perform_served (hs : Served h options reqs reqs s) (req : Request) :
    WP (perform h options req) True s fun _ s' =>
      Served h options (reqs ++ [req]) (reqs ++ [req]) s' := by
  have hspec : WP (perform h options req) True s fun _ s' =>
      Moves h options (· = req) (fun _ => False) s s' ∧ _ :=
    perform_spec hs.indexed rfl (.inr trivial)
  refine hspec.mono ?_
  rintro _ s' ⟨hm, hp, -⟩
  have hnext : Served h options reqs (reqs ++ [req]) s :=
    ⟨hs.indexed, hs.performed, fun e he => by
      obtain ⟨i, parent, kind, child, strength, ho⟩ := hs.edges e he
      exact ⟨i, parent, kind, child, strength, ho.append [req]⟩⟩
  have hs' : Served h options reqs (reqs ++ [req]) s' :=
    hm.keep (fun hm => hm.served fun _ hreq => by rw [hreq]) hnext
  refine ⟨hs'.indexed, fun earlier hearlier => ?_, hs'.edges⟩
  rcases List.mem_append.mp hearlier with hearlier | hearlier
  · exact hs'.performed earlier hearlier
  · rw [List.mem_singleton.mp hearlier]
    exact hp

theorem tracks_served :
    Tracks h options given fun reqs s => Served h options reqs reqs s where
  init := ⟨.init h, by simp, by simp⟩
  indexed hs := hs.indexed
  move hm hs := hm.served (fun _ => False.elim) hs
  perform req hs := wp_perform_served hs req

/-- What was first asked for is recorded in that way. -/
theorem Served.exists_obeys (hs : Served h options reqs reqs s) (ht : Traced asked given s)
    (hfirst : AddsFirst s.interner reqs parent kind child strength)
    (hidentity : child.hasIdentity = true) :
    ∃ e ∈ s.edges.toList, ∃ id i, e.child.node? = some id ∧ s.interner.Names child id ∧
      Obeys options s reqs e i parent kind child strength := by
  obtain ⟨i, hfirst⟩ := hfirst
  obtain ⟨req, hreq, hadds⟩ := hfirst.adds
  obtain ⟨parentId, child?, hparent, hends, hrecorded⟩ :=
    (hs.performed req (List.mem_of_getElem? hreq)).notes hadds
  obtain ⟨id, rfl⟩ : ∃ id, child? = some id := Option.isSome_iff_exists.mp
    ((isSome_of_endsAt hends).trans hidentity)
  have hchild := (eq_some_iff_of_endsAt hends id).mp rfl
  obtain ⟨e, he, hparentId, rfl, hnode⟩ := ht.recorded _ _ _ (hrecorded nofun)
  obtain ⟨j, parent', kind', child', strength', ho⟩ := hs.edges e he
  -- the reference that is recorded under this key is the one that was asked for
  have hlawful := hs.indexed.lawful
  cases hlawful.eq_of_names ho.records.parent (hparentId ▸ hparent)
  cases hlawful.eq_of_names (ho.records.child.names hnode) hchild
  obtain rfl : kind' = e.kind := ho.records.kind.symm
  obtain rfl := ho.first.unique hfirst
  exact ⟨e, he, id, j, hnode, hchild, ho⟩

/-- A reference that is first asked for strongly carries strength: if its parent is
strongly reached, its child is. -/
theorem strongly_of_adds_first
    (hexec : exec (search h options analyzers target held) {} = (.ok g, s))
    (hfirst : AddsFirst s.interner (s.agenda.toList.flatMap (requestsOf h analyzers)) parent kind
      child .strong)
    (hidentity : child.hasIdentity = true) {parentId : NodeId}
    (hparent : s.interner.Names (.object parent) parentId)
    (hstrongly : g.ReachesStrongly parentId) :
    ∃ childId, s.interner.Names child childId ∧ g.ReachesStrongly childId := by
  obtain ⟨id, hf, -, rfl⟩ := finished_of_exec hexec
  have hserved := (tracks_served.search target).of_exec_eq_ok hexec
  obtain ⟨e, he, childId, i, hnode, hchild, ho⟩ :=
    hserved.exists_obeys hf.moves.traced hfirst hidentity
  have hs := hf.concluded
  have hspreads := fun id' => hs.sound.coherent.strong_iff_spreads hs.drained id'
  refine ⟨childId, hchild, (hs.strong_iff id childId).mp ((hspreads childId).mpr ?_)⟩
  have hρ : s.HasRule ⟨[e.parent], childId, e.id, true⟩ :=
    ho.counts (fun _ => rfl) _ (by rw [ruleBy?, hnode]; rfl)
  refine .rule hρ (fun _ => rfl) fun owner howner => ?_
  rw [List.mem_singleton.mp howner, ho.records.parent.unique hparent]
  exact (hspreads parentId).mp ((hs.strong_iff id parentId).mpr hstrongly)

/-! ### Two requests for one reference -/

/-- Analyzers by which each object asks for one reference to the second object, with
one strength after another. -/
def peers (strengths : List Strength) : AnalyzerTable := fun _ =>
  some fun _ ref => strengths.map (.edge ref (.slot "[[Peer]]") (.object ⟨1⟩))

/-- A search for the second object where the first one is held. -/
def searchPeers (strengths : List Strength) : Except Abrupt Graph × State :=
  exec (search twoObjects {} (peers strengths) (.object ⟨1⟩) [.object ⟨0⟩]) {}

/-- What is published of two objects that refer to the second one. -/
def peerGraph (strong : Bool) : Graph where
  target := ⟨.object, 1⟩
  nodes := [⟨⟨.object, 0⟩, "Object", true⟩, ⟨⟨.object, 1⟩, "Object", false⟩]
  edges := [⟨0, ⟨.object, 0⟩, .node ⟨.object, 1⟩, .slot "[[Peer]]", strong, []⟩,
    ⟨1, ⟨.object, 1⟩, .node ⟨.object, 1⟩, .slot "[[Peer]]", strong, []⟩]
  confirmations := if strong then [⟨⟨.object, 1⟩, [⟨.object, 0⟩], 0, true⟩] else []
  entries := []
  succeeded := strong

/-- What the search publishes, the objects that it expands, and their ids. -/
def peerFindings (outcome : Except Abrupt Graph × State) :
    Except Abrupt Graph × List ObjectRef × Option NodeId × Option NodeId :=
  (outcome.1, outcome.2.agenda.toList, outcome.2.interner.id? (.object ⟨0⟩),
    outcome.2.interner.id? (.object ⟨1⟩))

/-- Both objects are expanded, and whichever strength is asked for first decides. -/
theorem peerFindings_searchPeers (strongFirst : Bool) :
    peerFindings (searchPeers (if strongFirst then [.strong, .weak] else [.weak, .strong])) =
      (.ok (peerGraph strongFirst), [⟨0⟩, ⟨1⟩], some ⟨.object, 0⟩, some ⟨.object, 1⟩) := by
  cases strongFirst <;>
    simp [peerFindings, searchPeers, peerGraph, peers, search, hold, register, discover, identity,
      Identity.ofValue, Identity.kind, builtinName, Interner.intern, Interner.id?,
      Interner.empty, Interner.size, twoObjects, Heap.kind, Heap.object, Heap.size,
      ObjectKind.builtin, BuiltinKind.name, expandWithin, expand, requestsFor, perform, addEdge,
      markRecorded, ownerIds, freshEdge, describe, carry, State.propagate, State.push,
      State.drain, State.drainBound, State.drainWithin, State.resolve, State.confirm,
      State.settleReached, State.settleStrong, JointIndex.settle, JointIndex.settleAt,
      Std.HashMap.getElem_insert, Std.HashMap.getD_insert, State.graph, Except.map, bne,
      beq_eq_decide]

/-- The second object is strongly reached where the reference is asked for strongly
first, and weakly afterwards. -/
theorem strongly_of_adds_first_peers :
    ∃ s, searchPeers [.strong, .weak] = (.ok (peerGraph true), s) ∧
      ∃ childId, s.interner.Names (.object ⟨1⟩) childId ∧
        (peerGraph true).ReachesStrongly childId := by
  have hfindings := peerFindings_searchPeers true
  rw [if_pos rfl] at hfindings
  generalize hsearch : searchPeers [.strong, .weak] = outcome at hfindings ⊢
  obtain ⟨g, s⟩ := outcome
  simp only [peerFindings, Prod.mk.injEq] at hfindings
  obtain ⟨rfl, hagenda, hholder, -⟩ := hfindings
  have hfirst : AddsFirst s.interner
      ([⟨0⟩, ⟨1⟩].flatMap (requestsOf twoObjects (peers [.strong, .weak])))
      ⟨0⟩ (.slot "[[Peer]]") (.object ⟨1⟩) .strong :=
    ⟨0, ⟨_, rfl, .edge⟩, fun j hj => absurd hj (Nat.not_lt_zero j)⟩
  rw [← hagenda] at hfirst
  exact ⟨s, rfl, strongly_of_adds_first hsearch hfirst rfl ⟨_, rfl, hholder⟩ (by decide)⟩

/-- It is not strongly reached where the reference is asked for weakly first, even
though it is asked for strongly afterwards, by an object that is held. -/
theorem not_strongly_of_weak_first :
    ∃ s, searchPeers [.weak, .strong] = (.ok (peerGraph false), s) ∧
      (∃ req ∈ s.agenda.toList.flatMap (requestsOf twoObjects (peers [.weak, .strong])),
        req.Adds s.interner ⟨0⟩ (.slot "[[Peer]]") (.object ⟨1⟩) .strong) ∧
      s.interner.Names (.object ⟨0⟩) ⟨.object, 0⟩ ∧
      (peerGraph false).ReachesStrongly ⟨.object, 0⟩ ∧
      s.interner.Names (.object ⟨1⟩) ⟨.object, 1⟩ ∧
      ¬(peerGraph false).ReachesStrongly ⟨.object, 1⟩ := by
  have hfindings := peerFindings_searchPeers false
  rw [if_neg Bool.false_ne_true] at hfindings
  generalize hsearch : searchPeers [.weak, .strong] = outcome at hfindings ⊢
  obtain ⟨g, s⟩ := outcome
  simp only [peerFindings, Prod.mk.injEq] at hfindings
  obtain ⟨rfl, hagenda, hholder, hpeer⟩ := hfindings
  refine ⟨s, rfl, ?_, ⟨_, rfl, hholder⟩, by decide, ⟨_, rfl, hpeer⟩, by decide⟩
  rw [hagenda]
  exact ⟨_, List.mem_cons_of_mem _ List.mem_cons_self, .edge⟩

end Search
end Retention
