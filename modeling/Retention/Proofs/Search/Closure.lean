import Retention.Proofs.Search.Depiction
import Retention.Proofs.Search.Shifting

/-!
# The ids of a graph

Every id that a published graph mentions is that of one of its nodes, the nodes
are numbered in order, and references and entries share one numbering without
gaps (`Graph.Closed`). That is so whatever the analyzers do, even if they go on
after a request that failed (`closed_of_exec`).

* `Ledger`: the numbering of references and entries;
* `Charted`: what is known about liveness is about nodes of values.
-/

namespace Retention

/-- An id is that of a node. -/
def Graph.IsNode (g : Graph) (id : NodeId) : Prop := ∃ n ∈ g.nodes, n.id = id

/-- The ids of a graph whose nodes are those of the given values. -/
structure Graph.Closed (g : Graph) (values : List Identity) (held : List Value) : Prop where
  nodup : values.Nodup
  length_nodes : g.nodes.length = values.length
  /-- The node of a value has the number and the kind of the value, and is held
  if and only if the value is. -/
  node : ∀ (i : Nat) n v, g.nodes[i]? = some n → values[i]? = some v →
    n.id = ⟨v.kind, i⟩ ∧ (n.held = true ↔ v.toValue ∈ held)
  given : ∀ v ∈ held, ∀ i, Identity.ofValue v = .ok i → i ∈ values
  target : g.IsNode g.target
  edge : ∀ e ∈ g.edges, g.IsNode e.parent ∧ (∀ id, e.child = .node id → g.IsNode id) ∧
    ∀ o ∈ e.owners, g.IsNode o
  entry : ∀ c ∈ g.entries, g.IsNode c.collection ∧ (∀ id, c.key = .node id → g.IsNode id) ∧
    ∀ id, c.value? = some (.node id) → g.IsNode id
  confirmation : ∀ c ∈ g.confirmations, g.IsNode c.child ∧ ∀ o ∈ c.owners, g.IsNode o
  edgeIds : g.edges.Pairwise fun d e => d.id < e.id
  entryIds : g.entries.Pairwise fun c d => c.id < d.id
  /-- No reference has the id of an entry. -/
  apart : ∀ e ∈ g.edges, ∀ c ∈ g.entries, e.id ≠ c.id
  /-- All numbers up to how many there are of both are used. -/
  ids : (g.edges.map Edge.id ++ g.entries.map CollectionEntry.id).Perm
    (List.range (g.edges.length + g.entries.length))

namespace Search

variable {h : Heap} {options : Options} {given : Identity → Prop} {s s' : State} {id : NodeId}

/-! ## References and entries -/

/-- The nodes of a reference are those of values. -/
structure State.KnowsEdge (s : State) (e : Edge) : Prop where
  parent : s.Knows e.parent
  child : s.KnowsEnd e.child
  owners : ∀ o ∈ e.owners, s.Knows o

theorem knowsEdge_of_records {e : Edge} {parent : ObjectRef} {kind : EdgeKind} {child : Value}
    {strength : Strength} (he : e.Records s.interner parent kind child strength) :
    s.KnowsEdge e where
  parent := knows_of_names he.parent
  child := knowsEnd_of_denotes he.child
  owners o ho := by
    have howns := he.owners
    cases strength with
    | strong | weak =>
      rw [show e.owners = [] from howns] at ho
      cases ho
    | joint owners =>
      have hnames : List.Forall₂ s.interner.Names owners e.owners := howns
      obtain ⟨v, -, hv⟩ := (exists_of_forall₂ hnames).2 o ho
      exact knows_of_names hv

/-- References and entries mention nodes of values, and are numbered in one order. -/
structure Ledger (s : State) : Prop where
  edges : ∀ e ∈ s.edges.toList, s.KnowsEdge e
  entries : ∀ c ∈ s.entries.toList, s.KnowsEntry c
  edgeIds : s.edges.toList.Pairwise fun d e => d.id < e.id
  entryIds : s.entries.toList.Pairwise fun c d => c.id < d.id
  ids : (s.edges.toList.map Edge.id ++ s.entries.toList.map CollectionEntry.id).Perm
    (List.range s.nextEdge)

namespace Ledger

theorem init : Ledger {} where
  edges := by simp
  entries := by simp
  edgeIds := .nil
  entryIds := .nil
  ids := by simp

variable (hl : Ledger s)
include hl

theorem edge_lt {e : Edge} (he : e ∈ s.edges.toList) : e.id < s.nextEdge :=
  List.mem_range.mp (hl.ids.subset (List.mem_append_left _ (List.mem_map_of_mem he)))

theorem entry_lt {c : CollectionEntry} (hc : c ∈ s.entries.toList) : c.id < s.nextEdge :=
  List.mem_range.mp (hl.ids.subset (List.mem_append_right _ (List.mem_map_of_mem hc)))

/-- There are as many references and entries as numbers were given out. -/
theorem length_add : s.edges.toList.length + s.entries.toList.length = s.nextEdge := by
  have hlen := hl.ids.length_eq
  rwa [List.length_append, List.length_map, List.length_map, List.length_range] at hlen

theorem apart {e : Edge} {c : CollectionEntry} (he : e ∈ s.edges.toList)
    (hc : c ∈ s.entries.toList) : e.id ≠ c.id := by
  have hnodup := hl.ids.nodup_iff.mpr List.nodup_range
  exact (List.nodup_append.mp hnodup).2.2 _ (List.mem_map_of_mem he) _ (List.mem_map_of_mem hc)

theorem congr (hg : Grows s s') (hedges : s'.edges = s.edges) (hentries : s'.entries = s.entries)
    (hnext : s'.nextEdge = s.nextEdge) : Ledger s' where
  edges e he := by
    obtain ⟨hp, hc, ho⟩ := hl.edges e (hedges ▸ he)
    exact ⟨hg.knows hp, hg.knowsEnd hc, fun o hmem => hg.knows (ho o hmem)⟩
  entries c hc := hg.knowsEntry (hl.entries c (hentries ▸ hc))
  edgeIds := hedges ▸ hl.edgeIds
  entryIds := hentries ▸ hl.entryIds
  ids := by
    rw [hedges, hentries, hnext]
    exact hl.ids

theorem record {e : Edge} (he : s.KnowsEdge e) (hid : e.id = s.nextEdge) : Ledger (s.record e) := by
  have hedges : (s.record e).edges.toList = s.edges.toList ++ [e] := Array.toList_push
  exact {
    edges := fun d hd => by
      rw [hedges, List.mem_append, List.mem_singleton] at hd
      rcases hd with hd | rfl
      · exact ⟨(hl.edges d hd).parent, (hl.edges d hd).child, (hl.edges d hd).owners⟩
      · exact ⟨he.parent, he.child, he.owners⟩
    entries := fun c hc => ⟨(hl.entries c hc).collection, (hl.entries c hc).key,
      (hl.entries c hc).value⟩
    edgeIds := by
      rw [hedges, List.pairwise_append]
      refine ⟨hl.edgeIds, List.pairwise_singleton .., fun d hd d' hd' => ?_⟩
      rw [List.mem_singleton.mp hd', hid]
      exact hl.edge_lt hd
    entryIds := hl.entryIds
    ids := by
      show ((s.record e).edges.toList.map Edge.id ++ s.entries.toList.map _).Perm
        (List.range (s.nextEdge + 1))
      rw [hedges, List.map_append, List.range_succ, List.append_assoc, List.map_singleton, hid]
      refine (List.perm_append_comm.append_left _).trans ?_
      rw [← List.append_assoc]
      exact hl.ids.append_right _ }

theorem enter {c : CollectionEntry} (hc : s.KnowsEntry c) (hid : c.id = s.nextEdge) :
    Ledger { s with nextEdge := s.nextEdge + 1, entries := s.entries.push c } := by
  have hentries : (s.entries.push c).toList = s.entries.toList ++ [c] := Array.toList_push
  exact {
    edges := fun e he => ⟨(hl.edges e he).parent, (hl.edges e he).child, (hl.edges e he).owners⟩
    entries := fun d hd => by
      rw [hentries, List.mem_append, List.mem_singleton] at hd
      rcases hd with hd | rfl
      · exact ⟨(hl.entries d hd).collection, (hl.entries d hd).key, (hl.entries d hd).value⟩
      · exact ⟨hc.collection, hc.key, hc.value⟩
    edgeIds := hl.edgeIds
    entryIds := by
      rw [hentries, List.pairwise_append]
      refine ⟨hl.entryIds, List.pairwise_singleton .., fun d hd d' hd' => ?_⟩
      rw [List.mem_singleton.mp hd', hid]
      exact hl.entry_lt hd
    ids := by
      show (s.edges.toList.map Edge.id ++ (s.entries.push c).toList.map _).Perm
        (List.range (s.nextEdge + 1))
      rw [hentries, List.map_append, ← List.append_assoc, List.range_succ, List.map_singleton, hid]
      exact hl.ids.append_right _ }

end Ledger

theorem Shift.ledger (hs : Shift h options given s s') (hl : Ledger s) : Ledger s' := by
  have hg := hs.grows
  cases hs with
  | enter hc hid => exact hl.enter hc hid
  | mark => exact hl.congr hg rfl rfl rfl
  | move hm =>
    cases hm with
    | discover hd _ =>
      rw [← hd.frame] at hg ⊢
      exact hl.congr hg rfl rfl rfl
    | hold | note | expand => exact hl.congr hg rfl rfl rfl
    | @record req parent kind child strength e hreq hadds he hid =>
      have hr := records_follow options (s.record e) e strength
      refine (hl.record (knowsEdge_of_records he) hid).congr
        (.of_records hr (log_prefix_follow ..)) ?_ ?_ ?_
      · exact eq_of_view State.records State.edges (fun _ => rfl) hr
      · exact eq_of_view State.records State.entries (fun _ => rfl) hr
      · exact eq_of_view State.records State.nextEdge (fun _ => rfl) hr
    | enter hreq => cases hreq
    | @resolve r =>
      have hr := records_resolve s r
      refine hl.congr hg ?_ ?_ ?_
      · exact eq_of_view State.records State.edges (fun _ => rfl) hr
      · exact eq_of_view State.records State.entries (fun _ => rfl) hr
      · exact eq_of_view State.records State.nextEdge (fun _ => rfl) hr

/-! ## Liveness -/

/-- A rule is about nodes of values. -/
structure State.KnowsRule (s : State) (ρ : Rule) : Prop where
  child : s.Knows ρ.child
  premises : ∀ o ∈ ρ.premises, s.Knows o

/-- What is known about liveness is about nodes of values: the rules by which it
spreads, and the nodes that are held, which are those of the values given. -/
structure Charted (given : Identity → Prop) (s : State) : Prop where
  sound : Sound s
  logsHeld : s.LogsHeld
  rules : ∀ ρ, s.HasRule ρ → s.KnowsRule ρ
  held : ∀ r ∈ s.log, r.edge? = none → ∃ i, given i ∧ s.interner.id? i = some r.child

namespace Charted

theorem init : Charted given {} where
  sound := .init
  logsHeld := .init
  rules := by simp [State.HasRule, JointIndex.references]
  held := by simp [State.log]

/-- A rule is new only if it is about nodes of values, and nothing new is held. -/
theorem carry (hc : Charted given s) (hsound : Sound s') (hheld : s'.LogsHeld) (hg : Grows s s')
    (hrules : ∀ ρ, s'.HasRule ρ → s.HasRule ρ ∨ s.KnowsRule ρ) {news : List Resolution}
    (hlog : s'.log = s.log ++ news) (hnews : ∀ r ∈ news, r.edge? ≠ none) : Charted given s' where
  sound := hsound
  logsHeld := hheld
  rules ρ hρ := by
    obtain ⟨hchild, hpremises⟩ := (hrules ρ hρ).elim (hc.rules ρ) id
    exact ⟨hg.knows hchild, fun o ho => hg.knows (hpremises o ho)⟩
  held r hr hnone := by
    rw [hlog] at hr
    obtain ⟨i, hi, hid⟩ :=
      hc.held r ((List.mem_append.mp hr).resolve_right fun hr => hnews r hr hnone) hnone
    exact ⟨i, hi, hg.ids hid⟩

/-- The rule of a reference is about the nodes of the reference. -/
theorem knowsRule_of_ruleBy? {e : Edge} {strength : Strength} {ρ : Rule} (he : s.KnowsEdge e)
    (hρ : ruleBy? e strength = some ρ) : s.KnowsRule ρ := by
  obtain ⟨child, hchild, rfl⟩ := Option.map_eq_some_iff.mp hρ
  refine ⟨he.child child hchild, fun o ho => ?_⟩
  cases strength with
  | strong | weak =>
    rw [List.mem_singleton.mp ho]
    exact he.parent
  | joint owners => exact he.owners o ho

/-- A confirmation is about nodes of values. -/
theorem knows_of_mem_confirmations (hc : Charted given s) {c : Confirmation}
    (hmem : c ∈ s.confirmations.toList) : s.Knows c.child ∧ ∀ o ∈ c.owners, s.Knows o := by
  obtain ⟨r, hr, hrc⟩ := (hc.sound.confirms.mem_iff c).mp hmem
  obtain ⟨edge, hedge, rfl⟩ := Option.map_eq_some_iff.mp hrc
  have hlog := List.mem_of_mem_take (mem_of_proofOf hr)
  rcases hc.sound.coherent.sound r hlog with hheld | ⟨ρ, hρ, hby⟩
  · rw [hheld.1] at hedge
    cases hedge
  · rw [hby.child, hby.owners]
    exact ⟨(hc.rules ρ hρ).child, (hc.rules ρ hρ).premises⟩

end Charted

theorem Shift.charted (hs : Shift h options given s s') (hi : Indexed h s)
    (hc : Charted given s) : Charted given s' := by
  have hg := hs.grows
  cases hs with
  | enter | mark =>
    exact hc.carry (hc.sound.of_liveness rfl rfl) hc.logsHeld hg (fun _ => .inl)
      (List.append_nil _).symm (by simp)
  | move hm =>
    have hsound := hm.sound hc.sound
    have hheld := hm.logsHeld hi hc.logsHeld
    cases hm with
    | discover hd _ =>
      rw [← hd.frame] at hg hsound hheld ⊢
      exact hc.carry hsound hheld hg (fun _ => .inl) (List.append_nil _).symm (by simp)
    | note | expand =>
      exact hc.carry hsound hheld hg (fun _ => .inl) (List.append_nil _).symm (by simp)
    | @hold i id' hv hid hlog =>
      refine ⟨hsound, hheld, fun ρ hρ => ⟨(hc.rules ρ hρ).child, (hc.rules ρ hρ).premises⟩,
        fun r hr hnone => ?_⟩
      rw [State.keep, State.push_eq, State.log_pushAll] at hr
      rcases List.mem_append.mp hr with hr | hr
      · exact hc.held r hr hnone
      · rw [List.mem_singleton.mp hr]
        exact ⟨i, hv, hid⟩
    | @record req parent kind child strength e hreq hadds he hid =>
      obtain ⟨news, hlog, hnews⟩ := exists_log_follow options (s.record e) e strength
      refine hc.carry hsound hheld hg (fun ρ hρ => ?_) hlog hnews
      exact ((hasRule_follow ρ).mp hρ).imp_right fun hnew =>
        Charted.knowsRule_of_ruleBy? (knowsEdge_of_records he) hnew.1
    | enter hreq => cases hreq
    | @resolve r =>
      obtain ⟨news, hlog, hnews⟩ := exists_log_resolve s r
      exact hc.carry hsound hheld hg (fun ρ hρ => .inl ((hasRule_resolve s r ρ).mp hρ)) hlog hnews

/-! ## The graph -/

variable {registry : Registry} {target : Value} {held : List Value} {g : Graph}

theorem isNode_of_knows (hi : Indexed h s) (target : NodeId) (hid : s.Knows id) :
    (s.graph target).IsNode id := by
  obtain ⟨i, hid⟩ := hid
  obtain ⟨n, hn, rfl⟩ := hi.exists_node hid
  exact ⟨n, List.mem_of_getElem? hn, rfl⟩

/-- A node has the number and the kind of its value. -/
theorem Indexed.id_of_getElem? (hi : Indexed h s) {i : Nat} {n : GraphNode} {v : Identity}
    (hn : s.nodes.toList[i]? = some n) (hv : s.interner.values.toList[i]? = some v) :
    n.id = ⟨v.kind, i⟩ := by
  have hnode := hi.nodes i
  rw [hn, hv] at hnode
  exact Option.some.inj hnode

/-- A node is held if and only if its value is. -/
theorem Charted.held_iff (hc : Charted (Given held) s) (hi : Indexed h s)
    (hgiven : ∀ i, Given held i → s.Holds i) {i : Nat} {n : GraphNode} {v : Identity}
    (hn : s.nodes.toList[i]? = some n) (hv : s.interner.values.toList[i]? = some v) :
    n.held = true ↔ v.toValue ∈ held := by
  have hid := hi.id_of_getElem? hn hv
  have hname : s.interner.id? v = some n.id := (hi.lawful v n.id).mpr (by rw [hid]; exact ⟨hv, rfl⟩)
  constructor
  · intro hheld
    obtain ⟨r, hr, hnone, hchild⟩ := (hc.logsHeld n.id).mp ⟨n, List.mem_of_getElem? hn, hheld, rfl⟩
    obtain ⟨w, hw, hwid⟩ := hc.held r hr hnone
    rw [hchild] at hwid
    rwa [← hi.lawful.injective hwid hname]
  · intro hmem
    obtain ⟨id, hid', hlog, -⟩ := hgiven v hmem
    obtain ⟨m, hm, hheld, hmid⟩ := (hc.logsHeld id).mpr ⟨_, hlog, rfl, rfl⟩
    -- a held node of that id is the node: ids tell where nodes are
    obtain ⟨j, hj⟩ := List.mem_iff_getElem?.mp hm
    have hnode := hi.nodes j
    rw [hj] at hnode
    cases hw : s.interner.values.toList[j]? with
    | none =>
      rw [hw] at hnode
      cases hnode
    | some w =>
      have hplace := hi.id_of_getElem? hj hw
      rw [hmid, Option.some.inj (hid'.symm.trans hname), hid] at hplace
      obtain rfl : i = j := congrArg NodeId.index hplace
      cases hn.symm.trans hj
      exact hheld

/-- The graph of a search is closed, whatever its analyzers do. -/
theorem closed_of_shifts (hs : Shifts h options (Given held) {} s)
    (hgiven : ∀ i, Given held i → s.Holds i) {targetId : NodeId} (htarget : s.Knows targetId) :
    (s.graph targetId).Closed s.interner.values.toList held := by
  have hi := hs.indexed (.init h)
  have hl : Ledger s := hs.keep Shift.ledger .init
  have hc : Charted (Given held) s :=
    (hs.keep (I := fun s => Indexed h s ∧ Charted (Given held) s)
      (fun hs hI => ⟨hs.indexed hI.1, hs.charted hI.1 hI.2⟩) ⟨.init h, .init⟩).2
  have hnode : ∀ {id}, s.Knows id → (s.graph targetId).IsNode id := isNode_of_knows hi targetId
  exact {
    nodup := hi.lawful.nodup
    length_nodes := hi.length_nodes
    node := fun i n v hn hv => ⟨hi.id_of_getElem? hn hv, hc.held_iff hi hgiven hn hv⟩
    given := fun v hv i hov => by
      rw [Identity.ofValue_eq_ok.mp hov] at hv
      obtain ⟨id, hid, -⟩ := hgiven i hv
      exact hi.lawful.mem_values hid
    target := hnode htarget
    edge := fun e he => by
      obtain ⟨hp, hc, ho⟩ := hl.edges e he
      exact ⟨hnode hp, fun id hid => hnode (hc id (by rw [hid]; rfl)),
        fun o hmem => hnode (ho o hmem)⟩
    entry := fun c hmem => by
      obtain ⟨hcoll, hkey, hvalue⟩ := hl.entries c hmem
      exact ⟨hnode hcoll, fun id hid => hnode (hkey id (by rw [hid]; rfl)),
        fun id hid => hnode (hvalue _ hid id rfl)⟩
    confirmation := fun c hmem => by
      obtain ⟨hchild, howners⟩ := hc.knows_of_mem_confirmations hmem
      exact ⟨hnode hchild, fun o ho => hnode (howners o ho)⟩
    edgeIds := hl.edgeIds
    entryIds := hl.entryIds
    apart := fun e he c hmem => hl.apart he hmem
    ids := by
      have hids := hl.ids
      rwa [← hl.length_add] at hids }

/-- With the built-in analyzers, the symbols that key properties have nodes, too. -/
theorem isNode_of_symbolValue
    (hexec : exec (search h options .builtin target held) {} = (.ok g, s)) {e : Edge}
    (he : e ∈ g.edges) {symbol : NodeId} (hk : e.kind = .symbolValue symbol) : g.IsNode symbol := by
  have hx := (search_explored target held).of_exec_eq_ok hexec
  obtain ⟨id, hf, -, rfl⟩ := finished_of_exec hexec
  obtain ⟨ref, -, o, child, strength, -, hr, -⟩ := hx.exists_references he
  rw [hk] at hr
  cases hr with
  | symbolValue hp hkey hid => exact isNode_of_knows hf.indexed id ⟨_, hid⟩

/-- Every id in the graph of a search that answers is that of a node, nodes are
numbered by their values, and references and entries by one count without gaps,
whatever the analyzers do and even if they go on after requests that failed. With
the built-in analyzers, the symbols that key properties have nodes, too. -/
theorem closed_of_exec (hexec : exec (searchBy h options registry target held) {} = (.ok g, s)) :
    g.Closed s.interner.values.toList held ∧
      s.interner.Names target g.target ∧
      (registry = .ofTable .builtin →
        ∀ e ∈ g.edges, ∀ symbol, e.kind = .symbolValue symbol → g.IsNode symbol) := by
  obtain ⟨hs, hgiven, id, hid, rfl⟩ := (searchBy_shifts target held).of_exec_eq_ok hexec
  refine ⟨closed_of_shifts hs hgiven (knows_of_names hid), hid, ?_⟩
  rintro rfl e he symbol hk
  rw [← search_eq_searchBy] at hexec
  exact isNode_of_symbolValue hexec he hk

/-- Analyzers by which each object asks for a reference to the second one, jointly
with an object that is not there, and then for another that needs no owner. -/
def stubborn : Registry := fun _ => some fun _ _ ref =>
  .ask (.edge ref (.slot "[[Peer]]") (.object ⟨1⟩) (.joint [.object ⟨7⟩])) fun _ =>
    .ask (.edge ref (.slot "[[Other]]") (.object ⟨1⟩) .strong) fun _ => .done

/-- What is published of two objects that refer to the second one. -/
def stubbornGraph : Graph where
  target := ⟨.object, 1⟩
  nodes := [⟨⟨.object, 0⟩, "Object", true⟩, ⟨⟨.object, 1⟩, "Object", false⟩]
  edges := [⟨0, ⟨.object, 0⟩, .node ⟨.object, 1⟩, .slot "[[Other]]", true, []⟩,
    ⟨1, ⟨.object, 1⟩, .node ⟨.object, 1⟩, .slot "[[Other]]", true, []⟩]
  confirmations := [⟨⟨.object, 1⟩, [⟨.object, 0⟩], 0, true⟩]
  entries := []
  succeeded := true

/-- Each object refers to the second one as its analyzer asked after the failure. -/
theorem exec_searchBy_stubborn :
    (exec (searchBy twoObjects {} stubborn (.object ⟨1⟩) [.object ⟨0⟩]) {}).1 =
      .ok stubbornGraph := by
  simp [stubborn, stubbornGraph, searchBy, hold, register, discover, identity, Identity.ofValue,
    Identity.kind, builtinName, Interner.intern, Interner.id?, Interner.empty, Interner.size,
    twoObjects, Heap.kind, Heap.object, Heap.size, ObjectKind.builtin, BuiltinKind.name,
    expandAll, expandBy, analyze, answer, exec_attempt, perform, addEdge, markRecorded, ownerIds,
    nodeFor, freshEdge, describe, carry, State.propagate, State.push, State.drain,
    State.drainBound, State.drainWithin, State.resolve, State.confirm, State.settleReached,
    State.settleStrong, JointIndex.settle, JointIndex.settleAt, Std.HashMap.getElem_insert,
    Std.HashMap.getD_insert, State.graph, Except.map, bne, beq_eq_decide]

theorem closed_of_exec_stubborn :
    ∃ s, exec (searchBy twoObjects {} stubborn (.object ⟨1⟩) [.object ⟨0⟩]) {} =
        (.ok stubbornGraph, s) ∧
      stubbornGraph.Closed s.interner.values.toList [.object ⟨0⟩] := by
  have hanswer := exec_searchBy_stubborn
  generalize hexec : exec (searchBy twoObjects {} stubborn (.object ⟨1⟩) [.object ⟨0⟩]) {} = outcome
    at hanswer ⊢
  obtain ⟨answer, s⟩ := outcome
  obtain rfl : answer = .ok stubbornGraph := hanswer
  exact ⟨s, rfl, (closed_of_exec hexec).1⟩

end Search
end Retention
