import Retention.Proofs.Graph.Live
import Retention.Proofs.Search.Moves

/-!
# References and the spread of liveness

Liveness spreads along the references that a search publishes: each reference
that counts is a rule, and there are no others (`Linked`). The nodes that are
reached, and those strongly reached, are then the nodes that the published
graph says are alive (`Linked.reached_iff_live`, `Linked.strong_iff_live`).
-/

namespace Retention

/-- The rule that a reference to a node is. -/
def Edge.rule? (e : Edge) : Option Search.Rule :=
  e.child.node?.map fun child => ⟨e.premises, child, e.id, e.strong⟩

/-- A joint reference has an owner. -/
def Strength.isOwned : Strength → Bool
  | .joint owners => !owners.isEmpty
  | .strong | .weak => true

/-- The joint references that a request asks for have owners. -/
def Request.IsOwned : Request → Prop
  | .edge _ _ _ strength => strength.isOwned = true
  | .entry _ _ _ keyStrength value? =>
    keyStrength.isOwned = true ∧
      ∀ value strength, value? = some (value, strength) → strength.isOwned = true
  | _ => True

theorem Request.Adds.isOwned {t : Interner} {req : Request} {parent : ObjectRef} {kind : EdgeKind}
    {child : Value} {strength : Strength} (ha : req.Adds t parent kind child strength)
    (ho : req.IsOwned) : strength.isOwned = true := by
  cases ha with
  | edge => exact ho
  | entryKey => exact ho.1
  | entryValue => exact ho.2 _ _ rfl
  | symbolKey => rfl
  | symbolValue => rfl

namespace Search

/-- The held nodes are those that the log says are held. -/
def State.LogsHeld (s : State) : Prop :=
  ∀ id, (∃ n ∈ s.nodes.toList, n.held = true ∧ n.id = id) ↔
    ∃ r ∈ s.log, r.edge? = none ∧ r.child = id

/-- The references recorded are the rules, and the held nodes are those that the
log says are held. -/
structure Linked (options : Options) (s : State) : Prop where
  id_lt : ∀ e ∈ s.edges.toList, e.id < s.nextEdge
  ids : s.edges.toList.Pairwise fun d e => d.id < e.id
  joint : ∀ e ∈ s.edges.toList, e.isJoint = true → e.strong = true
  rules : ∀ ρ, s.HasRule ρ ↔ ∃ e ∈ s.edges.toList, e.rule? = some ρ ∧
    (options.strongOnly = true → e.strong = true)
  held : s.LogsHeld

theorem State.LogsHeld.init : ({} : State).LogsHeld := by simp [State.LogsHeld, State.log]

theorem Linked.init (options : Options) : Linked options {} where
  id_lt := by simp
  ids := .nil
  joint := by simp
  rules := by simp [State.HasRule, JointIndex.references]
  held := .init

variable {h : Heap} {options : Options} {asked : Request → Prop} {given : Identity → Prop}
  {s s' : State}

/-- New resolutions that are no held nodes'. -/
theorem held_congr {news : List Resolution} (hlog : s'.log = s.log ++ news)
    (hnews : ∀ r ∈ news, r.edge? ≠ none) (id : NodeId) :
    (∃ r ∈ s'.log, r.edge? = none ∧ r.child = id) ↔ ∃ r ∈ s.log, r.edge? = none ∧ r.child = id := by
  rw [hlog]
  constructor
  · rintro ⟨r, hr, he, hc⟩
    exact ⟨r, (List.mem_append.mp hr).resolve_right fun hr => hnews r hr he, he, hc⟩
  · rintro ⟨r, hr, he, hc⟩
    exact ⟨r, List.mem_append_left _ hr, he, hc⟩

theorem State.LogsHeld.congr (hs : s.LogsHeld) (hnodes : s'.nodes = s.nodes)
    {news : List Resolution} (hlog : s'.log = s.log ++ news) (hnews : ∀ r ∈ news, r.edge? ≠ none) :
    s'.LogsHeld := fun id => by
  rw [hnodes, held_congr hlog hnews]
  exact hs id

theorem Linked.of_records (hl : Linked options s) (hr : s'.records = s.records)
    (hrules : ∀ ρ, s'.HasRule ρ ↔ s.HasRule ρ) {news : List Resolution}
    (hlog : s'.log = s.log ++ news) (hnews : ∀ r ∈ news, r.edge? ≠ none) : Linked options s' := by
  have hedges := eq_of_view State.records State.edges (fun _ => rfl) hr
  have hnext := eq_of_view State.records State.nextEdge (fun _ => rfl) hr
  have hnodes := eq_of_view State.records State.nodes (fun _ => rfl) hr
  refine ⟨?_, ?_, ?_, fun ρ => ?_, hl.held.congr hnodes hlog hnews⟩
  · rw [hedges, hnext]; exact hl.id_lt
  · rw [hedges]; exact hl.ids
  · rw [hedges]; exact hl.joint
  · rw [hrules, hedges]; exact hl.rules ρ

theorem hasRule_resolve (s : State) (r : Resolution) (ρ : Rule) :
    (s.next.resolve r).HasRule ρ ↔ s.HasRule ρ := by
  by_cases hnew : (s.isNewlyReached r || s.isNewlyStrong r) = true
  · exact (State.hasRule_resolve_of_new (s := s.next) hnew ρ).trans Iff.rfl
  · rw [Bool.not_eq_true, Bool.or_eq_false_iff] at hnew
    rw [State.resolve_of_not_new (s := s.next) hnew.1 hnew.2]
    exact Iff.rfl

theorem Linked.resolve (hl : Linked options s) (r : Resolution) :
    Linked options (s.next.resolve r) := by
  obtain ⟨news, hlog, hnews⟩ := exists_log_resolve s r
  exact hl.of_records (records_resolve s r) (hasRule_resolve s r) hlog hnews

/-- The node of an id is at the place that the id says. -/
theorem Indexed.exists_node (hi : Indexed h s) {v : Identity} {id : NodeId}
    (hid : s.interner.id? v = some id) : ∃ n, s.nodes.toList[id.index]? = some n ∧ n.id = id := by
  obtain ⟨hval, hkind⟩ := (hi.lawful v id).mp hid
  have hnode := hi.nodes id.index
  rw [hval, Option.map_some, ← hkind, Option.map_eq_some_iff] at hnode
  exact hnode

theorem mem_modify_held {nodes : List GraphNode} {i : Nat} {n₀ : GraphNode}
    (h₀ : nodes[i]? = some n₀) (id : NodeId) :
    (∃ n ∈ nodes.modify i fun n => { n with held := true }, n.held = true ∧ n.id = id) ↔
      (∃ n ∈ nodes, n.held = true ∧ n.id = id) ∨ n₀.id = id := by
  have hget : ∀ j : Nat, (nodes.modify i fun n => { n with held := true })[j]? =
      if i = j then some { n₀ with held := true } else nodes[j]? := fun j => by
    rw [List.getElem?_modify]
    by_cases hj : i = j
    · subst hj; rw [h₀, if_pos rfl]; simp
    · simp [hj]
  constructor
  · rintro ⟨n, hn, hh, rfl⟩
    obtain ⟨j, hj⟩ := List.mem_iff_getElem?.mp hn
    rw [hget] at hj
    split at hj
    · cases hj
      exact .inr rfl
    · exact .inl ⟨n, List.mem_of_getElem? hj, hh, rfl⟩
  · rintro (⟨n, hn, hh, rfl⟩ | rfl)
    · obtain ⟨j, hj⟩ := List.mem_iff_getElem?.mp hn
      by_cases hij : i = j
      · subst hij
        cases h₀.symm.trans hj
        exact ⟨_, List.mem_of_getElem? ((hget i).trans (if_pos rfl)), rfl, rfl⟩
      · exact ⟨n, List.mem_of_getElem? ((hget j).trans ((if_neg hij).trans hj)), hh, rfl⟩
    · exact ⟨_, List.mem_of_getElem? ((hget i).trans (if_pos rfl)), rfl, rfl⟩

theorem State.LogsHeld.keep (hs : s.LogsHeld) (hi : Indexed h s) {v : Identity} {id : NodeId}
    (hid : s.interner.id? v = some id) : (s.keep id).LogsHeld := fun id' => by
  have hlog : (s.keep id).log = s.log ++ [⟨id, [], none, true⟩] := by
    rw [State.keep, State.push_eq, State.log_pushAll]; rfl
  obtain ⟨n₀, hn₀, hid₀⟩ := hi.exists_node hid
  show (∃ n ∈ (s.nodes.modify id.index _).toList, _) ↔ _
  rw [Array.toList_modify, mem_modify_held hn₀, hs, hid₀, hlog]
  simp only [List.mem_append, List.mem_singleton, or_and_right, exists_or, exists_eq_left, true_and]

theorem Linked.keep (hl : Linked options s) (hi : Indexed h s) {v : Identity} {id : NodeId}
    (hid : s.interner.id? v = some id) : Linked options (s.keep id) :=
  ⟨hl.id_lt, hl.ids, hl.joint, hl.rules, hl.held.keep hi hid⟩

theorem State.LogsHeld.discover (hs : s.LogsHeld) (hd : Discovers s s') : s'.LogsHeld := by
  obtain ⟨news, hnodes, hnews⟩ := hd.nodes
  rw [← hd.frame]
  intro id
  show (∃ n ∈ s'.nodes.toList, _) ↔ _
  rw [hnodes]
  refine Iff.trans ?_ (hs id)
  constructor
  · rintro ⟨n, hn, hh, hid⟩
    refine ⟨n, (List.mem_append.mp hn).resolve_right fun hn => ?_, hh, hid⟩
    rw [hnews n hn] at hh
    cases hh
  · rintro ⟨n, hn, hh, hid⟩
    exact ⟨n, List.mem_append_left _ hn, hh, hid⟩

theorem Linked.discover (hl : Linked options s) (hd : Discovers s s') : Linked options s' := by
  have hheld := hl.held.discover hd
  rw [← hd.frame] at hheld ⊢
  exact ⟨hl.id_lt, hl.ids, hl.joint, hl.rules, hheld⟩

theorem Move.logsHeld (hm : Move h options asked given s s') (hi : Indexed h s)
    (hs : s.LogsHeld) : s'.LogsHeld := by
  cases hm with
  | discover hd _ => exact hs.discover hd
  | hold _ hid _ => exact hs.keep hi hid
  | @record req parent kind child strength e =>
    have hrecord : (s.record e).LogsHeld := hs
    obtain ⟨news, hlog, hnews⟩ := exists_log_follow options (s.record e) e strength
    exact hrecord.congr
      (eq_of_view State.records State.nodes (fun _ => rfl) (records_follow ..)) hlog hnews
  | enter | note | expand => exact hs
  | @resolve r =>
    obtain ⟨news, hlog, hnews⟩ := exists_log_resolve s r
    exact hs.congr (eq_of_view State.records State.nodes (fun _ => rfl) (records_resolve ..)) hlog
      hnews

theorem Moves.logsHeld (hm : Moves h options asked given {} s) : s.LogsHeld :=
  (Moves.keep (I := fun s => Indexed h s ∧ s.LogsHeld)
    (fun hm hs => ⟨hm.indexed hs.1, hm.logsHeld hs.1 hs.2⟩) hm ⟨.init h, .init⟩).2

/-- The nodes that a reference of the given strength needs. -/
def neededBy (e : Edge) : Strength → List NodeId
  | .joint _ => e.owners
  | .strong | .weak => [e.parent]

/-- The rule that a reference of the given strength is. -/
def ruleBy? (e : Edge) (strength : Strength) : Option Rule :=
  e.child.node?.map fun child => ⟨neededBy e strength, child, e.id, strength != .weak⟩

/-- What a reference adds to the rules, if it counts. -/
theorem hasRule_follow {e : Edge} {strength : Strength} (ρ : Rule) :
    (s.follow options e strength).HasRule ρ ↔
      s.HasRule ρ ∨ ruleBy? e strength = some ρ ∧
        (options.strongOnly = true → (strength != .weak) = true) := by
  unfold State.follow ruleBy?
  cases hc : e.child.node? with
  | none => simp
  | some child =>
    simp only [Option.map_some, Option.some.injEq]
    cases strength with
    | strong =>
      exact (State.hasRule_propagate ..).trans
        (or_congr_right (eq_comm.trans (iff_self_and.mpr fun _ _ => rfl)))
    | weak =>
      show (if options.strongOnly then s
        else s.propagate e.parent ⟨child, e.id, false⟩).HasRule ρ ↔ _
      split
      · rename_i hs
        simp [hs]
      · rename_i hs
        exact (State.hasRule_propagate ..).trans
          (or_congr_right (eq_comm.trans (iff_self_and.mpr fun _ hs' => absurd hs' hs)))
    | joint owners =>
      exact (State.hasRule_trackJoint ..).trans
        (or_congr_right (eq_comm.trans (iff_self_and.mpr fun _ _ => rfl)))

theorem premises_of_owns {t : Interner} {e : Edge} {strength : Strength}
    (howns : t.Owns e.owners strength) (howned : strength.isOwned = true) :
    e.premises = neededBy e strength := by
  rw [Edge.premises, Edge.isJoint]
  cases strength with
  | strong | weak =>
    have hnone : e.owners = [] := howns
    rw [hnone]; rfl
  | joint owners =>
    have hlen := List.Forall₂.length_eq howns
    cases owners with
    | nil => cases howned
    | cons v rest => rw [if_pos (by cases ho : e.owners <;> simp [ho] at hlen ⊢)]; rfl

/-- The rule that a reference is can be told from the reference if it has an
owner when it is joint. -/
theorem rule?_of_owns {t : Interner} {e : Edge} {strength : Strength}
    (howns : t.Owns e.owners strength) (howned : strength.isOwned = true)
    (hstrong : e.strong = (strength != .weak)) : e.rule? = ruleBy? e strength := by
  rw [Edge.rule?, ruleBy?, premises_of_owns howns howned, hstrong]

theorem Linked.record (hl : Linked options s) {t : Interner} {e : Edge} {strength : Strength}
    (hid : e.id = s.nextEdge) (howns : t.Owns e.owners strength)
    (howned : strength.isOwned = true) (hstrong : e.strong = (strength != .weak)) :
    Linked options ((s.record e).follow options e strength) := by
  have hr := records_follow options (s.record e) e strength
  have hedges : ((s.record e).follow options e strength).edges.toList = s.edges.toList ++ [e] := by
    rw [eq_of_view State.records State.edges (fun _ => rfl) hr]
    exact Array.toList_push
  have hnext : ((s.record e).follow options e strength).nextEdge = s.nextEdge + 1 :=
    eq_of_view State.records State.nextEdge (fun _ => rfl) hr
  have hheld : (s.record e).LogsHeld := hl.held
  obtain ⟨news, hlog, hnews⟩ := exists_log_follow options (s.record e) e strength
  refine ⟨?_, ?_, ?_, fun ρ => ?_,
    hheld.congr (eq_of_view State.records State.nodes (fun _ => rfl) hr) hlog hnews⟩
  · rw [hedges, hnext]
    intro d hd
    rcases List.mem_append.mp hd with hd | hd
    · exact Nat.lt_succ_of_lt (hl.id_lt d hd)
    · rw [List.mem_singleton.mp hd, hid]; exact Nat.lt_succ_self _
  · rw [hedges, List.pairwise_append]
    refine ⟨hl.ids, List.pairwise_singleton .., fun d hd d' hd' => ?_⟩
    rw [List.mem_singleton.mp hd', hid]
    exact hl.id_lt d hd
  · rw [hedges]
    intro d hd hj
    rcases List.mem_append.mp hd with hd | hd
    · exact hl.joint d hd hj
    · obtain rfl := List.mem_singleton.mp hd
      rw [hstrong]
      cases strength with
      | joint => rfl
      | strong => rfl
      | weak =>
        rw [Edge.isJoint, show d.owners = [] from howns] at hj
        cases hj
  · rw [hasRule_follow, ← rule?_of_owns howns howned hstrong, ← hstrong, hedges]
    simp only [List.mem_append, List.mem_singleton, or_and_right, exists_or, exists_eq_left]
    exact or_congr_left (hl.rules ρ)

theorem Move.linked (howned : ∀ req, asked req → req.IsOwned)
    (hm : Move h options asked given s s') (hi : Indexed h s) (hl : Linked options s) :
    Linked options s' := by
  cases hm with
  | discover hd _ => exact hl.discover hd
  | hold _ hid _ => exact hl.keep hi hid
  | record hreq hadds he hid =>
    exact hl.record hid he.owners (hadds.isOwned (howned _ hreq)) he.strong
  | enter =>
    exact ⟨fun e he => Nat.lt_succ_of_lt (hl.id_lt e he), hl.ids, hl.joint, hl.rules, hl.held⟩
  | note => exact ⟨hl.id_lt, hl.ids, hl.joint, hl.rules, hl.held⟩
  | expand => exact ⟨hl.id_lt, hl.ids, hl.joint, hl.rules, hl.held⟩
  | resolve => exact hl.resolve _

theorem Moves.linked (howned : ∀ req, asked req → req.IsOwned)
    (hm : Moves h options asked given {} s) : Linked options s :=
  (Moves.keep (I := fun s => Indexed h s ∧ Linked options s)
    (fun hm hs => ⟨hm.indexed hs.1, hm.linked howned hs.1 hs.2⟩) hm ⟨.init h, .init options⟩).2

/-- A reference is found by its id. -/
theorem Linked.find?_id (hl : Linked options s) {e : Edge} (he : e ∈ s.edges.toList) :
    s.edges.toList.find? (·.id == e.id) = some e := by
  obtain ⟨before, after, hsplit⟩ := List.append_of_mem he
  have hids := hl.ids
  rw [hsplit, List.pairwise_append] at hids
  refine List.find?_eq_some_iff_append.mpr ⟨by simp, before, after, hsplit, fun d hd => ?_⟩
  have hlt := hids.2.2 d hd e List.mem_cons_self
  simpa using Nat.ne_of_lt hlt

/-! ## What the published graph says -/

/-- Liveness spreads along a reference once it has spread to the nodes that the
reference needs. -/
theorem Linked.spreads_of_edge (hl : Linked options s) {e : Edge} {child : NodeId}
    {strongly : Bool} (he : e ∈ s.edges.toList) (hc : e.child.node? = some child)
    (hcounts : options.strongOnly = true → e.strong = true)
    (hstrong : strongly = true → e.strong = true)
    (hpremises : ∀ o ∈ e.premises, s.Spreads strongly o) : s.Spreads strongly child := by
  have hρ : e.rule? = some ⟨e.premises, child, e.id, e.strong⟩ := by rw [Edge.rule?, hc]; rfl
  exact .rule ((hl.rules _).mpr ⟨e, he, hρ, hcounts⟩) hstrong hpremises

/-- Liveness spreads to the nodes that the published graph says are alive. -/
theorem Linked.spreads_iff_live (hl : Linked options s) (hs : s.Coherent) (target : NodeId)
    {strongly strongOnly : Bool}
    (hmode : strongOnly = true ↔ strongly = true ∨ options.strongOnly = true) (id : NodeId) :
    s.Spreads strongly id ↔ (s.graph target).Live strongOnly id := by
  constructor
  · intro hid
    induction hid with
    | held hr hh => exact .held ((hl.held _).mpr ⟨_, hr, hh.1, rfl⟩)
    | @rule ρ hρ hstrong _ ih =>
      obtain ⟨e, he, hrule, hcounts⟩ := (hl.rules ρ).mp hρ
      obtain ⟨child, hc, rfl⟩ := Option.map_eq_some_iff.mp hrule
      have hc' : e.child = .node child := by
        cases hce : e.child <;> rw [hce] at hc <;> cases hc
        rfl
      exact .of_premises he hc' (fun ho => (hmode.mp ho).elim hstrong hcounts) ih
  · intro hid
    induction hid with
    | held hid =>
      obtain ⟨r, hr, hnone, rfl⟩ := (hl.held _).mp hid
      rcases hs.sound r hr with hh | ⟨ρ, -, hby⟩
      · exact .held hr hh
      · rw [hby.edge] at hnone
        cases hnone
    | @edge e child he hj hc hstrong _ ih =>
      refine hl.spreads_of_edge he (by rw [hc]; rfl) (fun ho => hstrong (hmode.mpr (.inr ho)))
        (fun ho => hstrong (hmode.mpr (.inl ho))) fun o ho => ?_
      rw [Edge.premises, hj] at ho
      rwa [List.mem_singleton.mp ho]
    | @joint e child he hj hc _ ih =>
      refine hl.spreads_of_edge he (by rw [hc]; rfl) (fun _ => hl.joint e he hj)
        (fun _ => hl.joint e he hj) fun o ho => ?_
      rw [Edge.premises, hj] at ho
      exact ih o ho

/-- The nodes that are reached are those that the published graph says are alive. -/
theorem Linked.reached_iff_live (hl : Linked options s) (hs : s.Coherent) (hd : s.Drained)
    (target id : NodeId) :
    s.reached.contains id = true ↔ (s.graph target).Live options.strongOnly id :=
  (hs.reached_iff_spreads hd id).trans (hl.spreads_iff_live hs target (by simp) id)

/-- The nodes that are strongly reached are those that the published graph says
are alive by its strong references alone. -/
theorem Linked.strong_iff_live (hl : Linked options s) (hs : s.Coherent) (hd : s.Drained)
    (target id : NodeId) :
    s.strong.contains id = true ↔ (s.graph target).Live true id :=
  (hs.strong_iff_spreads hd id).trans (hl.spreads_iff_live hs target (by simp) id)

end Search
end Retention
