import Mathlib.Logic.Relation
import Retention.Proofs.Search.Confirmation
import Retention.Proofs.Search.Draining
import Retention.Proofs.Search.Discovery

/-!
# What a search does to its state

A search changes its state by few moves (`Move`): it discovers values, holds a
node, records a reference that was asked for or an entry, goes on to the next
object, and lets a resolution take effect. What all moves keep holds of every
search.

* `Moves.grows`: what a search has found it does not lose;
* `Moves.indexed`: nodes, ids and agenda fit together;
* `Moves.sound`: the log accounts for what is known about liveness.
-/

namespace Retention

/-- What a request asks to record: a reference of a parent to a child. -/
inductive Request.Adds (t : Interner) :
    Request → ObjectRef → EdgeKind → Value → Strength → Prop where
  | edge {parent kind child strength} :
    Adds t (.edge parent kind child strength) parent kind child strength
  | entryKey {collection i key strength value?} :
    Adds t (.entry collection i key strength value?) collection (.entryKey i) key strength
  | entryValue {collection i key keyStrength value strength} :
    Adds t (.entry collection i key keyStrength (some (value, strength)))
      collection (.entryValue i) value strength
  | symbolKey {parent symbol value} :
    Adds t (.symbolProperty parent symbol value) parent .symbolKey (.symbol symbol) .strong
  | symbolValue {parent symbol value id} (hid : t.Names (.symbol symbol) id) :
    Adds t (.symbolProperty parent symbol value) parent (.symbolValue id) value .strong

theorem Request.Adds.mono {t t' : Interner} {req : Request} {parent : ObjectRef} {kind : EdgeKind}
    {child : Value} {strength : Strength} (ha : req.Adds t parent kind child strength)
    (ht : ∀ {v id}, t.Names v id → t'.Names v id) : req.Adds t' parent kind child strength := by
  cases ha with
  | edge => exact .edge
  | entryKey => exact .entryKey
  | entryValue => exact .entryValue
  | symbolKey => exact .symbolKey
  | symbolValue hid => exact .symbolValue (ht hid)

theorem Interner.Owns.mono {t t' : Interner} {ids : List NodeId} {strength : Strength}
    (ho : t.Owns ids strength) (ht : ∀ {v id}, t.Names v id → t'.Names v id) :
    t'.Owns ids strength := by
  cases strength with
  | joint owners => exact List.Forall₂.imp (fun _ _ => ht) ho
  | strong | weak => exact ho

/-- A reference as it is recorded. -/
structure Edge.Records (e : Edge) (t : Interner) (parent : ObjectRef) (kind : EdgeKind)
    (child : Value) (strength : Strength) : Prop where
  parent : t.Names (.object parent) e.parent
  kind : e.kind = kind
  child : t.Denotes child e.child
  strong : e.strong = (strength != .weak)
  owners : t.Owns e.owners strength

namespace Search

namespace State

/-- A reference recorded. -/
def record (s : State) (e : Edge) : State :=
  { s with
    recorded := s.recorded.insert (e.parent, e.kind, e.child.node?)
    nextEdge := s.nextEdge + 1
    edges := s.edges.push e }

/-- Whether a reference is recorded already. -/
def hasRecorded (s : State) (e : Edge) : Bool :=
  s.recorded.contains (e.parent, e.kind, e.child.node?)

/-- What a new reference does to the spread of liveness. -/
def follow (options : Options) (s : State) (e : Edge) (strength : Strength) : State :=
  match e.child.node? with
  | some child => carry options e.parent child e.id e.owners strength s
  | none => s

/-- A node held from the start. -/
def keep (s : State) (id : NodeId) : State :=
  { s with nodes := s.nodes.modify id.index fun n => { n with held := true } }.push
    { child := id, owners := [], edge? := none, strong := true }

end State

variable (h : Heap) (options : Options) (asked : Request → Prop) (given : Identity → Prop)

/-- One move of a search that holds given values and performs requests that are
asked for. -/
inductive Move : State → State → Prop where
  | discover {s s' : State} (hd : Discovers s s') (hi : Indexed h s') : Move s s'
  | hold {s : State} {v : Identity} {id : NodeId} (hv : given v)
    (hid : s.interner.id? v = some id) (hlog : ∀ r ∈ s.log, r.edge? = none) : Move s (s.keep id)
  | record {s : State} {req : Request} {parent : ObjectRef} {kind : EdgeKind} {child : Value}
    {strength : Strength} {e : Edge} (hreq : asked req)
    (hadds : req.Adds s.interner parent kind child strength)
    (he : e.Records s.interner parent kind child strength) (hid : e.id = s.nextEdge)
    (hnew : s.hasRecorded e = false)
    (hprim : e.child.node? = none → options.recordPrimitives = true) :
    Move s ((s.record e).follow options e strength)
  | enter {s : State} {collection : ObjectRef} {i : Nat} {key : Value} {keyStrength : Strength}
    {value? : Option (Value × Strength)} {c : CollectionEntry}
    (hreq : asked (.entry collection i key keyStrength value?)) (hid : c.id = s.nextEdge) :
    Move s { s with nextEdge := s.nextEdge + 1, entries := s.entries.push c }
  | note {s : State} : Move s { s with optionNotes := s.optionNotes + 1 }
  | expand {s : State} : Move s { s with expanded := s.expanded + 1 }
  | resolve {s : State} {r : Resolution} (hr : s.resolutions[s.resolved]? = some r) :
    Move s (s.next.resolve r)

/-- Any number of moves. -/
def Moves : State → State → Prop := Relation.ReflTransGen (Move h options asked given)

variable {h options asked given} {s s' t : State} {E : Prop}

theorem Moves.single (hm : Move h options asked given s s') : Moves h options asked given s s' :=
  Relation.ReflTransGen.single hm

theorem Moves.refl : Moves h options asked given s s := Relation.ReflTransGen.refl

theorem Moves.trans (h₁ : Moves h options asked given s s')
    (h₂ : Moves h options asked given s' t) : Moves h options asked given s t :=
  Relation.ReflTransGen.trans h₁ h₂

/-- What every move keeps is kept by any number of them. -/
theorem Moves.keep {I : State → Prop}
    (hkeep : ∀ {s s'}, Move h options asked given s s' → I s → I s')
    (hm : Moves h options asked given s s') (hs : I s) : I s' := by
  induction hm with
  | refl => exact hs
  | tail _ hm ih => exact hkeep hm ih

theorem Moves.drainWithin (steps : Nat) : Moves h options asked given s (s.drainWithin steps) := by
  induction steps generalizing s with
  | zero => exact .refl
  | succ steps ih =>
    unfold State.drainWithin
    split
    · exact .refl
    · rename_i r hr
      exact (Moves.single (.resolve hr)).trans ih

/-! ## What only grows -/

theorem Indexed.congr (hi : Indexed h s) (ht : t.reindex s = t) : Indexed h t := by
  rw [← ht]
  exact ⟨hi.lawful, hi.has, hi.nodes, hi.agenda, hi.scheduled, hi.nodup⟩

/-- Discovery does not depend on what it does not change. -/
theorem Discovers.congr (hd : Discovers t s') (ht : t.reindex s = t) :
    Discovers s (s.reindex s') := by
  have hids : s.interner = t.interner := by rw [← ht]; rfl
  have hnodes : s.nodes = t.nodes := by rw [← ht]; rfl
  have hagenda : s.agenda = t.agenda := by rw [← ht]; rfl
  exact {
    frame := rfl
    ids := fun hv => hd.ids (hids ▸ hv)
    nodes := hnodes ▸ hd.nodes
    agenda := hagenda ▸ hd.agenda }

/-! ## What a search has recorded -/

/-- The state without what is known about liveness. -/
def State.records (s : State) : State :=
  { s with
    confirmations := #[], confirmedAt := ∅, reached := ∅, strong := ∅, resolutions := #[]
    resolved := 0, passages := ∅, reachJoints := {}, strongJoints := {} }

/-- What can be told from a view is the same where the view is. -/
theorem eq_of_view {α : Type} (view : State → State) (f : State → α)
    (hf : ∀ s : State, f (view s) = f s) (hv : view s' = view s) : f s' = f s := by
  rw [← hf s', hv, hf]

theorem records_resolve (s : State) (r : Resolution) : (s.next.resolve r).records = s.records := by
  by_cases hnew : (s.isNewlyReached r || s.isNewlyStrong r) = true
  · rw [State.resolve_of_new (s := s.next) hnew, State.accept_next, State.accept_eq]
    rfl
  · rw [Bool.not_eq_true, Bool.or_eq_false_iff] at hnew
    rw [State.resolve_of_not_new (s := s.next) hnew.1 hnew.2]
    rfl

theorem records_drainWithin (s : State) (steps : Nat) :
    (s.drainWithin steps).records = s.records := by
  induction steps generalizing s with
  | zero => rfl
  | succ steps ih =>
    unfold State.drainWithin
    split
    · rfl
    · rename_i r _
      exact (ih _).trans (records_resolve s r)

theorem records_carry (options : Options) (parent child : NodeId) (edge : Nat)
    (owners : List NodeId) (strength : Strength) (s : State) :
    (carry options parent child edge owners strength s).records = s.records := by
  cases strength with
  | strong =>
    show (s.propagate parent _).records = _
    rw [State.propagate_eq]; rfl
  | weak =>
    show (if options.strongOnly then s else s.propagate parent _).records = _
    split
    · rfl
    · rw [State.propagate_eq]; rfl
  | joint _ =>
    show (s.trackJoint child owners edge).records = _
    rw [State.trackJoint_eq]; rfl

theorem records_follow (options : Options) (s : State) (e : Edge) (strength : Strength) :
    (s.follow options e strength).records = s.records := by
  unfold State.follow
  split
  · exact records_carry ..
  · rfl

/-- What a search has found it does not lose. -/
structure Grows (s s' : State) : Prop where
  ids : ∀ {v id}, s.interner.id? v = some id → s'.interner.id? v = some id
  agenda : s.agenda.toList <+: s'.agenda.toList
  recorded : ∀ {key}, s.recorded.contains key = true → s'.recorded.contains key = true
  log : s.log <+: s'.log

theorem Grows.refl (s : State) : Grows s s := ⟨id, List.prefix_rfl, id, List.prefix_rfl⟩

theorem Grows.trans (h₁ : Grows s s') (h₂ : Grows s' t) : Grows s t where
  ids hv := h₂.ids (h₁.ids hv)
  agenda := h₁.agenda.trans h₂.agenda
  recorded hk := h₂.recorded (h₁.recorded hk)
  log := h₁.log.trans h₂.log

theorem Grows.names (hg : Grows s s') {v : Value} {id : NodeId} (hv : s.interner.Names v id) :
    s'.interner.Names v id := by
  obtain ⟨i, hi, hid⟩ := hv
  exact ⟨i, hi, hg.ids hid⟩

theorem Grows.of_records (hr : s'.records = s.records) (hlog : s.log <+: s'.log) : Grows s s' := by
  have hids := eq_of_view State.records State.interner (fun _ => rfl) hr
  have hagenda := eq_of_view State.records State.agenda (fun _ => rfl) hr
  have hrec := eq_of_view State.records State.recorded (fun _ => rfl) hr
  exact ⟨fun hv => hids ▸ hv, hagenda ▸ List.prefix_rfl, fun hk => hrec ▸ hk, hlog⟩

/-- A resolution brings about no resolution of a held node. -/
theorem exists_log_resolve (s : State) (r : Resolution) :
    ∃ news, (s.next.resolve r).log = s.log ++ news ∧ ∀ q ∈ news, q.edge? ≠ none := by
  by_cases hnew : (s.isNewlyReached r || s.isNewlyStrong r) = true
  · exact ⟨_, State.log_resolve_of_new hnew, fun q => State.edge?_ne_none_of_mem_broughtAbout⟩
  · rw [Bool.not_eq_true, Bool.or_eq_false_iff] at hnew
    rw [State.resolve_of_not_new (s := s.next) hnew.1 hnew.2]
    exact ⟨[], (List.append_nil _).symm, by simp⟩

theorem log_prefix_resolve (s : State) (r : Resolution) : s.log <+: (s.next.resolve r).log := by
  obtain ⟨news, hlog, -⟩ := exists_log_resolve s r
  rw [hlog]
  exact List.prefix_append ..

/-- A reference gives no resolution of a held node. -/
theorem exists_log_follow (options : Options) (s : State) (e : Edge) (strength : Strength) :
    ∃ news, (s.follow options e strength).log = s.log ++ news ∧ ∀ r ∈ news, r.edge? ≠ none := by
  have hpropagate : ∀ p : Passage, ∃ news, (s.propagate e.parent p).log = s.log ++ news ∧
      ∀ r ∈ news, r.edge? ≠ none := fun p =>
    ⟨s.propagated e.parent p, by rw [State.propagate_eq, State.log_pushAll]; rfl,
      fun r => State.edge?_ne_none_of_mem_propagated⟩
  unfold State.follow carry
  split
  · split
    · exact hpropagate _
    · split
      · exact ⟨[], (List.append_nil _).symm, by simp⟩
      · exact hpropagate _
    · exact ⟨s.tracked _ e.owners e.id, by rw [State.trackJoint_eq, State.log_pushAll]; rfl,
        fun r => State.edge?_ne_none_of_mem_tracked⟩
  · exact ⟨[], (List.append_nil _).symm, by simp⟩

theorem log_prefix_follow (options : Options) (s : State) (e : Edge) (strength : Strength) :
    s.log <+: (s.follow options e strength).log := by
  obtain ⟨news, hlog, -⟩ := exists_log_follow options s e strength
  rw [hlog]
  exact List.prefix_append ..

theorem records_drain (s : State) : s.drain.records = s.records := records_drainWithin s _

theorem State.grows_record (s : State) (e : Edge) : Grows s (s.record e) where
  ids := id
  agenda := List.prefix_rfl
  recorded hk := Std.HashSet.contains_insert.trans (by rw [hk, Bool.or_true])
  log := List.prefix_rfl

theorem Discovers.grows (hd : Discovers s s') : Grows s s' where
  ids := hd.ids
  agenda := hd.agenda
  recorded hk := by rw [← hd.frame]; exact hk
  log := by rw [← hd.frame]; exact List.prefix_rfl

theorem Move.grows (hm : Move h options asked given s s') : Grows s s' := by
  cases hm with
  | discover hd _ => exact hd.grows
  | hold =>
    refine ⟨id, List.prefix_rfl, id, ?_⟩
    rw [State.keep, State.push_eq, State.log_pushAll]
    exact List.prefix_append ..
  | record =>
    refine .trans (s.grows_record _) (.of_records (records_follow ..) (log_prefix_follow ..))
  | enter => exact ⟨id, List.prefix_rfl, id, List.prefix_rfl⟩
  | note => exact ⟨id, List.prefix_rfl, id, List.prefix_rfl⟩
  | expand => exact ⟨id, List.prefix_rfl, id, List.prefix_rfl⟩
  | resolve => exact .of_records (records_resolve ..) (log_prefix_resolve ..)

theorem Moves.grows (hm : Moves h options asked given s s') : Grows s s' := by
  induction hm with
  | refl => exact .refl _
  | tail _ hm ih => exact ih.trans hm.grows

theorem Indexed.of_records (hi : Indexed h s) (hr : s'.records = s.records) : Indexed h s' := by
  have hrec : Indexed h s.records :=
    ⟨hi.lawful, hi.has, hi.nodes, hi.agenda, hi.scheduled, hi.nodup⟩
  rw [← hr] at hrec
  exact ⟨hrec.lawful, hrec.has, hrec.nodes, hrec.agenda, hrec.scheduled, hrec.nodup⟩

theorem grows_drain (s : State) : Grows s s.drain :=
  Moves.grows (.drainWithin _ : Moves {} {} (fun _ => False) (fun _ => False) s s.drain)

theorem Indexed.keep (hi : Indexed h s) (id : NodeId) : Indexed h (s.keep id) := by
  have hnodes : ∀ i : Nat,
      (s.nodes.modify id.index fun n => { n with held := true }).toList[i]?.map GraphNode.id =
        s.nodes.toList[i]?.map GraphNode.id := fun i => by
    rw [Array.toList_modify, List.getElem?_modify, Option.map_eq_map, Option.map_map]
    congr 1
    funext n
    split <;> rfl
  exact { hi with nodes := fun i => (hnodes i).trans (hi.nodes i) }

theorem Move.indexed (hm : Move h options asked given s s') (hi : Indexed h s) : Indexed h s' := by
  cases hm with
  | discover _ hi' => exact hi'
  | hold => exact hi.keep _
  | @record req parent kind child strength e hreq hadds he hid hnew hprim =>
    exact Indexed.of_records (s := s.record e) (hi.congr rfl) (records_follow ..)
  | enter => exact hi.congr rfl
  | note => exact hi.congr rfl
  | expand => exact hi.congr rfl
  | resolve => exact hi.of_records (records_resolve ..)

theorem Moves.indexed (hm : Moves h options asked given s s') (hi : Indexed h s) : Indexed h s' :=
  hm.keep Move.indexed hi

/-! ## What all moves keep -/

/-- The state without what is recorded. -/
def State.liveness (s : State) : State :=
  { confirmations := s.confirmations, confirmedAt := s.confirmedAt, reached := s.reached
    strong := s.strong, resolutions := s.resolutions, resolved := s.resolved
    passages := s.passages, reachJoints := s.reachJoints, strongJoints := s.strongJoints }

theorem coherent_of_liveness (hc : s.Coherent) (hl : s'.liveness = s.liveness) : s'.Coherent := by
  have hlive : s.liveness.Coherent :=
    ⟨hc.resolved_le, hc.reached_iff, hc.strong_iff, hc.reachTracks, hc.strongTracks,
      hc.references_eq, hc.grounded, hc.sound, hc.complete, hc.strongComplete⟩
  rw [← hl] at hlive
  exact ⟨hlive.resolved_le, hlive.reached_iff, hlive.strong_iff, hlive.reachTracks,
    hlive.strongTracks, hlive.references_eq, hlive.grounded, hlive.sound, hlive.complete,
    hlive.strongComplete⟩

theorem confirms_of_liveness (hc : s.Confirms) (hl : s'.liveness = s.liveness) : s'.Confirms := by
  have hlive : s.liveness.Confirms := ⟨hc.placed, hc.heldFirst, hc.mem_iff⟩
  rw [← hl] at hlive
  exact ⟨hlive.placed, hlive.heldFirst, hlive.mem_iff⟩

/-- The log accounts for what is known about liveness, and no more is queued
than the references allow. -/
structure Sound (s : State) : Prop where
  coherent : s.Coherent
  confirms : s.Confirms
  budgeted : s.Budgeted

theorem Sound.init : Sound {} := ⟨.init, .init, .init⟩

theorem Sound.of_liveness (hs : Sound s) (hl : s'.liveness = s.liveness) (he : s'.edges = s.edges) :
    Sound s' := by
  have hpass := eq_of_view State.liveness State.passages (fun _ => rfl) hl
  have hrj := eq_of_view State.liveness State.reachJoints (fun _ => rfl) hl
  have hsj := eq_of_view State.liveness State.strongJoints (fun _ => rfl) hl
  refine ⟨coherent_of_liveness hs.coherent hl, confirms_of_liveness hs.confirms hl, ?_, ?_, ?_⟩
  · rw [hpass, he]; exact hs.budgeted.passages
  · rw [hrj, he]; exact hs.budgeted.reachJoints
  · rw [hsj, he]; exact hs.budgeted.strongJoints

theorem Sound.keep (hs : Sound s) (hlog : ∀ r ∈ s.log, r.edge? = none) (id : NodeId) :
    Sound (s.keep id) := by
  have hs' : Sound { s with nodes := s.nodes.modify id.index fun n => { n with held := true } } :=
    hs.of_liveness rfl rfl
  exact ⟨hs'.coherent.push ⟨rfl, rfl, rfl⟩, hs'.confirms.push hs'.coherent.resolved_le hlog _,
    hs'.budgeted.passages, hs'.budgeted.reachJoints, hs'.budgeted.strongJoints⟩

/-- A new reference, with what it does to the spread of liveness. -/
theorem Sound.record (hs : Sound s) {e : Edge} {strength : Strength} {t : Interner}
    (howns : t.Owns e.owners strength) : Sound ((s.record e).follow options e strength) := by
  have hc : (s.record e).Coherent := coherent_of_liveness hs.coherent rfl
  have hf : (s.record e).Confirms := confirms_of_liveness hs.confirms rfl
  have hle := hc.resolved_le
  let u : State :=
    { s with
      recorded := s.recorded.insert (e.parent, e.kind, e.child.node?)
      nextEdge := s.nextEdge + 1 }
  have hu : u.Budgeted := Sound.budgeted (hs.of_liveness rfl rfl)
  have hsame : Sound (s.record e) := ⟨hc, hf, hu.addEdge e⟩
  unfold State.follow
  split
  · rename_i child _
    cases strength with
    | strong =>
      exact ⟨hc.propagate .., hf.propagate hle .., hu.propagate howns ⟨child, e.id, true⟩⟩
    | weak =>
      show Sound (if options.strongOnly then s.record e
        else (s.record e).propagate e.parent ⟨child, e.id, false⟩)
      split
      · exact hsame
      · exact ⟨hc.propagate .., hf.propagate hle .., hu.propagate howns ⟨child, e.id, false⟩⟩
    | joint owners =>
      exact ⟨hc.trackJoint .., hf.trackJoint hle .., hu.trackJoint e child e.id⟩
  · exact hsame

theorem Move.sound (hm : Move h options asked given s s') (hs : Sound s) : Sound s' := by
  cases hm with
  | discover hd _ => exact hs.of_liveness (by rw [← hd.frame]; rfl) (by rw [← hd.frame]; rfl)
  | hold _ _ hlog => exact hs.keep hlog _
  | record _ _ he => exact hs.record he.owners
  | enter => exact hs.of_liveness rfl rfl
  | note => exact hs.of_liveness rfl rfl
  | expand => exact hs.of_liveness rfl rfl
  | resolve hr =>
    exact ⟨hs.coherent.resolve hr, hs.confirms.resolve hs.coherent hr, hs.budgeted.resolve _⟩

theorem Moves.sound (hm : Moves h options asked given s s') (hs : Sound s) : Sound s' :=
  hm.keep Move.sound hs

theorem Sound.drain (hs : Sound s) : Sound s.drain :=
  Moves.sound (.drainWithin _ : Moves {} {} (fun _ => False) (fun _ => False) s s.drain) hs

/-- Draining leaves nothing to resolve. -/
theorem Sound.drained_drain (hs : Sound s) : s.drain.Drained :=
  hs.budgeted.drained_drain hs.coherent.resolved_le

end Search
end Retention
