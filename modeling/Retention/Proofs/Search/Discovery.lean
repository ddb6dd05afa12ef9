import Mathlib.Data.List.Nodup
import Retention.Proofs.Heap.WellFormed
import Retention.Proofs.Interning
import Retention.Proofs.Search.Step

/-!
# Discovery

A search numbers the values it meets, makes a node for each, and puts the
objects it can expand on its agenda, each once (`Indexed`). Discovery changes
nothing else (`Discovers`).

* `register_spec`, `discover_spec`: a value is given its id;
* `Indexed.agenda_size_le`: the agenda is never longer than the heap.
-/

namespace Retention

namespace Interner

/-- A value is the node of an id. -/
def Names (t : Interner) (v : Value) (id : NodeId) : Prop :=
  ∃ i, Identity.ofValue v = .ok i ∧ t.id? i = some id

/-- A value is what an endpoint stands for. -/
def Denotes (t : Interner) (v : Value) (e : Endpoint) : Prop :=
  (∃ id, t.Names v id ∧ e = .node id) ∨
    v.hasIdentity = false ∧ e = .primitive v.typeName (v.primitiveText?.getD "")

/-- The nodes of the owners of a reference. -/
def Owns (t : Interner) (ids : List NodeId) : Strength → Prop
  | .joint owners => List.Forall₂ t.Names owners ids
  | .strong | .weak => ids = []

/-- The node of an object or a symbol. -/
theorem names_toValue {t : Interner} {i : Identity} {id : NodeId} :
    t.Names i.toValue id ↔ t.id? i = some id := by
  simp [Names, Identity.ofValue_toValue]

theorem Names.unique {t : Interner} {v : Value} {id id' : NodeId} (h : t.Names v id)
    (h' : t.Names v id') : id = id' := by
  obtain ⟨i, hi, hid⟩ := h
  obtain ⟨j, hj, hid'⟩ := h'
  cases hi.symm.trans hj
  exact Option.some.inj (hid.symm.trans hid')

/-- Two values are not the node of one id. -/
theorem Lawful.eq_of_names {t : Interner} (h : t.Lawful) {v w : Value} {id : NodeId}
    (hv : t.Names v id) (hw : t.Names w id) : v = w := by
  obtain ⟨i, hi, hv⟩ := hv
  obtain ⟨j, hj, hw⟩ := hw
  rw [Identity.ofValue_eq_ok.mp hi, Identity.ofValue_eq_ok.mp hj, h.injective hv hw]

end Interner

namespace Search

/-- The nodes are those of the values interned, all of them of the heap, and the
agenda lists the objects scheduled. -/
structure Indexed (h : Heap) (s : State) : Prop where
  lawful : s.interner.Lawful
  has : ∀ v ∈ s.interner.values.toList, h.has v = true
  nodes : ∀ i, s.nodes.toList[i]?.map GraphNode.id =
    s.interner.values.toList[i]?.map fun v => ⟨v.kind, i⟩
  agenda : ∀ ref ∈ s.agenda.toList, ∃ id, s.interner.id? (.object ref) = some id
  scheduled : ∀ id, s.scheduled.contains id = true ↔
    ∃ ref ∈ s.agenda.toList, s.interner.id? (.object ref) = some id
  nodup : s.agenda.toList.Nodup

theorem Indexed.init (h : Heap) : Indexed h {} where
  lawful := .empty
  has := by simp [Interner.empty]
  nodes := by simp [Interner.empty]
  agenda := by simp
  scheduled := by simp
  nodup := .nil

/-- The state with the values, nodes and agenda of another. -/
def State.reindex (s t : State) : State :=
  { s with interner := t.interner, nodes := t.nodes, agenda := t.agenda, scheduled := t.scheduled }

/-- Values are given ids, and nothing is forgotten. -/
structure Discovers (s s' : State) : Prop where
  frame : s.reindex s' = s'
  ids : ∀ {v id}, s.interner.id? v = some id → s'.interner.id? v = some id
  nodes : ∃ news, s'.nodes.toList = s.nodes.toList ++ news ∧ ∀ n ∈ news, n.held = false
  agenda : s.agenda.toList <+: s'.agenda.toList

theorem Discovers.refl (s : State) : Discovers s s where
  frame := rfl
  ids := id
  nodes := ⟨[], by simp, by simp⟩
  agenda := List.prefix_rfl

theorem Discovers.trans {s s' s'' : State} (h : Discovers s s') (h' : Discovers s' s'') :
    Discovers s s'' where
  frame := by
    rw [← h'.frame, ← h.frame]; rfl
  ids hv := h'.ids (h.ids hv)
  nodes := by
    obtain ⟨news, hn, hh⟩ := h.nodes
    obtain ⟨more, hm, hh'⟩ := h'.nodes
    refine ⟨news ++ more, by rw [hm, hn, List.append_assoc], fun n hn => ?_⟩
    exact (List.mem_append.mp hn).elim (hh n) (hh' n)
  agenda := h.agenda.trans h'.agenda

theorem Discovers.names {s s' : State} (h : Discovers s s') {v : Value} {id : NodeId}
    (hv : s.interner.Names v id) : s'.interner.Names v id := by
  obtain ⟨i, hi, hid⟩ := hv
  exact ⟨i, hi, h.ids hid⟩

variable {h : Heap} {s s' : State} {E : Prop}

theorem exists_builtinName {v : Identity} :
    (∃ name, builtinName h v = .ok name) ↔ h.has v = true := by
  cases v with
  | object ref =>
    rw [Heap.has_object, builtinName, Heap.kind]
    cases h.object ref <;> simp [bind, Except.bind, pure, Except.pure]
  | symbol ref =>
    rw [Heap.has_symbol, builtinName]
    cases h.symbol ref <;> simp [bind, Except.bind, pure, Except.pure]

/-- A value that is given its id and its node. -/
def State.enter (s : State) (v : Identity) (builtin : String) : State :=
  { s with
    interner := (s.interner.intern v).2
    nodes := s.nodes.push { id := (s.interner.intern v).1, builtin, held := false } }

theorem Discovers.enter (v : Identity) (builtin : String) : Discovers s (s.enter v builtin) where
  frame := rfl
  ids hw := Interner.id?_intern_of_id?_eq_some hw
  nodes := ⟨[_], Array.toList_push, by simp⟩
  agenda := List.prefix_rfl

theorem Indexed.length_nodes (hi : Indexed h s) :
    s.nodes.toList.length = s.interner.values.toList.length := by
  have hlen : ∀ i, s.nodes.toList.length ≤ i ↔ s.interner.values.toList.length ≤ i := fun i => by
    rw [← List.getElem?_eq_none_iff, ← List.getElem?_eq_none_iff,
      ← Option.map_eq_none_iff (f := GraphNode.id), hi.nodes i, Option.map_eq_none_iff]
  exact Nat.le_antisymm ((hlen _).mpr (Nat.le_refl _)) ((hlen _).mp (Nat.le_refl _))

theorem Indexed.enter (hi : Indexed h s) {v : Identity} (hv : h.has v = true)
    (hnew : s.interner.id? v = none) (builtin : String) : Indexed h (s.enter v builtin) where
  lawful := hi.lawful.intern v
  has w hw := by
    unfold State.enter at hw
    rw [Interner.intern_of_none hnew, Array.toList_push, List.mem_append, List.mem_singleton] at hw
    rcases hw with hw | rfl
    · exact hi.has w hw
    · exact hv
  nodes i := by
    have hold := hi.nodes i
    have hsize := hi.length_nodes
    unfold State.enter
    rw [Interner.intern_of_none hnew, Array.toList_push, Array.toList_push, List.getElem?_append,
      List.getElem?_append, hsize]
    split
    · exact hold
    · rename_i hlt
      rw [List.getElem?_singleton, List.getElem?_singleton]
      split
      · have hsz : s.interner.size = s.interner.values.toList.length := rfl
        simp only [Option.map_some, Option.some.injEq, NodeId.mk.injEq, true_and, hsz]
        omega
      · rfl
  agenda ref hr := by
    obtain ⟨id, hid⟩ := hi.agenda ref hr
    exact ⟨id, Interner.id?_intern_of_id?_eq_some hid⟩
  scheduled id := by
    refine (hi.scheduled id).trans (exists_congr fun ref => and_congr_right fun hr => ?_)
    obtain ⟨id', hid'⟩ := hi.agenda ref hr
    have hkept : (s.enter v builtin).interner.id? (.object ref) = some id' :=
      Interner.id?_intern_of_id?_eq_some hid'
    rw [hid', hkept]
  nodup := hi.nodup

/-- An object that is put on the agenda unless it is there. -/
def State.schedule (s : State) (id : NodeId) (ref : ObjectRef) : State :=
  if s.scheduled.contains id then s
  else { s with scheduled := s.scheduled.insert id, agenda := s.agenda.push ref }

theorem Discovers.schedule (id : NodeId) (ref : ObjectRef) : Discovers s (s.schedule id ref) := by
  unfold State.schedule
  split
  · exact .refl s
  · exact {
      frame := rfl
      ids := fun hv => hv
      nodes := ⟨[], by simp, by simp⟩
      agenda := by rw [Array.toList_push]; exact List.prefix_append .. }

theorem Indexed.schedule (hi : Indexed h s) {id : NodeId} {ref : ObjectRef}
    (hid : s.interner.id? (.object ref) = some id) :
    Indexed h (s.schedule id ref) ∧ ref ∈ (s.schedule id ref).agenda.toList := by
  unfold State.schedule
  split
  · rename_i hs
    obtain ⟨ref', hr, hid'⟩ := (hi.scheduled id).mp hs
    cases hi.lawful.injective hid hid'
    exact ⟨hi, hr⟩
  · rename_i hs
    have hnot : ref ∉ s.agenda.toList := fun hr => hs ((hi.scheduled id).mpr ⟨ref, hr, hid⟩)
    refine ⟨{ hi with agenda := fun ref' hr => ?_, scheduled := fun id' => ?_, nodup := ?_ }, ?_⟩
    · rw [Array.toList_push, List.mem_append, List.mem_singleton] at hr
      rcases hr with hr | rfl
      · exact hi.agenda ref' hr
      · exact ⟨id, hid⟩
    · rw [Std.HashSet.contains_insert, Bool.or_eq_true, beq_iff_eq, hi.scheduled, Array.toList_push]
      simp only [List.mem_append, List.mem_singleton, or_and_right, exists_or, exists_eq_left, hid,
        Option.some.injEq]
      exact or_comm
    · rw [Array.toList_push]
      exact hi.nodup.append (List.nodup_singleton ref) (by simpa using hnot)
    · rw [Array.toList_push]
      exact List.mem_append_right _ (List.mem_singleton_self ref)

/-! ## The steps of discovery -/

theorem register_spec (hi : Indexed h s) {v : Identity} (hv : h.has v = true ∨ E) :
    WP (register h v) E s fun id s' =>
      Discovers s s' ∧ Indexed h s' ∧ s'.interner.id? v = some id := by
  unfold register
  refine .bind (.get ?_)
  split
  · rename_i id hid
    exact .pure ⟨.refl s, hi, hid⟩
  · rename_i hnone
    refine .bind (.lift (fun builtin hb => .modifyGet ?_) fun cause hb => ?_)
    · have hhas : h.has v = true := exists_builtinName.mp ⟨builtin, hb⟩
      exact ⟨.enter v builtin, hi.enter hhas hnone builtin, Interner.id?_intern_self ..⟩
    · refine hv.resolve_left fun hhas => ?_
      obtain ⟨name, hn⟩ := exists_builtinName.mpr hhas
      rw [hn] at hb
      cases hb

theorem discover_spec (hi : Indexed h s) {v : Identity} (hv : h.has v = true ∨ E) :
    WP (discover h v) E s fun id s' =>
      Discovers s s' ∧ Indexed h s' ∧ s'.interner.id? v = some id ∧
        ∀ ref, v = .object ref → ref ∈ s'.agenda.toList := by
  unfold discover
  refine .bind ((register_spec hi hv).mono fun id s' ⟨hd, hi', hid⟩ => ?_)
  cases v with
  | object ref =>
    obtain ⟨hi'', hr⟩ := hi'.schedule hid
    have hd' := hd.trans (.schedule id ref)
    exact .bind (.modify (.pure ⟨hd', hi'', (Discovers.schedule id ref).ids hid,
      fun ref' he => Identity.object.inj he ▸ hr⟩))
  | symbol ref => exact .bind (.pure (.pure ⟨hd, hi', hid, fun _ he => nomatch he⟩))

theorem nodeFor_spec (hi : Indexed h s) {v : Value}
    (hv : (v.hasIdentity = true ∧ h.isValid v = true) ∨ E) :
    WP (nodeFor h v) E s fun id s' =>
      Discovers s s' ∧ Indexed h s' ∧ s'.interner.Names v id ∧
        ∀ ref, v = .object ref → ref ∈ s'.agenda.toList := by
  unfold nodeFor identity
  cases hov : Identity.ofValue v with
  | error violation =>
    refine .bind (.throw (hv.resolve_left fun hv => ?_))
    cases v <;> simp [Value.hasIdentity, Identity.ofValue] at hv hov
  | ok i =>
    have hhas : h.has i = true ∨ E := hv.imp_left fun hv => by
      rw [← Heap.isValid_of_ofValue hov]; exact hv.2
    refine .bind (.pure ((discover_spec hi hhas).mono fun id s' hs => ?_))
    obtain ⟨hd, hi', hid, hr⟩ := hs
    refine ⟨hd, hi', ⟨i, hov, hid⟩, fun ref he => hr ref ?_⟩
    rw [he] at hov
    cases hov
    rfl

theorem describe_spec (hi : Indexed h s) {v : Value} (hv : h.isValid v = true ∨ E) :
    WP (describe h v) E s fun e s' =>
      Discovers s s' ∧ Indexed h s' ∧ s'.interner.Denotes v e := by
  unfold describe
  cases hov : Identity.ofValue v with
  | error violation =>
    refine .pure ⟨.refl s, hi, .inr ⟨?_, rfl⟩⟩
    cases v <;> simp [Value.hasIdentity, Identity.ofValue] at hov ⊢
  | ok i =>
    rw [Heap.isValid_of_ofValue hov] at hv
    refine .bind ((discover_spec hi hv).mono fun id s' hs => .pure ?_)
    obtain ⟨hd, hi', hid, -⟩ := hs
    exact ⟨hd, hi', .inl ⟨id, ⟨i, hov, hid⟩, rfl⟩⟩

theorem ownerIds_spec (hi : Indexed h s) {strength : Strength}
    (hv : (∀ owners, strength = .joint owners →
      ∀ v ∈ owners, v.hasIdentity = true ∧ h.isValid v = true) ∨ E) :
    WP (ownerIds h strength) E s fun ids s' =>
      Discovers s s' ∧ Indexed h s' ∧ s'.interner.Owns ids strength := by
  unfold ownerIds
  cases strength with
  | strong => exact .pure ⟨.refl s, hi, rfl⟩
  | weak => exact .pure ⟨.refl s, hi, rfl⟩
  | joint owners =>
    refine WP.mapM (I := fun behind ids s' =>
      Discovers s s' ∧ Indexed h s' ∧ List.Forall₂ s'.interner.Names behind ids)
      (fun behind v ahead ids s₁ ho ⟨hd, hi', hf⟩ => ?_) ⟨.refl s, hi, .nil⟩
    have hmem : v ∈ owners := ho ▸ List.mem_append_right _ List.mem_cons_self
    have hv' := hv.imp_left fun hv => hv owners rfl v hmem
    refine (nodeFor_spec hi' hv').mono fun id s₂ ⟨hd', hi'', hid, _⟩ => ?_
    exact ⟨hd.trans hd', hi'', List.rel_append (hf.imp fun _ _ => hd'.names) (.cons hid .nil)⟩

/-! ## The size of the agenda -/

/-- The objects on the agenda are different objects of the heap. -/
theorem Indexed.agenda_size_le (hi : Indexed h s) : s.agenda.size ≤ h.size := by
  have hslots : (s.agenda.toList.map ObjectRef.slot).Nodup :=
    hi.nodup.map fun a b hab => by cases a; cases b; exact congrArg _ hab
  have hsub : s.agenda.toList.map ObjectRef.slot ⊆ List.range h.size := fun i hmem => by
    obtain ⟨ref, hr, rfl⟩ := List.mem_map.mp hmem
    obtain ⟨id, hid⟩ := hi.agenda ref hr
    obtain ⟨o, ho⟩ := Heap.has_object.mp (hi.has _ (hi.lawful.mem_values hid))
    have hlt := (List.getElem?_eq_some_iff.mp (Heap.slot_of_object ho)).1
    exact List.mem_range.mpr hlt
  have hle := hslots.length_le_of_subset hsub
  rwa [List.length_map, List.length_range, Array.length_toList] at hle

end Search
end Retention
