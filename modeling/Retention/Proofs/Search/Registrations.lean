import Mathlib.Data.List.Sort
import Retention.Proofs.Realm.Registries
import Retention.Proofs.Search.Ordering

/-!
# What searches show of finalization registries

A search that holds a registry records the values that its cells hold in the order of
the cells, each once (`Search.heldValues_of_run`): an object is expanded once, it asks
for its cells in order, and references are recorded in the order in which they are asked
for. Since the cells are the registrations that stand, that is what the search shows
(`Realm.cells_of_logs`).

* `Graph.heldValues`: the references to held values.
* `forall₂_range`: items that are numbered in order.
-/

namespace Retention

/-! ## Held values -/

/-- The internal slot of the held value of a cell. -/
def heldValueSlot (i : Nat) : String := s!"[[Cells]][{i}].[[HeldValue]]"

/-- References by internal slots for held values. -/
def EdgeKind.isHeldValue : EdgeKind → Bool
  | slot name => "[[HeldValue]]".toList.isSuffixOf name.toList
  | _ => false

/-- The references of a node to held values, in the order in which they are recorded. -/
def Graph.heldValues (g : Graph) (id : NodeId) : List Edge :=
  (g.edgesFrom id).filter (·.kind.isHeldValue)

theorem Graph.mem_heldValues {g : Graph} {id : NodeId} {e : Edge} :
    e ∈ g.heldValues id ↔ e ∈ g.edges ∧ e.parent = id ∧ e.kind.isHeldValue = true := by
  rw [heldValues, List.mem_filter, edgesFrom, List.mem_filter, beq_iff_eq, and_assoc]

/-- The nodes of a graph are what an interner has numbered. -/
structure Graph.NumberedBy (g : Graph) (t : Interner) : Prop where
  lawful : t.Lawful
  nodes : g.nodes.map GraphNode.id = t.values.toList.zipIdx.map fun (i, n) => ⟨i.kind, n⟩

theorem heldValueSlot_injective {i j : Nat} (h : heldValueSlot i = heldValueSlot j) : i = j := by
  have hslot : ∀ i, heldValueSlot i = "[[Cells]][" ++ toString i ++ "].[[HeldValue]]" := fun _ => rfl
  have hlist := congrArg String.toList h
  rw [hslot, hslot, String.toList_append, String.toList_append, String.toList_append,
    String.toList_append] at hlist
  exact toString_injective
    (String.toList_injective (List.append_cancel_left (List.append_cancel_right hlist)))

/-- It depends on the last part of the name whether a slot is for held values. -/
theorem EdgeKind.isHeldValue_append (first last : String)
    (hlast : "[[HeldValue]]".length ≤ last.length) :
    (slot (first ++ last)).isHeldValue = (slot last).isHeldValue := by
  rw [isHeldValue, isHeldValue, Bool.eq_iff_iff, List.isSuffixOf_iff_suffix,
    List.isSuffixOf_iff_suffix, String.toList_append]
  constructor
  · intro h
    refine List.suffix_of_suffix_length_le h (List.suffix_append ..) ?_
    rwa [String.length_toList, String.length_toList]
  · exact fun h => h.trans (List.suffix_append ..)

theorem isHeldValue_heldValueSlot (i : Nat) :
    (EdgeKind.slot (heldValueSlot i)).isHeldValue = true :=
  (EdgeKind.isHeldValue_append _ "].[[HeldValue]]" (by decide)).trans (by decide)

theorem isHeldValue_target (i : Nat) :
    (EdgeKind.slot s!"[[Cells]][{i}].[[WeakRefTarget]]").isHeldValue = false :=
  (EdgeKind.isHeldValue_append _ "].[[WeakRefTarget]]" (by decide)).trans (by decide)

theorem isHeldValue_token (i : Nat) :
    (EdgeKind.slot s!"[[Cells]][{i}].[[UnregisterToken]]").isHeldValue = false :=
  (EdgeKind.isHeldValue_append _ "].[[UnregisterToken]]" (by decide)).trans (by decide)

section Requests

variable {ref parent : ObjectRef} {o : Object} {t : Interner} {callback : ObjectRef}
  {cells : Sequence Cell} {kind : EdgeKind} {child value : Value} {strength : Strength} {i : Nat}

/-- What a registry refers to by a slot for held values is the value that a cell holds. -/
theorem Object.References.heldValue (hr : o.References ref t kind child strength)
    (hk : o.kind = .finalizationRegistry callback cells) (hheld : kind.isHeldValue = true) :
    ∃ i cell, cells.toList[i]? = some cell ∧ kind = .slot (heldValueSlot i) ∧
      child = cell.held ∧ strength = .strong := by
  cases hr with
  | cellHeldValue hk' hc =>
    cases hk.symm.trans hk'
    exact ⟨_, _, hc, rfl, rfl, rfl⟩
  | cellTarget => exact absurd hheld (by rw [isHeldValue_target]; exact Bool.false_ne_true)
  | cellToken => exact absurd hheld (by rw [isHeldValue_token]; exact Bool.false_ne_true)
  | prototype | cleanupCallback => exact absurd hheld (by decide)
  | index | property | symbolKey | symbolValue => cases hheld
  | capture hk' | boundTarget hk' | boundThis hk' | boundArgument hk' | revocableProxy hk'
  | proxyTarget hk' | proxyHandler hk' | weakRefTarget hk' | mapKey hk' | mapValue hk'
  | setValue hk' | weakMapKey hk' | weakMapValue hk' | weakSetValue hk' | promiseResult hk'
  | reactionHandler hk' | derivedPromise hk' => cases hk.symm.trans hk'

/-! ## Requests for held values -/

/-- An object makes requests for itself. -/
theorem eq_of_edge_mem_requests (hreq : .edge parent kind value strength ∈ o.requests ref) :
    parent = ref := by
  have hadds : (Request.edge parent kind value strength).Adds .empty parent kind value strength :=
    .edge
  rcases List.mem_append.mp hreq with hreq | hreq
  · exact (asks_of_mem_kindRequests hreq hadds).parent
  · exact (asks_of_mem_ownRequests hreq hadds).parent

/-- A request for the value that a cell holds. -/
def Request.AsksHeld (ref : ObjectRef) (i : Nat) (req : Request) : Prop :=
  ∃ value strength, req = .edge ref (.slot (heldValueSlot i)) value strength

/-- Requests for held values are made in the order of the cells. -/
def HeldInOrder (ref : ObjectRef) (req req' : Request) : Prop :=
  ∀ i j, req.AsksHeld ref i → req'.AsksHeld ref j → i < j

/-- Only requests for held values matter. -/
theorem pairwise_heldInOrder_of_forall_not {reqs : List Request}
    (hnot : ∀ req ∈ reqs, ∀ i, ¬req.AsksHeld ref i) : reqs.Pairwise (HeldInOrder ref) :=
  List.pairwise_of_forall_mem_list fun req hreq _ _ i _ hasks => absurd hasks (hnot req hreq i)

theorem not_asksHeld {req : Request} (hkind : kind.isHeldValue = false)
    (hreq : req = .edge ref kind value strength) (i : Nat) : ¬req.AsksHeld parent i := by
  rintro ⟨value', strength', heq⟩
  obtain ⟨-, rfl, -⟩ := Request.edge.inj (hreq.symm.trans heq)
  rw [isHeldValue_heldValueSlot] at hkind
  cases hkind

/-- A cell asks for the value that it holds, and for it first. -/
theorem exists_cellRequests_eq (parent ref : ObjectRef) (i : Nat) (cell : Cell) :
    ∃ rest, cellRequests ref i cell =
        .slot ref (heldValueSlot i) cell.held :: rest ∧
      ∀ req ∈ rest, ∀ j, ¬req.AsksHeld parent j := by
  refine ⟨_, rfl, fun req hreq => ?_⟩
  rcases List.mem_append.mp hreq with hreq | hreq
  · exact not_asksHeld (isHeldValue_target i) (List.mem_singleton.mp hreq)
  · obtain ⟨token, -, heq⟩ := List.mem_map.mp hreq
    exact not_asksHeld (isHeldValue_token i) heq.symm

theorem eq_of_mem_cellRequests {cell : Cell} {req : Request} {j : Nat}
    (hreq : req ∈ cellRequests ref i cell) (hasks : req.AsksHeld ref j) : j = i := by
  obtain ⟨rest, heq, hrest⟩ := exists_cellRequests_eq ref ref i cell
  rcases List.mem_cons.mp (heq ▸ hreq) with rfl | hreq
  · obtain ⟨_, _, heq⟩ := hasks
    obtain ⟨-, hkind, -⟩ := Request.edge.inj heq
    exact (heldValueSlot_injective (EdgeKind.slot.inj hkind)).symm
  · exact absurd hasks (hrest req hreq j)

theorem not_asksHeld_of_mem_ownRequests {req : Request} (hreq : req ∈ ownRequests ref o) (i : Nat) :
    ¬req.AsksHeld parent i := by
  rw [ownRequests, List.mem_append, mem_slot?, List.mem_map] at hreq
  obtain ⟨prototype, -, rfl⟩ | ⟨p, -, rfl⟩ := hreq
  · exact not_asksHeld (by decide) rfl i
  · unfold propertyRequest
    split
    · rintro ⟨_, _, heq⟩
      cases heq
    · split
      · exact not_asksHeld rfl rfl i
      · exact not_asksHeld rfl rfl i

theorem pairwise_heldInOrder_cellRequests (ref : ObjectRef) (i : Nat) (cell : Cell) :
    (cellRequests ref i cell).Pairwise (HeldInOrder ref) := by
  obtain ⟨rest, heq, hrest⟩ := exists_cellRequests_eq ref ref i cell
  rw [heq]
  exact .cons (fun req hreq _ j _ hasks => absurd hasks (hrest req hreq j))
    (pairwise_heldInOrder_of_forall_not hrest)

theorem pairwise_heldInOrder_requests (ref : ObjectRef)
    (hk : o.kind = .finalizationRegistry callback cells) :
    (o.requests ref).Pairwise (HeldInOrder ref) := by
  have hindices : (cells.toList.zipIdx.map Prod.snd).Pairwise (· < ·) := by
    rw [List.zipIdx_map_snd]
    exact List.pairwise_lt_range'
  have hown : ∀ req ∈ ownRequests ref o, ∀ i, ¬req.AsksHeld ref i :=
    fun _ hreq => not_asksHeld_of_mem_ownRequests hreq
  rw [Object.requests, hk, kindRequests, List.cons_append]
  refine .cons (fun _ _ i _ hasks => absurd hasks (not_asksHeld (by decide) rfl i))
    (List.pairwise_append.mpr ⟨?_, pairwise_heldInOrder_of_forall_not hown, ?_⟩)
  · refine List.pairwise_flatMap.mpr ⟨fun _ _ => pairwise_heldInOrder_cellRequests .., ?_⟩
    refine (List.pairwise_map.mp hindices).imp fun {x y} hlt req hreq req' hreq' i j hi hj => ?_
    rwa [eq_of_mem_cellRequests hreq hi, eq_of_mem_cellRequests hreq' hj]
  · exact fun _ _ req' hreq' _ j _ hasks => absurd hasks (hown req' hreq' j)

end Requests

/-! ## Items in order -/

/-- Items with numbers. -/
theorem exists_forall₂ {α β : Type} {P : α → β → Prop} {bs : List β} (hbs : ∀ b ∈ bs, ∃ a, P a b) :
    ∃ as, List.Forall₂ P as bs := by
  induction bs with
  | nil => exact ⟨[], .nil⟩
  | cons b rest ih =>
    obtain ⟨⟨a, ha⟩, hrest⟩ := List.forall_mem_cons.mp hbs
    obtain ⟨as, has⟩ := ih hrest
    exact ⟨a :: as, .cons ha has⟩

/-- Items that are numbered in order, one for each number. -/
theorem forall₂_range {β : Type} {P : Nat → β → Prop} {n : Nat} {bs : List β}
    (hnumbered : ∀ b ∈ bs, ∃ i, i < n ∧ P i b) (hunique : ∀ {i j b}, P i b → P j b → i = j)
    (hall : ∀ i < n, ∃ b ∈ bs, P i b)
    (hsorted : bs.Pairwise fun b b' => ∀ i j, P i b → P j b' → i < j) :
    List.Forall₂ P (List.range n) bs := by
  obtain ⟨is, his⟩ := exists_forall₂ hnumbered
  have hascending : is.Pairwise (· < ·) :=
    pairwise_of_rel his.flip hsorted fun hi hj hlt => hlt _ _ hi.2 hj.2
  have hmem : ∀ i, i ∈ is ↔ i ∈ List.range n := fun i => by
    rw [List.mem_range]
    constructor
    · intro hi
      obtain ⟨b, -, hlt, -⟩ := (Search.exists_of_forall₂ his).1 i hi
      exact hlt
    · intro hi
      obtain ⟨b, hb, hP⟩ := hall i hi
      obtain ⟨j, hj, -, hP'⟩ := (Search.exists_of_forall₂ his).2 b hb
      rwa [hunique hP hP']
  rw [← hascending.eq_of_mem_iff List.pairwise_lt_range hmem]
  exact his.imp fun _ _ h => h.2

namespace Search

variable {h : Heap} {options : Options} {held : List Value} {target : Value} {g : Graph}
  {s : State} {ref : ObjectRef} {callback : ObjectRef} {cells : Sequence Cell}

/-- All objects together ask for the held values of a registry in the order of its cells. -/
theorem pairwise_heldInOrder_requestsOf {refs : List ObjectRef} (hrefs : refs.Nodup)
    (hk : h.kind ref = .ok (.finalizationRegistry callback cells)) :
    (refs.flatMap (requestsOf h .builtin)).Pairwise (HeldInOrder ref) := by
  have hof : ∀ {other req i}, req ∈ requestsOf h .builtin other → req.AsksHeld ref i →
      ref = other := fun hreq hasks => by
    obtain ⟨o, -, hreq⟩ := mem_requestsOf_builtin.mp hreq
    obtain ⟨value, strength, rfl⟩ := hasks
    exact eq_of_edge_mem_requests hreq
  refine List.pairwise_flatMap.mpr ⟨fun other _ => ?_, hrefs.imp fun hne req hreq req' hreq' => ?_⟩
  · by_cases heq : ref = other
    · subst heq
      obtain ⟨o, ho, hslots⟩ := Heap.kind_eq_ok_iff.mp hk
      rw [requestsOf, requestsFor_builtin ho]
      exact pairwise_heldInOrder_requests ref hslots
    · exact pairwise_heldInOrder_of_forall_not fun req hreq i hasks => heq (hof hreq hasks)
  · exact fun i j hi hj => absurd ((hof hreq hi).symm.trans (hof hreq' hj)) hne

/-- The request that a reference to a held value was recorded for. -/
theorem asksHeld_of_addsEdge (hlawful : s.interner.Lawful) {req : Request} {e : Edge} {i : Nat}
    {value : Value} (hadds : req.AddsEdge s.interner e)
    (he : e.Records s.interner ref (.slot (heldValueSlot i)) value .strong) :
    req.AsksHeld ref i := by
  obtain ⟨parent, kind, child, strength, hadds, hrecords⟩ := hadds
  cases hlawful.eq_of_names hrecords.parent he.parent
  obtain rfl := hrecords.kind.symm.trans he.kind
  cases hadds
  exact ⟨child, strength, rfl⟩

/-- A reference to the value that a cell holds, as it is recorded. -/
def RecordsHeld (t : Interner) (ref : ObjectRef) (cells : List Cell) (i : Nat) (e : Edge) : Prop :=
  ∃ cell, cells[i]? = some cell ∧
    e.Records t ref (.slot (heldValueSlot i)) cell.held .strong

theorem RecordsHeld.unique {t : Interner} {cells : List Cell} {i j : Nat} {e : Edge}
    (hi : RecordsHeld t ref cells i e) (hj : RecordsHeld t ref cells j e) : i = j := by
  obtain ⟨_, -, hi⟩ := hi
  obtain ⟨_, -, hj⟩ := hj
  exact heldValueSlot_injective (EdgeKind.slot.inj (hi.kind.symm.trans hj.kind))

theorem RecordsHeld.isHeldValue {t : Interner} {cells : List Cell} {i : Nat} {e : Edge}
    (h : RecordsHeld t ref cells i e) : e.kind.isHeldValue = true := by
  obtain ⟨_, -, hrecords⟩ := h
  rw [hrecords.kind]
  exact isHeldValue_heldValueSlot i

/-- One value is recorded by references with one key. -/
theorem RecordsHeld.key_eq {t : Interner} {cells : List Cell} {i : Nat} {e e' : Edge}
    (h : RecordsHeld t ref cells i e) (h' : RecordsHeld t ref cells i e') : e.key = e'.key := by
  obtain ⟨cell, hcell, hr⟩ := h
  obtain ⟨cell', hcell', hr'⟩ := h'
  obtain rfl := Option.some.inj (hcell.symm.trans hcell')
  rw [Edge.key, Edge.key, hr.parent.unique hr'.parent, hr.kind.trans hr'.kind.symm,
    hr.child.unique hr'.child]

/-- Two cells have their held values recorded in the order in which they are asked for. -/
theorem RecordsHeld.lt {cells : List Cell} (hlawful : s.interner.Lawful) {req req' : Request}
    {e e' : Edge} {i j : Nat} (hadds : req.AddsEdge s.interner e)
    (hadds' : req'.AddsEdge s.interner e') (horder : req = req' ∨ HeldInOrder ref req req')
    (hkey : e.key ≠ e'.key) (hi : RecordsHeld s.interner ref cells i e)
    (hj : RecordsHeld s.interner ref cells j e') : i < j := by
  have hasks : req.AsksHeld ref i := by
    obtain ⟨_, -, hrecords⟩ := hi
    exact asksHeld_of_addsEdge hlawful hadds hrecords
  have hasks' : req'.AsksHeld ref j := by
    obtain ⟨_, -, hrecords⟩ := hj
    exact asksHeld_of_addsEdge hlawful hadds' hrecords
  rcases horder with rfl | horder
  · obtain ⟨_, _, rfl⟩ := hasks
    obtain ⟨_, _, heq⟩ := hasks'
    obtain ⟨-, hkind, -⟩ := Request.edge.inj heq
    obtain rfl := heldValueSlot_injective (EdgeKind.slot.inj hkind)
    exact absurd (hi.key_eq hj) hkey
  · exact horder i j hasks hasks'

/-- What is recorded for a registry by a slot for held values is what a cell holds. -/
theorem Explored.exists_recordsHeld
    (hx : Explored h (Given held) (s.agenda.toList.flatMap (requestsOf h .builtin)) s)
    (hk : h.kind ref = .ok (.finalizationRegistry callback cells)) {e : Edge}
    (he : e ∈ s.edges.toList) (hparent : s.interner.Names (.object ref) e.parent)
    (hkind : e.kind.isHeldValue = true) :
    ∃ i, i < cells.toList.length ∧ RecordsHeld s.interner ref cells.toList i e := by
  obtain ⟨o, ho, hslots⟩ := Heap.kind_eq_ok_iff.mp hk
  obtain ⟨ref', -, o', child, strength, ho', hr, hrecords⟩ := hx.exists_references he
  cases hx.indexed.lawful.eq_of_names hrecords.parent hparent
  cases ho.symm.trans ho'
  obtain ⟨i, cell, hcell, hslot, rfl, rfl⟩ := hr.heldValue hslots hkind
  exact ⟨i, (List.getElem?_eq_some_iff.mp hcell).1, cell, hcell, hslot ▸ hrecords⟩

/-- The value that each cell of a registry holds is recorded once the registry is expanded. -/
theorem Finished.exists_recordsHeld (hf : Finished h options .builtin held s)
    (hx : Explored h (Given held) (s.agenda.toList.flatMap (requestsOf h .builtin)) s)
    (hrecord : options.recordPrimitives = true) (href : ref ∈ s.agenda.toList)
    (hk : h.kind ref = .ok (.finalizationRegistry callback cells)) {i : Nat}
    (hi : i < cells.toList.length) :
    ∃ e ∈ s.edges.toList, s.interner.Names (.object ref) e.parent ∧
      RecordsHeld s.interner ref cells.toList i e := by
  obtain ⟨o, ho, hslots⟩ := Heap.kind_eq_ok_iff.mp hk
  obtain ⟨e, he, hparent, hkind, -⟩ := hf.exists_reference href ho
    (.cellHeldValue hslots (List.getElem?_eq_getElem hi)) (.inr hrecord)
  have hheld : e.kind.isHeldValue = true := hkind ▸ isHeldValue_heldValueSlot i
  obtain ⟨j, -, cell, hcell, hrecords⟩ := hx.exists_recordsHeld hk he hparent hheld
  obtain rfl := heldValueSlot_injective (EdgeKind.slot.inj (hkind.symm.trans hrecords.kind))
  exact ⟨e, he, hparent, cell, hcell, hrecords⟩

/-- A search that holds a registry records the values that its cells hold, each once, in
the order of the cells. -/
theorem heldValues_of_exec (hk : h.kind ref = .ok (.finalizationRegistry callback cells))
    (hrecord : options.recordPrimitives = true) (hheld : .object ref ∈ held)
    (hexec : exec (search h options .builtin target held) {} = (.ok g, s)) :
    ∃ id, s.interner.id? (.object ref) = some id ∧
      List.Forall₂ (RecordsHeld s.interner ref cells.toList) (List.range cells.toList.length)
        (g.heldValues id) := by
  obtain ⟨targetId, hf, -, rfl⟩ := finished_of_exec hexec
  have hx := (search_explored target held).of_exec_eq_ok hexec
  obtain ⟨id, hid, -, href⟩ := hf.holds (.object ref) hheld
  have hnames : s.interner.Names (.object ref) id := ⟨.object ref, rfl, hid⟩
  have hmem : ∀ {e}, e ∈ (s.graph targetId).heldValues id ↔
      e ∈ s.edges.toList ∧ e.parent = id ∧ e.kind.isHeldValue = true := Graph.mem_heldValues
  refine ⟨id, hid, forall₂_range (fun e he => ?_) RecordsHeld.unique (fun i hi => ?_) ?_⟩
  · obtain ⟨hedge, rfl, hkind⟩ := hmem.mp he
    exact hx.exists_recordsHeld hk hedge hnames hkind
  · obtain ⟨e, he, hparent, hrecords⟩ := hf.exists_recordsHeld hx hrecord (href ref rfl) hk hi
    exact ⟨e, hmem.mpr ⟨he, hparent.unique hnames, hrecords.isHeldValue⟩, hrecords⟩
  · have horder := (inOrder_of_exec hexec).pairwise
      (pairwise_heldInOrder_requestsOf hx.indexed.nodup hk)
    have hdistinct := List.pairwise_map.mp hf.moves.distinct.nodup
    refine ((horder.and hdistinct).sublist (List.filter_sublist.trans List.filter_sublist)).imp ?_
    rintro e e' ⟨⟨req, -, req', -, hadds, hadds', hreqs⟩, hkey⟩ i j hi hj
    exact hi.lt hf.indexed.lawful hadds hadds' hreqs hkey hj

theorem heldValues_of_run (hk : h.kind ref = .ok (.finalizationRegistry callback cells))
    (hrecord : options.recordPrimitives = true) (hheld : .object ref ∈ held)
    (hrun : (run h options .builtin target held).1 = .ok g) :
    ∃ t id, g.NumberedBy t ∧ t.id? (.object ref) = some id ∧
      List.Forall₂ (RecordsHeld t ref cells.toList) (List.range cells.toList.length)
        (g.heldValues id) := by
  obtain ⟨s, hexec⟩ := exists_exec_of_run hrun
  obtain ⟨id, hid, hrecords⟩ := heldValues_of_exec hk hrecord hheld hexec
  obtain ⟨targetId, hf, -, rfl⟩ := finished_of_exec hexec
  exact ⟨s.interner, id, ⟨hf.indexed.lawful, hf.indexed.map_id_nodes⟩, hid, hrecords⟩

end Search

namespace Realm

open Search (RecordsHeld)

/-- The cells of a registry are the registrations that stand, in order: those that
succeeded and were not undone since. Undoing tells whether there were any to undo, and
undoes none that was made without a token. So the references to held values that a search
records for the registry, if that is held, are one for each registration that stands, in
order. -/
theorem cells_of_logs {callback : Value} {ref : ObjectRef} {r₀ r r' : Realm} {log : List LoggedCall}
    (hnew : exec (newRegistry callback) r₀ = (.ok ref, r)) (hlogs : Logs ref r log r') :
    (∃ cleanup cells, r'.heap.kind ref = .ok (.finalizationRegistry cleanup cells) ∧
      cells.toList = standing log) ∧
    (∀ before token answer after, log = before ++ ⟨.unregister token, .ok answer⟩ :: after →
      ∃ removed, answer = .bool removed ∧ (removed = true ↔
        (standing (before ++ [⟨.unregister token, .ok answer⟩])).length <
          (standing before).length)) ∧
    (standing log).filter (·.token?.isNone) =
      (log.filterMap LoggedCall.cell?).filter (·.token?.isNone) ∧
    ∀ (options : Search.Options) (target : Value) (held : List Value) (g : Graph),
      options.recordPrimitives = true → .object ref ∈ held →
      (Search.run r'.heap options .builtin target held).1 = .ok g →
      ∃ t id, g.NumberedBy t ∧ t.id? (.object ref) = some id ∧
        List.Forall₂ (RecordsHeld t ref (standing log)) (List.range (standing log).length)
          (g.heldValues id) := by
  obtain ⟨cleanup, hk⟩ := exec_newRegistry_eq_ok hnew
  obtain ⟨cells, hk', hcells⟩ := hlogs.exists_cells hk
  refine ⟨⟨cleanup, cells, hk', hcells⟩, fun _ _ _ _ => hlogs.exists_answer hk,
    filter_standing log, fun options target held g hrecord hheld hrun => ?_⟩
  rw [← hcells]
  exact Search.heldValues_of_run hk' hrecord hheld hrun

/-- A realm with a function. -/
def withCleanup : Realm := (exec (newFunction "cleanup" [] (.closure 0)) {}).2

/-- The realm once there is a registry. -/
def withRegistry : Realm := (exec (newRegistry (.object ⟨14⟩)) withCleanup).2

/-- The realm once there are two. -/
def withRegistries : Realm := (exec (newRegistry (.object ⟨14⟩)) withRegistry).2

/-- Two registrations share a token, one has none, one fails, as the value held is the
target, and one is with another registry. The token is then undone, and used again. -/
def sharedToken : List (ObjectRef × RegistryCall) :=
  let registry : ObjectRef := ⟨15⟩
  let target : Value := .object globalRef
  let token : Value := .object ⟨0⟩
  [(registry, .register target (.string "a") (some token)),
    (registry, .register token (.string "b") (some token)),
    (registry, .register target (.string "c") (some .undefined)),
    (registry, .register target target none),
    (⟨16⟩, .register target (.string "d") (some token)),
    (registry, .unregister (.bool true)), (registry, .unregister token),
    (registry, .register target (.string "e") (some token))]

theorem cells_of_logs_sharedToken :
    ∃ cleanup cells g t id,
      (withRegistries.callAll sharedToken).2.heap.kind ⟨15⟩ =
        .ok (.finalizationRegistry cleanup cells) ∧
      cells.toList.map Cell.held = [.string "c", .string "e"] ∧
      (Search.run (withRegistries.callAll sharedToken).2.heap {} .builtin (.object ⟨15⟩)
        [.object ⟨15⟩]).1 = .ok g ∧
      g.NumberedBy t ∧ t.id? (.object ⟨15⟩) = some id ∧
      List.Forall₂ (RecordsHeld t ⟨15⟩ cells.toList) [0, 1] (g.heldValues id) := by
  have hnew : exec (newRegistry (.object ⟨14⟩)) withCleanup = (.ok ⟨15⟩, withRegistry) := rfl
  have hcells : withRegistry.heap.kind ⟨15⟩ = .ok (.finalizationRegistry ⟨14⟩ {}) := rfl
  have hsecond : Logs ⟨15⟩ withRegistry [] withRegistries := Logs.nil.other rfl
  have hlogs := hsecond.callAll hcells sharedToken
  rw [List.nil_append] at hlogs
  have hanswers : ∃ g, (Search.run (withRegistries.callAll sharedToken).2.heap {} .builtin
      (.object ⟨15⟩) [.object ⟨15⟩]).1 = .ok g :=
    Search.exists_run_eq_ok
      (fun _ hreq => hreq.isValid_builtin
        (by decide +kernel : (withRegistries.callAll sharedToken).2.heap.WellFormed)) rfl
      (by decide +kernel) (by decide +kernel)
  obtain ⟨g, hrun⟩ := hanswers
  have hstanding : (standing (callsOn ⟨15⟩ (withRegistries.callAll sharedToken).1)).map Cell.held =
      [.string "c", .string "e"] := by decide +kernel
  obtain ⟨⟨cleanup, cells, hk, hcells⟩, -, -, hsearch⟩ := cells_of_logs hnew hlogs
  obtain ⟨t, id, hnumbered, hid, hheld⟩ :=
    hsearch {} (.object ⟨15⟩) [.object ⟨15⟩] g rfl List.mem_cons_self hrun
  rw [← hcells] at hstanding hheld
  have hlength : cells.toList.length = 2 := by rw [← List.length_map, hstanding]; rfl
  rw [hlength] at hheld
  exact ⟨cleanup, cells, g, t, id, hk, hstanding, hrun, hnumbered, hid, hheld⟩

end Realm
end Retention
