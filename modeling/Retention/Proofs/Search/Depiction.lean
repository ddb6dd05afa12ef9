import Retention.Proofs.Search.Exploration
import Retention.Proofs.Search.Independence

/-!
# What graphs show

A search of a well-formed heap answers with a graph of what the held values lead
to (`exists_depicts`): its nodes are the objects and symbols discovered and the
target, its references are those of the discovered objects, and its entries are
those of the discovered collections, each once (`Graph.Depicts`).

* `Finished.exists_id_of_discovered`: what is discovered has a node;
* `discovered_of_exec`: what has a node is discovered, or is the target.
-/

namespace Retention

theorem Interner.Denotes.unique {t : Interner} {v : Value} {e e' : Endpoint} (h : t.Denotes v e)
    (h' : t.Denotes v e') : e = e' := by
  have hprim : ∀ {id}, t.Names v id → v.hasIdentity = true := fun ⟨i, hi, _⟩ => by
    rw [Identity.ofValue_eq_ok.mp hi]
    cases i <;> rfl
  rcases h with ⟨id, hid, rfl⟩ | ⟨hv, rfl⟩ <;> rcases h' with ⟨id', hid', rfl⟩ | ⟨hv', rfl⟩
  · rw [hid.unique hid']
  · cases (hprim hid).symm.trans hv'
  · cases (hprim hid').symm.trans hv
  · rfl

theorem Object.References.entryKey {o : Object} {ref : ObjectRef} {t : Interner} {i : Nat}
    {child key : Value} {strength : Strength} {strong : Bool} {value? : Option Value}
    (hr : o.References ref t (.entryKey i) child strength) (he : o.HasEntry i key strong value?) :
    child = key ∧ (strength != .weak) = strong := by
  cases hr <;> cases he <;> simp_all

theorem Object.References.entryValue {o : Object} {ref : ObjectRef} {t : Interner} {i : Nat}
    {child key : Value} {strength : Strength} {strong : Bool} {value? : Option Value}
    (hr : o.References ref t (.entryValue i) child strength)
    (he : o.HasEntry i key strong value?) : value? = some child := by
  cases hr <;> cases he <;> simp_all

/-- A graph shows what held values lead to in a heap, under the ids that an
interner gives. -/
structure Graph.Depicts (g : Graph) (h : Heap) (options : Search.Options) (target : Identity)
    (held : List Value) (t : Interner) : Prop where
  /-- Ids belong to values one to one. -/
  lawful : t.Lawful
  /-- The values with ids are what is discovered and the target. -/
  mem_values : ∀ i, i ∈ t.values.toList ↔ h.Discovered held i ∨ i = target
  /-- Each of them has one node. -/
  nodup : t.values.toList.Nodup
  nodes : g.nodes.map GraphNode.id = t.values.toList.zipIdx.map fun (i, n) => ⟨i.kind, n⟩
  target : t.id? target = some g.target
  /-- Each reference of the graph is one of an object that is discovered. -/
  edge : ∀ e ∈ g.edges, ∃ ref o child strength, h.Discovered held (.object ref) ∧
    h.object ref = .ok o ∧ o.References ref t e.kind child strength ∧
    e.Records t ref e.kind child strength
  /-- References to primitives are there only if they are to be recorded. -/
  primitive : ∀ e ∈ g.edges, e.child.node? = none → options.recordPrimitives = true
  /-- Each reference of an object that is discovered is there with its strength. -/
  reference : ∀ {ref o kind child strength}, h.Discovered held (.object ref) →
    h.object ref = .ok o → o.References ref t kind child strength →
    (child.hasIdentity = true ∨ options.recordPrimitives = true) →
    ∃ e ∈ g.edges, t.Names (.object ref) e.parent ∧ e.kind = kind ∧
      (∀ id, e.child.node? = some id ↔ t.Names child id) ∧
      e.strong = (strength != .weak) ∧ t.Owns e.owners strength
  /-- There is one for each parent, kind and child, and for each parent and kind
  one to a primitive. -/
  distinct : (g.edges.map fun e => (e.parent, e.kind, e.child.node?)).Nodup
  /-- Each entry of the graph is one of a collection that is discovered. -/
  entry : ∀ c ∈ g.entries, ∃ ref o key strong value?, h.Discovered held (.object ref) ∧
    h.object ref = .ok o ∧ o.HasEntry c.entry key strong value? ∧
    c.Records t ref c.entry key strong value?
  /-- Each entry of a collection that is discovered is there. -/
  entered : ∀ {ref o i key strong value?}, h.Discovered held (.object ref) →
    h.object ref = .ok o → o.HasEntry i key strong value? →
    ∃ c ∈ g.entries, c.Records t ref i key strong value?
  /-- There is one for each collection and position. -/
  positions : (g.entries.map fun c => (c.collection, c.entry)).Nodup
  /-- Entries agree with the references to their keys and values. -/
  agrees : ∀ c ∈ g.entries, ∀ e ∈ g.edges, e.parent = c.collection →
    (e.kind = .entryKey c.entry → e.child = c.key ∧ e.strong = c.keyIsStrong) ∧
      (e.kind = .entryValue c.entry → c.value? = some e.child)

/-- What holds of related items between two of one list holds between those of the other. -/
theorem pairwise_of_rel {α β : Type} {R : α → β → Prop} {S : α → α → Prop} {T : β → β → Prop}
    {as : List α} {bs : List β} (h : List.Forall₂ R as bs) (hs : as.Pairwise S)
    (hST : ∀ {a a' b b'}, R a b → R a' b' → S a a' → T b b') : bs.Pairwise T := by
  induction h with
  | nil => exact .nil
  | cons hab hrest ih =>
    rw [List.pairwise_cons] at hs
    refine .cons (fun b' hb' => ?_) (ih hs.2)
    obtain ⟨a', ha', hab'⟩ := (Search.exists_of_forall₂ hrest).2 b' hb'
    exact hST hab hab' (hs.1 a' ha')

namespace Search

variable {h : Heap} {options : Options} {held : List Value} {s : State} {i : Identity}

theorem mem_requestsOf_builtin {ref : ObjectRef} {req : Request} :
    req ∈ requestsOf h .builtin ref ↔ ∃ o, h.object ref = .ok o ∧ req ∈ o.requests ref := by
  cases ho : h.object ref with
  | error cause => simp [requestsOf, requestsFor, ho, bind, Except.bind, Except.toOption]
  | ok o => simp [requestsOf, requestsFor_builtin ho, Except.toOption, Object.requests]

/-! ## What is discovered -/

/-- What is discovered has a node, and is on the agenda if it is an object. -/
theorem Finished.exists_id_of_discovered (hf : Finished h options .builtin held s)
    (hi : h.Discovered held i) : ∃ id, s.interner.id? i = some id ∧
      ∀ ref, i = .object ref → ref ∈ s.agenda.toList := by
  induction hi with
  | held hi =>
    obtain ⟨id, hid, -, hr⟩ := hf.holds _ hi
    exact ⟨id, hid, hr⟩
  | @refers ref o i _ ho hi ih =>
    obtain ⟨-, -, href⟩ := ih
    have hedge : ∀ {req strength}, (req ∈ kindRequests ref o.kind ∨ req ∈ ownRequests ref o) →
        req.Covers ref i.toValue strength → ∃ id, s.interner.id? i = some id ∧
          ∀ ref, i = .object ref → ref ∈ s.agenda.toList := fun hreq hcovers => by
      obtain ⟨e, -, id, -, hid, hr, -⟩ := hf.exists_edge (href ref rfl) ho hreq hcovers
      exact ⟨id, hid, hr⟩
    rcases hi with hi | hi | ⟨key, hi⟩
    · obtain ⟨req, hreq, hcovers⟩ := exists_covers_of_holdsStrongly hi
      exact hedge hreq hcovers
    · obtain ⟨req, hreq, hcovers⟩ := exists_covers_of_holdsWeakly hi
      exact hedge (.inl hreq) hcovers
    · obtain ⟨req, hreq, hcovers⟩ := exists_covers_of_holdsJointly hi
      exact hedge (.inl hreq) hcovers

/-- What has a node is discovered or is the target, and what is expanded is
discovered: a search mirrors itself. -/
theorem discovered_of_exec (hw : h.WellFormed) (target : Identity) (htarget : h.has target = true)
    (hheld : ∀ v ∈ held, h.isValid v = true) {g : Graph}
    (hexec : exec (search h options .builtin target.toValue held) {} = (.ok g, s)) :
    (∀ i ∈ s.interner.values.toList, h.Discovered held i ∨ i = target) ∧
      ∀ ref ∈ s.agenda.toList, h.Discovered held (.object ref) := by
  have hroots := isValid_of_mem_roots htarget hheld
  let m : Mirror := .ofCarries hw target htarget hheld .none (.none hw hroots) options options false
    rfl (by rw [Bool.not_false, Bool.and_true])
  have hfinds : ∀ v ∈ held, m.Finds v := fun v hv i hi => discovered_of_held hv hi
  obtain ⟨-, t, -, ⟨f, hr⟩, -⟩ := (Mirror.search_mirrored hfinds).exists_ok hexec
  exact ⟨hr.parallel.met, hr.parallel.found⟩

/-! ## References -/

/-- A reference of an object that is expanded is recorded with its strength. -/
theorem Finished.exists_reference (hf : Finished h options .builtin held s) {ref : ObjectRef}
    {o : Object} {kind : EdgeKind} {child : Value} {strength : Strength}
    (href : ref ∈ s.agenda.toList) (ho : h.object ref = .ok o)
    (hr : o.References ref s.interner kind child strength)
    (hprim : child.hasIdentity = true ∨ options.recordPrimitives = true) :
    ∃ e ∈ s.edges.toList, s.interner.Names (.object ref) e.parent ∧ e.kind = kind ∧
      (∀ id, e.child.node? = some id ↔ s.interner.Names child id) ∧
      e.strong = (strength != .weak) ∧ s.interner.Owns e.owners strength := by
  obtain ⟨req, hreq, hadds⟩ := exists_adds_of_references hr
  have hperforms := hf.expands ref href _ (requestsFor_builtin ho) req hreq
  obtain ⟨parentId, child?, hp, hends, hrec⟩ := hperforms.notes hadds
  have hrecorded : child? = none → options.recordPrimitives = true := fun hnone => by
    have hsome := isSome_of_endsAt hends
    rw [hnone] at hsome
    exact hprim.resolve_left fun hidentity => by rw [hidentity] at hsome; cases hsome
  obtain ⟨e, he, rfl, rfl, hchild⟩ := hf.traced.recorded _ _ _ (hrec hrecorded)
  -- the same reference may have been recorded for another request
  obtain ⟨req', parent', kind', child', strength', hreq', hadds', hrecords⟩ := hf.traced.edge e he
  obtain ⟨o', ho', hasks'⟩ := hreq'.asks hadds'
  obtain ⟨o₁, ho₁, hasks⟩ :=
    Requested.asks (requested_builtin.mpr ⟨ref, o, ho, List.mem_append.mp hreq⟩) hadds
  cases hf.indexed.lawful.eq_of_names hrecords.parent hp
  cases ho₁.symm.trans ho'
  have hsame : strength' = strength := by
    rw [hasks'.strength, hasks.strength, hrecords.kind]
  subst hsame
  exact ⟨e, he, hp, rfl, fun id => by rw [hchild]; exact eq_some_iff_of_endsAt hends id,
    hrecords.strong, hrecords.owners⟩

/-- A reference that is recorded is one of an object that is expanded. -/
theorem Explored.exists_references
    (hx : Explored h (Given held) (s.agenda.toList.flatMap (requestsOf h .builtin)) s) {e : Edge}
    (he : e ∈ s.edges.toList) : ∃ ref ∈ s.agenda.toList, ∃ o child strength,
      h.object ref = .ok o ∧ o.References ref s.interner e.kind child strength ∧
      e.Records s.interner ref e.kind child strength := by
  obtain ⟨req, parent, kind, child, strength, hreq, hadds, hrecords⟩ := hx.traced.edge e he
  obtain ⟨ref, href, hreq⟩ := List.mem_flatMap.mp hreq
  obtain ⟨o, ho, hreq⟩ := mem_requestsOf_builtin.mp hreq
  obtain rfl := hrecords.kind
  have hasks := (List.mem_append.mp hreq).elim (asks_of_mem_kindRequests · hadds)
    (asks_of_mem_ownRequests · hadds)
  obtain rfl := hasks.parent
  exact ⟨parent, href, o, child, strength, ho, references_iff.mpr ⟨req, hreq, hadds⟩, hrecords⟩

/-! ## Entries -/

/-- An entry that is recorded is one of an object that is expanded. -/
theorem Explored.exists_hasEntry
    (hx : Explored h (Given held) (s.agenda.toList.flatMap (requestsOf h .builtin)) s)
    {c : CollectionEntry} (hc : c ∈ s.entries.toList) : ∃ ref ∈ s.agenda.toList,
      ∃ o key strong value?, h.object ref = .ok o ∧ o.HasEntry c.entry key strong value? ∧
        c.Records s.interner ref c.entry key strong value? := by
  obtain ⟨req, hreq, henters⟩ := (exists_of_forall₂ hx.entered).2 c hc
  obtain ⟨ref, href, hreq⟩ := List.mem_flatMap.mp (List.mem_filter.mp hreq).1
  obtain ⟨o, ho, hreq⟩ := mem_requestsOf_builtin.mp hreq
  cases req with
  | entry collection i key keyStrength value? =>
    obtain ⟨rfl, hentry⟩ := hasEntry_of_mem hreq
    obtain rfl := henters.entry
    exact ⟨collection, href, o, key, _, _, ho, hentry, henters⟩
  | _ => exact henters.elim

/-- An entry of an object that is expanded is recorded. -/
theorem Explored.exists_records
    (hx : Explored h (Given held) (s.agenda.toList.flatMap (requestsOf h .builtin)) s)
    {ref : ObjectRef} {o : Object} {i : Nat} {key : Value} {strong : Bool} {value? : Option Value}
    (href : ref ∈ s.agenda.toList) (ho : h.object ref = .ok o)
    (he : o.HasEntry i key strong value?) :
    ∃ c ∈ s.entries.toList, c.Records s.interner ref i key strong value? := by
  obtain ⟨keyStrength, valueStrength?, hreq, rfl, rfl⟩ := exists_entry_of_hasEntry ref he
  have hmem : .entry ref i key keyStrength valueStrength? ∈
      (s.agenda.toList.flatMap (requestsOf h .builtin)).filter (·.entryAt?.isSome) :=
    List.mem_filter.mpr ⟨List.mem_flatMap.mpr ⟨ref, href, mem_requestsOf_builtin.mpr ⟨o, ho, hreq⟩⟩,
      rfl⟩
  obtain ⟨c, hc, henters⟩ := (exists_of_forall₂ hx.entered).1 _ hmem
  exact ⟨c, hc, henters⟩

/-- Objects ask for each entry once. -/
theorem pairwise_apart_requestsOf {refs : List ObjectRef} (hrefs : refs.Nodup) :
    (refs.flatMap (requestsOf h .builtin)).Pairwise Request.Apart := by
  have hat : ∀ {ref req place}, req ∈ requestsOf h .builtin ref → req.entryAt? = some place →
      place.1 = ref := fun {ref req place} hreq hplace => by
    obtain ⟨o, -, hreq⟩ := mem_requestsOf_builtin.mp hreq
    cases req <;> cases hplace
    exact (hasEntry_of_mem hreq).1
  refine List.pairwise_flatMap.mpr ⟨fun ref _ => ?_, hrefs.imp fun hne req hreq req' hreq' => ?_⟩
  · cases ho : h.object ref with
    | error cause =>
      have hnone : requestsOf h .builtin ref = [] := List.eq_nil_iff_forall_not_mem.mpr
        fun req hreq => by
          obtain ⟨o, ho', -⟩ := mem_requestsOf_builtin.mp hreq
          cases ho.symm.trans ho'
      rw [hnone]
      exact .nil
    | ok o =>
      rw [requestsOf, requestsFor_builtin ho]
      exact pairwise_apart_requests o ref
  · cases hplace : req.entryAt? with
    | none => exact .inl hplace
    | some place =>
      refine .inr fun he => hne ?_
      rw [← hat hreq hplace, hat hreq' (he.symm.trans hplace)]

/-- Each position of a collection is recorded once. -/
theorem Explored.nodup_positions
    (hx : Explored h (Given held) (s.agenda.toList.flatMap (requestsOf h .builtin)) s) :
    (s.entries.toList.map fun c => (c.collection, c.entry)).Nodup := by
  have hapart := (pairwise_apart_requestsOf (h := h) hx.indexed.nodup).filter (·.entryAt?.isSome)
  refine List.pairwise_map.mpr (pairwise_of_rel hx.entered hapart ?_)
  rintro req req' c c' hc hc' ha he
  cases req <;> cases req' <;> first | exact hc.elim | exact hc'.elim | skip
  obtain ⟨hcollection, hentry⟩ := Prod.mk.inj he
  have hcoll := hc.collection
  rw [hcollection] at hcoll
  cases hx.indexed.lawful.eq_of_names hcoll hc'.collection
  refine ha.elim nofun fun hne => hne ?_
  rw [Request.entryAt?, Request.entryAt?, ← hc.entry, ← hc'.entry, hentry]

/-- A reference by which an entry is held ends where the entry says. -/
theorem Explored.agrees
    (hx : Explored h (Given held) (s.agenda.toList.flatMap (requestsOf h .builtin)) s)
    {c : CollectionEntry} (hc : c ∈ s.entries.toList) {e : Edge} (he : e ∈ s.edges.toList)
    (hparent : e.parent = c.collection) :
    (e.kind = .entryKey c.entry → e.child = c.key ∧ e.strong = c.keyIsStrong) ∧
      (e.kind = .entryValue c.entry → c.value? = some e.child) := by
  obtain ⟨ref, -, o, key, strong, value?, ho, hentry, hc⟩ := hx.exists_hasEntry hc
  obtain ⟨ref', -, o', child, strength, ho', hr, he⟩ := hx.exists_references he
  -- both are of the same object
  have hp := he.parent
  rw [hparent] at hp
  cases hx.indexed.lawful.eq_of_names hp hc.collection
  cases ho.symm.trans ho'
  constructor
  · intro hkind
    rw [hkind] at hr
    obtain ⟨rfl, rfl⟩ := hr.entryKey hentry
    exact ⟨he.child.unique hc.key, he.strong.trans hc.strong.symm⟩
  · intro hkind
    rw [hkind] at hr
    obtain rfl := hr.entryValue hentry
    have hvalue := hc.value
    cases hv : c.value? with
    | none =>
      rw [hv] at hvalue
      cases hvalue
    | some e' =>
      rw [hv] at hvalue
      cases hvalue with
      | some hden => rw [he.child.unique hden]

/-! ## The graph -/

/-- Nodes are numbered in the order in which their values were met. -/
theorem Indexed.map_id_nodes (hi : Indexed h s) :
    s.nodes.toList.map GraphNode.id =
      s.interner.values.toList.zipIdx.map fun (i, n) => ⟨i.kind, n⟩ := by
  refine List.ext_getElem? fun n => ?_
  rw [List.getElem?_map, List.getElem?_map, List.getElem?_zipIdx]
  refine (hi.nodes n).trans ?_
  rw [Option.map_map]
  simp [Function.comp_def]

/-- A search of a well-formed heap answers with a graph of what the held values
lead to. -/
theorem exists_depicts (hw : h.WellFormed) (target : Identity) (htarget : h.has target = true)
    (hheld : ∀ v ∈ held, h.isValid v = true) (options : Options) :
    ∃ g t, (run h options .builtin target.toValue held).1 = .ok g ∧
      g.Depicts h options target held t := by
  obtain ⟨g, s, hrun, hexec⟩ := exists_exec_builtin hw target htarget hheld options
  obtain ⟨hmet, hfound⟩ := discovered_of_exec hw target htarget hheld hexec
  have hx := (search_explored target.toValue held).of_exec_eq_ok hexec
  obtain ⟨id, hf, hid, rfl⟩ := finished_of_exec hexec
  rw [Interner.names_toValue] at hid
  have hlawful := hf.indexed.lawful
  have hdistinct := hf.moves.distinct
  have hagenda : ∀ {ref}, h.Discovered held (.object ref) → ref ∈ s.agenda.toList := fun hr => by
    obtain ⟨-, -, href⟩ := hf.exists_id_of_discovered hr
    exact href _ rfl
  refine ⟨_, s.interner, hrun, ?_⟩
  exact {
    lawful := hlawful
    mem_values := fun i => by
      refine ⟨hmet i, ?_⟩
      rintro (hi | rfl)
      · obtain ⟨id', hid', -⟩ := hf.exists_id_of_discovered hi
        exact hlawful.mem_values hid'
      · exact hlawful.mem_values hid
    nodup := hlawful.nodup
    nodes := hf.indexed.map_id_nodes
    target := hid
    edge := fun e he => by
      obtain ⟨ref, href, o, child, strength, ho, hr, hrecords⟩ := hx.exists_references he
      exact ⟨ref, o, child, strength, hfound ref href, ho, hr, hrecords⟩
    primitive := hdistinct.primitives
    reference := fun hr ho href hprim => hf.exists_reference (hagenda hr) ho href hprim
    distinct := hdistinct.nodup
    entry := fun c hc => by
      obtain ⟨ref, href, o, key, strong, value?, ho, he, hrecords⟩ := hx.exists_hasEntry hc
      exact ⟨ref, o, key, strong, value?, hfound ref href, ho, he, hrecords⟩
    entered := fun hr ho he => hx.exists_records (hagenda hr) ho he
    positions := hx.nodup_positions
    agrees := fun c hc e he hparent => hx.agrees hc he hparent }

theorem exists_depicts_oneEntry :
    ∃ g t, (run .oneEntry {} .builtin (.object ⟨2⟩) [.object ⟨0⟩]).1 = .ok g ∧
      g.Depicts .oneEntry {} (.object ⟨2⟩) [.object ⟨0⟩] t :=
  exists_depicts Heap.wellFormed_oneEntry (.object ⟨2⟩) (by decide) (by decide) {}

end Search
end Retention
