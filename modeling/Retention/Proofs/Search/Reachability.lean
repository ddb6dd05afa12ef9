import Retention.Proofs.Search.Verdict

/-!
# Searches and what a heap keeps alive

Whatever a search records was asked for, and whatever it holds was given to it
(`Traced`); what an object refers to is recorded once the object is expanded
(`Finished.exists_edge`). So what a search of a well-formed heap reaches is what
the heap keeps alive (`succeeded_iff_heap_live`).

* `Finished.exists_live_of_spreads`: what is reached is alive;
* `Finished.exists_spreads_of_live`: what is alive is reached.
-/

namespace Retention

theorem Interner.Denotes.mono {t t' : Interner} {v : Value} {e : Endpoint} (hd : t.Denotes v e)
    (ht : ∀ {v id}, t.Names v id → t'.Names v id) : t'.Denotes v e :=
  hd.imp_left fun ⟨id, hid, he⟩ => ⟨id, ht hid, he⟩

/-- A value that is denoted by a node is named by it. -/
theorem Interner.Denotes.names {t : Interner} {v : Value} {e : Endpoint} {id : NodeId}
    (hd : t.Denotes v e) (he : e.node? = some id) : t.Names v id := by
  rcases hd with ⟨id', hid', rfl⟩ | ⟨-, rfl⟩
  · obtain rfl : id' = id := Option.some.inj he
    exact hid'
  · cases he

theorem Edge.Records.mono {t t' : Interner} {e : Edge} {parent : ObjectRef} {kind : EdgeKind}
    {child : Value} {strength : Strength} (he : e.Records t parent kind child strength)
    (ht : ∀ {v id}, t.Names v id → t'.Names v id) : e.Records t' parent kind child strength :=
  ⟨ht he.parent, he.kind, he.child.mono ht, he.strong, he.owners.mono ht⟩

/-- The values that a reference of an object needs. -/
def Strength.premises (parent : ObjectRef) : Strength → List Value
  | .joint owners => owners
  | .strong | .weak => [.object parent]

namespace Search

/-! ## Where things come from -/

/-- A reference that is recorded was asked for. -/
def State.Accounts (s : State) (asked : Request → Prop) (e : Edge) : Prop :=
  ∃ req parent kind child strength, asked req ∧ req.Adds s.interner parent kind child strength ∧
    e.Records s.interner parent kind child strength

/-- The references recorded were asked for, the held nodes were given, and what
is remembered to be recorded is recorded. -/
structure Traced (asked : Request → Prop) (given : Identity → Prop) (s : State) : Prop where
  edge : ∀ e ∈ s.edges.toList, s.Accounts asked e
  held : ∀ r ∈ s.log, r.edge? = none → ∃ i, given i ∧ s.interner.id? i = some r.child
  recorded : ∀ parent kind child?, s.recorded.contains (parent, kind, child?) = true →
    ∃ e ∈ s.edges.toList, e.parent = parent ∧ e.kind = kind ∧ e.child.node? = child?

variable {h : Heap} {options : Options} {asked : Request → Prop} {given : Identity → Prop}
  {s s' : State} {held : List Value} {id : NodeId} {i : Identity}

theorem Grows.accounts (hg : Grows s s') {e : Edge} (he : s.Accounts asked e) :
    s'.Accounts asked e := by
  obtain ⟨req, parent, kind, child, strength, hreq, hadds, hrecords⟩ := he
  exact ⟨req, parent, kind, child, strength, hreq, hadds.mono hg.names, hrecords.mono hg.names⟩

theorem Traced.init : Traced asked given {} where
  edge := by simp
  held := by simp [State.log]
  recorded := by simp

/-- Nothing new is recorded, and nothing new is held. -/
theorem Traced.carry (ht : Traced asked given s) (hg : Grows s s') (hedges : s'.edges = s.edges)
    (hrec : s'.recorded = s.recorded) {news : List Resolution} (hlog : s'.log = s.log ++ news)
    (hnews : ∀ r ∈ news, r.edge? ≠ none) : Traced asked given s' where
  edge e he := hg.accounts (ht.edge e (hedges ▸ he))
  held r hr hnone := by
    rw [hlog] at hr
    obtain ⟨i, hi, hid⟩ :=
      ht.held r ((List.mem_append.mp hr).resolve_right fun hr => hnews r hr hnone) hnone
    exact ⟨i, hi, hg.ids hid⟩
  recorded parent kind child? hk := by
    rw [hedges]
    exact ht.recorded parent kind child? (hrec ▸ hk)

theorem Traced.record (ht : Traced asked given s) {e : Edge} {strength : Strength}
    (he : s.Accounts asked e) : Traced asked given ((s.record e).follow options e strength) := by
  obtain ⟨news, hlog, hnews⟩ := exists_log_follow options (s.record e) e strength
  have hr := records_follow options (s.record e) e strength
  have hrecord : Traced asked given (s.record e) := by
    have hedges : (s.record e).edges.toList = s.edges.toList ++ [e] := Array.toList_push
    refine ⟨fun d hd => ?_, ht.held, fun parent kind child? hk => ?_⟩
    · rw [hedges, List.mem_append, List.mem_singleton] at hd
      rcases hd with hd | rfl
      · exact ht.edge d hd
      · exact he
    · rw [hedges]
      rcases Bool.or_eq_true .. ▸ Std.HashSet.contains_insert.symm.trans hk with hk | hk
      · cases beq_iff_eq.mp hk
        exact ⟨e, List.mem_append_right _ (List.mem_singleton_self e), rfl, rfl, rfl⟩
      · obtain ⟨d, hd, hsame⟩ := ht.recorded parent kind child? hk
        exact ⟨d, List.mem_append_left _ hd, hsame⟩
  exact hrecord.carry (.of_records hr (log_prefix_follow ..))
    (eq_of_view State.records State.edges (fun _ => rfl) hr)
    (eq_of_view State.records State.recorded (fun _ => rfl) hr) hlog hnews

theorem Traced.keep (ht : Traced asked given s) (hi : given i) (hid : s.interner.id? i = some id) :
    Traced asked given (s.keep id) where
  edge := ht.edge
  held r hr hnone := by
    rw [State.keep, State.push_eq, State.log_pushAll] at hr
    rcases List.mem_append.mp hr with hr | hr
    · exact ht.held r hr hnone
    · rw [List.mem_singleton.mp hr]
      exact ⟨i, hi, hid⟩
  recorded := ht.recorded

theorem Traced.resolve (ht : Traced asked given s) (r : Resolution) :
    Traced asked given (s.next.resolve r) := by
  have hr := records_resolve s r
  obtain ⟨news, hlog, hnews⟩ := exists_log_resolve s r
  exact ht.carry (.of_records hr (log_prefix_resolve s r))
    (eq_of_view State.records State.edges (fun _ => rfl) hr)
    (eq_of_view State.records State.recorded (fun _ => rfl) hr) hlog hnews

theorem Move.traced (hm : Move h options asked given s s') (ht : Traced asked given s) :
    Traced asked given s' := by
  have hsame : ∀ {t : State}, Grows s t → t.edges = s.edges → t.recorded = s.recorded →
      t.log = s.log → Traced asked given t := fun hg he hr hl =>
    ht.carry hg he hr (hl.trans (List.append_nil _).symm) (by simp)
  have hg := hm.grows
  cases hm with
  | discover hd _ => rw [← hd.frame] at hg ⊢; exact hsame hg rfl rfl rfl
  | hold hv hid _ => exact ht.keep hv hid
  | record hreq hadds he => exact ht.record ⟨_, _, _, _, _, hreq, hadds, he⟩
  | enter => exact hsame hg rfl rfl rfl
  | note => exact hsame hg rfl rfl rfl
  | expand => exact hsame hg rfl rfl rfl
  | resolve => exact ht.resolve _

theorem Moves.traced (hm : Moves h options asked given {} s) : Traced asked given s :=
  hm.keep Move.traced .init

/-! ## What is reached is alive -/

theorem forall₂_premises {t : Interner} {e : Edge} {parent : ObjectRef} {kind : EdgeKind}
    {child : Value} {strength : Strength} (he : e.Records t parent kind child strength)
    (howned : strength.isOwned = true) :
    List.Forall₂ t.Names (strength.premises parent) e.premises := by
  rw [premises_of_owns he.owners howned]
  cases strength with
  | strong | weak => exact .cons he.parent .nil
  | joint owners => exact he.owners

theorem exists_of_forall₂ {α β : Type} {R : α → β → Prop} {as : List α} {bs : List β}
    (hr : List.Forall₂ R as bs) : (∀ a ∈ as, ∃ b ∈ bs, R a b) ∧ ∀ b ∈ bs, ∃ a ∈ as, R a b := by
  induction hr with
  | nil => simp
  | cons hab _ ih =>
    simp only [List.forall_mem_cons, List.exists_mem_cons_iff]
    exact ⟨⟨.inl hab, fun a ha => .inr (ih.1 a ha)⟩, .inl hab, fun b hb => .inr (ih.2 b hb)⟩

/-- An object keeps what it refers to alive once what the reference needs is. -/
theorem live_of_refers {ref : ObjectRef} {o : Object} {strength : Strength} {strongOnly : Bool}
    (ho : h.object ref = .ok o) (hr : o.Refers ref i.toValue strength)
    (hmode : strongOnly = true → strength ≠ .weak)
    (hp : ∀ v ∈ strength.premises ref, ∃ j : Identity, v = j.toValue ∧ h.Live strongOnly held j) :
    h.Live strongOnly held i := by
  have hobject : ∀ {j : Identity}, Value.object ref = j.toValue → h.Live strongOnly held j →
      h.Live strongOnly held (.object ref) := fun {j} hj hl =>
    Identity.toValue_injective (i := .object ref) hj ▸ hl
  cases strength with
  | strong =>
    obtain ⟨j, hj, hl⟩ := hp _ (List.mem_singleton_self _)
    exact .strong (hobject hj hl) ho hr
  | weak =>
    obtain ⟨j, hj, hl⟩ := hp _ (List.mem_singleton_self _)
    exact .weak (Bool.eq_false_iff.mpr fun hm => hmode hm rfl) (hobject hj hl) ho hr
  | joint owners =>
    obtain ⟨key, rfl, hjoint⟩ := hr
    obtain ⟨j, hj, hl⟩ := hp _ List.mem_cons_self
    obtain ⟨k, rfl, hk⟩ := hp _ (List.mem_cons_of_mem _ (List.mem_singleton_self key))
    exact .joint (hobject hj hl) ho hjoint hk

variable (hf : Finished h options .builtin held s)
include hf

theorem Finished.traced : Traced (Requested h .builtin) (Given held) s := hf.moves.traced

theorem Finished.linked_builtin : Linked options s := hf.linked fun _ hreq => hreq.isOwned_builtin

/-- What is reached is alive. -/
theorem Finished.exists_live_of_spreads (hid : s.Spreads false id) :
    ∃ i, s.interner.id? i = some id ∧ h.Live options.strongOnly held i := by
  induction hid with
  | held hr hh =>
    obtain ⟨i, hi, hid⟩ := hf.traced.held _ hr hh.1
    exact ⟨i, hid, .held hi⟩
  | rule hρ _ _ ih =>
    obtain ⟨e, he, hrule, hcounts⟩ := (hf.linked_builtin.rules _).mp hρ
    obtain ⟨child, hc, rfl⟩ := Option.map_eq_some_iff.mp hrule
    obtain ⟨req, parent, kind, v, strength, hreq, hadds, hrecords⟩ := hf.traced.edge e he
    obtain ⟨o, ho, hasks⟩ := hreq.asks hadds
    rcases hrecords.child with ⟨id, ⟨i, hi, hid⟩, hnode⟩ | ⟨-, hprim⟩
    · rw [hnode] at hc
      cases hc
      obtain rfl := Identity.ofValue_eq_ok.mp hi
      refine ⟨i, hid, live_of_refers ho hasks.refers (fun hmode hweak => ?_) fun w hw => ?_⟩
      · have hstrong := hrecords.strong
        rw [hcounts hmode, hweak] at hstrong
        cases hstrong
      · obtain ⟨p, hp, hwp⟩ := (exists_of_forall₂ (forall₂_premises hrecords
          hasks.refers.isOwned)).1 w hw
        obtain ⟨j, hj, hl⟩ := ih p hp
        exact ⟨j, hf.indexed.lawful.eq_of_names hwp (Interner.names_toValue.mpr hj), hl⟩
    · rw [hprim] at hc
      cases hc

/-! ## What is alive is reached -/

/-- A reference of an object that is expanded is recorded as it is. -/
theorem Finished.exists_edge {ref : ObjectRef} {o : Object} {req : Request} {strength : Strength}
    (href : ref ∈ s.agenda.toList) (ho : h.object ref = .ok o)
    (hreq : req ∈ kindRequests ref o.kind ∨ req ∈ ownRequests ref o)
    (hcovers : req.Covers ref i.toValue strength) :
    ∃ e ∈ s.edges.toList, ∃ id, e.child.node? = some id ∧ s.interner.id? i = some id ∧
      (∀ ref, i = .object ref → ref ∈ s.agenda.toList) ∧ e.strong = (strength != .weak) ∧
      List.Forall₂ s.interner.Names (strength.premises ref) e.premises := by
  have hperforms := hf.expands ref href _ (requestsFor_builtin ho) req (List.mem_append.mpr hreq)
  obtain ⟨kind, ⟨parentId, child?, hp, hends, hrec⟩, hadds⟩ := hcovers options s hperforms
  rw [State.EndsAt, Identity.ofValue_toValue] at hends
  obtain ⟨id, rfl, hid, hagenda⟩ := hends
  obtain ⟨e, he, rfl, rfl, hchild⟩ := hf.traced.recorded _ _ _ (hrec fun hnone => nomatch hnone)
  -- the same reference may have been recorded for another request
  obtain ⟨req', parent', kind', child', strength', hreq', hadds', hrecords⟩ := hf.traced.edge e he
  obtain ⟨o', ho', hasks'⟩ := hreq'.asks hadds'
  obtain ⟨o₁, ho₁, hasks⟩ := Requested.asks (requested_builtin.mpr ⟨ref, o, ho, hreq⟩) hadds
  cases hf.indexed.lawful.eq_of_names hrecords.parent hp
  cases ho₁.symm.trans ho'
  have hsame : strength' = strength := by
    rw [hasks'.strength, hasks.strength, hrecords.kind]
  subst hsame
  exact ⟨e, he, id, hchild, hid, hagenda, hrecords.strong,
    forall₂_premises hrecords hasks.refers.isOwned⟩

/-- What an object refers to is reached once what the reference needs is. -/
theorem Finished.spreads_of_covers {ref : ObjectRef} {o : Object} {req : Request}
    {strength : Strength} (href : ref ∈ s.agenda.toList) (ho : h.object ref = .ok o)
    (hreq : req ∈ kindRequests ref o.kind ∨ req ∈ ownRequests ref o)
    (hcovers : req.Covers ref i.toValue strength)
    (hmode : options.strongOnly = true → strength ≠ .weak)
    (hp : ∀ v ∈ strength.premises ref, ∃ id, s.interner.Names v id ∧ s.Spreads false id) :
    ∃ id, s.interner.id? i = some id ∧ s.Spreads false id ∧
      ∀ ref, i = .object ref → ref ∈ s.agenda.toList := by
  obtain ⟨e, he, id, hchild, hid, hagenda, hstrong, hnames⟩ := hf.exists_edge href ho hreq hcovers
  have hcounts : options.strongOnly = true → e.strong = true := fun hm => by
    rw [hstrong]
    exact bne_iff_ne.mpr (hmode hm)
  refine ⟨id, hid, hf.linked_builtin.spreads_of_edge he hchild hcounts (fun hno => nomatch hno)
    fun p hpmem => ?_, hagenda⟩
  obtain ⟨v, hv, hvp⟩ := (exists_of_forall₂ hnames).2 p hpmem
  obtain ⟨p', hvp', hs⟩ := hp v hv
  rwa [hvp.unique hvp']

/-- What is alive is reached, and on the agenda if it is an object. -/
theorem Finished.exists_spreads_of_live (hlive : h.Live options.strongOnly held i) :
    ∃ id, s.interner.id? i = some id ∧ s.Spreads false id ∧
      ∀ ref, i = .object ref → ref ∈ s.agenda.toList := by
  induction hlive with
  | held hi =>
    obtain ⟨id, hid, hlog, hr⟩ := hf.holds _ hi
    exact ⟨id, hid, .held hlog ⟨rfl, rfl, rfl⟩, hr⟩
  | @strong ref o i _ ho hi ih =>
    obtain ⟨p, hp, hps, href⟩ := ih
    obtain ⟨req, hreq, hcovers⟩ := exists_covers_of_holdsStrongly hi
    refine hf.spreads_of_covers (href ref rfl) ho hreq hcovers (fun _ hweak => nomatch hweak) ?_
    rintro v hv
    rw [List.mem_singleton.mp hv]
    exact ⟨p, Interner.names_toValue.mpr hp, hps⟩
  | @weak ref o i hmode _ ho hi ih =>
    obtain ⟨p, hp, hps, href⟩ := ih
    obtain ⟨req, hreq, hcovers⟩ := exists_covers_of_holdsWeakly hi
    refine hf.spreads_of_covers (href ref rfl) ho (.inl hreq) hcovers
      (fun hm => nomatch hm.symm.trans hmode) ?_
    rintro v hv
    rw [List.mem_singleton.mp hv]
    exact ⟨p, Interner.names_toValue.mpr hp, hps⟩
  | @joint ref o key i _ ho hi _ ih ihkey =>
    obtain ⟨p, hp, hps, href⟩ := ih
    obtain ⟨k, hk, hks, -⟩ := ihkey
    obtain ⟨req, hreq, hcovers⟩ := exists_covers_of_holdsJointly hi
    refine hf.spreads_of_covers (href ref rfl) ho (.inl hreq) hcovers
      (fun _ hweak => nomatch hweak) ?_
    show ∀ v ∈ [Value.object ref, key.toValue], _
    simp only [List.mem_cons, List.not_mem_nil, or_false, forall_eq_or_imp, forall_eq]
    exact ⟨⟨p, Interner.names_toValue.mpr hp, hps⟩, k, Interner.names_toValue.mpr hk, hks⟩

omit hf in
/-- A search of a well-formed heap answers, and it reaches its target if and only
if the heap keeps the target alive. -/
theorem succeeded_iff_heap_live (hw : h.WellFormed) (target : Identity)
    (htarget : h.has target = true) (hheld : ∀ v ∈ held, h.isValid v = true) (options : Options) :
    ∃ g, (run h options .builtin target.toValue held).1 = .ok g ∧
      (g.succeeded = true ↔ h.Live options.strongOnly held target) := by
  have hanswers : ∃ g, (run h options .builtin target.toValue held).1 = .ok g :=
    exists_run_eq_ok (fun _ hreq => hreq.isValid_builtin hw) (by cases target <;> rfl)
      ((Heap.isValid_of_ofValue (Identity.ofValue_toValue target)).trans htarget) hheld
  obtain ⟨g, hrun⟩ := hanswers
  obtain ⟨s, hexec⟩ := exists_exec_of_run hrun
  obtain ⟨id, hf, hid, rfl⟩ := finished_of_exec hexec
  rw [Interner.names_toValue] at hid
  have hreached := hf.sound.coherent.reached_iff_spreads hf.drained id
  refine ⟨_, hrun, hreached.trans ⟨fun hs => ?_, fun hl => ?_⟩⟩
  · obtain ⟨i, hi, hl⟩ := hf.exists_live_of_spreads hs
    rwa [hf.indexed.lawful.injective hid hi]
  · obtain ⟨id', hid', hs, -⟩ := hf.exists_spreads_of_live hl
    rwa [Option.some.inj (hid.symm.trans hid')]

omit hf in
/-- The value of an entry is reached where the WeakMap and the key are held. -/
theorem succeeded_oneEntry :
    ∃ g, (run .oneEntry {} .builtin (.object ⟨2⟩) [.object ⟨0⟩, .object ⟨1⟩]).1 = .ok g ∧
      g.succeeded = true := by
  obtain ⟨g, hrun, hiff⟩ := succeeded_iff_heap_live (h := .oneEntry) Heap.wellFormed_oneEntry
    (.object ⟨2⟩) (by decide)
    (by decide : ∀ v ∈ [Value.object ⟨0⟩, .object ⟨1⟩], Heap.oneEntry.isValid v = true) {}
  have hlive : ∀ i : Identity, i.toValue ∈ [Value.object ⟨0⟩, .object ⟨1⟩] →
      Heap.oneEntry.Live true [.object ⟨0⟩, .object ⟨1⟩] i := fun _ => .held
  refine ⟨g, hrun, hiff.mpr (.joint (hlive (.object ⟨0⟩) (by decide)) rfl ?_
    (hlive (.object ⟨1⟩) (by decide)))⟩
  exact .weakMapValue (e := ⟨.object ⟨1⟩, .object ⟨2⟩⟩) rfl (by simp)

end Search
end Retention
