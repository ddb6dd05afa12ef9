import Retention.Proofs.Heap.Discovered
import Retention.Proofs.Heap.Listing
import Retention.Proofs.Search.Linking
import Retention.Proofs.Search.Performing

/-!
# The requests of the built-in analyzers

When an object is expanded, the requests are those for its internal slots, then
those for its prototype and properties (`requestsFor_builtin`). Their joint
references have owners (`Requested.isOwned_builtin`), and in a well-formed heap
they refer to what is there (`Requested.isValid_builtin`).
-/

namespace Retention

variable {h : Heap} {ref : ObjectRef} {o : Object} {req : Request}

theorem mem_numbered {α : Type} {items : List α} {requests : Nat → α → List Request} :
    req ∈ numbered items requests ↔ ∃ i a, items[i]? = some a ∧ req ∈ requests i a := by
  simp only [numbered, List.mem_flatMap, Prod.exists, List.mem_zipIdx_iff_getElem?]
  exact exists_comm

theorem mem_slot? {name : String} {child? : Option ObjectRef} :
    req ∈ Request.slot? ref name child? ↔
      ∃ child, child? = some child ∧ req = .slot ref name (.object child) := by
  cases child? <;> simp [Request.slot?]

namespace Search

theorem requestsFor_builtin (ho : h.object ref = .ok o) :
    requestsFor h .builtin ref = .ok (kindRequests ref o.kind ++ ownRequests ref o) := by
  have hkind : h.kind ref = .ok o.kind := by rw [Heap.kind, ho]; rfl
  have hslots : slotRequests o.kind.builtin h ref = kindRequests ref o.kind := by
    rw [slotRequests, hkind]
    exact if_pos rfl
  have hnone : o.kind.builtin.hasSlots = false → kindRequests ref o.kind = [] := fun hslots => by
    cases hk : o.kind <;> rw [hk] at hslots <;> first | rfl | cases hslots
  have hanalyze : AnalyzerTable.builtin o.kind.builtin =
      if o.kind.builtin.hasSlots then some (slotRequests o.kind.builtin) else none := rfl
  rw [requestsFor, ho]
  cases hb : o.kind.builtin.hasSlots with
  | false =>
    rw [hb, if_neg Bool.false_ne_true] at hanalyze
    simp only [bind, Except.bind, pure, Except.pure, hanalyze, hnone hb]
  | true =>
    rw [hb, if_pos rfl] at hanalyze
    simp only [bind, Except.bind, pure, Except.pure, hanalyze, hslots]

theorem requested_builtin :
    Requested h .builtin req ↔ ∃ ref o, h.object ref = .ok o ∧
      (req ∈ kindRequests ref o.kind ∨ req ∈ ownRequests ref o) := by
  constructor
  · rintro ⟨ref, reqs, hreqs, hreq⟩
    cases ho : h.object ref with
    | error cause =>
      rw [requestsFor, ho] at hreqs
      cases hreqs
    | ok o =>
      rw [requestsFor_builtin ho] at hreqs
      cases hreqs
      exact ⟨ref, o, ho, List.mem_append.mp hreq⟩
  · rintro ⟨ref, o, ho, hreq⟩
    exact ⟨ref, _, requestsFor_builtin ho, List.mem_append.mpr hreq⟩

end Search

/-! ## What is asked for -/

/-- A reference of an object with the given strength. -/
def Object.Refers (o : Object) (ref : ObjectRef) (child : Value) : Strength → Prop
  | .strong => o.HoldsStrongly child
  | .weak => o.HoldsWeakly child
  | .joint owners => ∃ key, owners = [.object ref, key] ∧ o.HoldsJointly key child

/-- Weak slots are targets and tokens: their names end in `t]]` or `n]]`. -/
def isWeakSlot (name : String) : Bool :=
  name.toList.reverse[2]? == some 't' || name.toList.reverse[2]? == some 'n'

theorem isWeakSlot_append (a : String) {b : String} (hb : 2 < b.toList.length) :
    isWeakSlot (a ++ b) = isWeakSlot b := by
  rw [isWeakSlot, isWeakSlot, String.toList_append, List.reverse_append,
    List.getElem?_append_left (by rwa [List.length_reverse])]

/-- The strength of a reference is told by the kind of its object and by its own. -/
def ObjectKind.strengthAt (ref : ObjectRef) : ObjectKind → EdgeKind → Strength
  | .weakRef _, .slot name | .finalizationRegistry .., .slot name =>
    if isWeakSlot name then .weak else .strong
  | .weakMap _, .entryKey _ | .weakSet _, .entryKey _ => .weak
  | .weakMap entries, .entryValue i =>
    (entries.toList[i]?.map fun e => Strength.joint [.object ref, e.key]).getD .strong
  | _, _ => .strong

/-- A reference that is asked for is one of its parent, as strong as its kind says. -/
structure Object.Asks (o : Object) (ref parent : ObjectRef) (kind : EdgeKind) (child : Value)
    (strength : Strength) : Prop where
  parent : parent = ref
  refers : o.Refers ref child strength
  strength : strength = o.kind.strengthAt ref kind

variable {t : Interner} {parent : ObjectRef} {kind : EdgeKind} {child : Value} {strength : Strength}

theorem exists_of_mem_reactionRequests {list : String} {rs : Sequence Reaction}
    (hreq : req ∈ reactionRequests ref list rs) :
    ∃ r ∈ rs.toList, ∃ name f, (r.handler? = some f ∨ r.derived? = some f) ∧
      req = .slot ref name (.object f) := by
  rw [reactionRequests, mem_numbered] at hreq
  obtain ⟨i, r, hr, hreq⟩ := hreq
  rw [List.mem_append, mem_slot?, mem_slot?] at hreq
  rcases hreq with ⟨f, hf, rfl⟩ | ⟨f, hf, rfl⟩
  · exact ⟨r, List.mem_of_getElem? hr, _, f, .inl hf, rfl⟩
  · exact ⟨r, List.mem_of_getElem? hr, _, f, .inr hf, rfl⟩

theorem exists_mem_reactionRequests (ref : ObjectRef) (list : String) {rs : Sequence Reaction}
    {r : Reaction} {f : ObjectRef} (hr : r ∈ rs.toList) (hf : r.handler? = some f ∨ r.derived? = some f) :
    ∃ name, .slot ref name (.object f) ∈ reactionRequests ref list rs := by
  obtain ⟨i, hi⟩ := List.mem_iff_getElem?.mp hr
  have hmem : ∀ {name}, .slot ref name (.object f) ∈
      Request.slot? ref s!"{list}[{i}].[[Handler]]" r.handler? ++
        Request.slot? ref s!"{list}[{i}].[[Capability]]" r.derived? →
      .slot ref name (.object f) ∈ reactionRequests ref list rs := fun hreq => by
    rw [reactionRequests, mem_numbered]
    exact ⟨i, r, hi, hreq⟩
  rcases hf with hf | hf
  · exact ⟨_, hmem (List.mem_append_left _ (mem_slot?.mpr ⟨f, hf, rfl⟩))⟩
  · exact ⟨_, hmem (List.mem_append_right _ (mem_slot?.mpr ⟨f, hf, rfl⟩))⟩

theorem asks_of_mem_kindRequests (hreq : req ∈ kindRequests ref o.kind)
    (ha : req.Adds t parent kind child strength) : o.Asks ref parent kind child strength := by
  have hstrength : ∀ {slots}, o.kind = slots → strength = slots.strengthAt ref kind →
      strength = o.kind.strengthAt ref kind := fun hk hs => hk ▸ hs
  cases hk : o.kind with
  | ordinary => rw [hk] at hreq; cases hreq
  | array => rw [hk] at hreq; cases hreq
  | error => rw [hk] at hreq; cases hreq
  | function name behaviour captures =>
    rw [hk] at hreq
    obtain ⟨b, hb, rfl⟩ := List.mem_map.mp hreq
    cases ha
    exact ⟨rfl, .capture hk hb, hstrength hk rfl⟩
  | boundFunction target this args =>
    rw [hk, kindRequests, List.mem_cons, List.mem_cons, mem_numbered] at hreq
    rcases hreq with rfl | rfl | ⟨i, arg, harg, hreq⟩
    · cases ha
      exact ⟨rfl, .boundTarget hk, hstrength hk rfl⟩
    · cases ha
      exact ⟨rfl, .boundThis hk, hstrength hk rfl⟩
    · cases List.mem_singleton.mp hreq
      cases ha
      exact ⟨rfl, .boundArgument hk (List.mem_of_getElem? harg), hstrength hk rfl⟩
  | proxyRevoker proxy? =>
    rw [hk, kindRequests, mem_slot?] at hreq
    obtain ⟨proxy, rfl, rfl⟩ := hreq
    cases ha
    exact ⟨rfl, .revocableProxy hk, hstrength hk rfl⟩
  | proxy target? handler? =>
    rw [hk, kindRequests, List.mem_append, mem_slot?, mem_slot?] at hreq
    rcases hreq with ⟨target, rfl, rfl⟩ | ⟨handler, rfl, rfl⟩
    · cases ha
      exact ⟨rfl, .proxyTarget hk, hstrength hk rfl⟩
    · cases ha
      exact ⟨rfl, .proxyHandler hk, hstrength hk rfl⟩
  | weakRef target =>
    rw [hk] at hreq
    cases List.mem_singleton.mp hreq
    cases ha
    exact ⟨rfl, .weakRefTarget hk, hstrength hk rfl⟩
  | finalizationRegistry callback cells =>
    rw [hk, kindRequests, List.mem_cons, mem_numbered] at hreq
    rcases hreq with rfl | ⟨i, c, hc, hreq⟩
    · cases ha
      exact ⟨rfl, .cleanupCallback hk, hstrength hk rfl⟩
    · have hc := List.mem_of_getElem? hc
      simp only [cellRequests, List.mem_append, List.mem_cons, List.not_mem_nil, or_false,
        List.mem_map, Option.mem_toList] at hreq
      rcases hreq with (rfl | rfl) | ⟨token, htoken, rfl⟩
      · cases ha
        refine ⟨rfl, .cellHeldValue hk hc, hstrength hk ?_⟩
        rw [ObjectKind.strengthAt, isWeakSlot_append _ (by decide)]; rfl
      · cases ha
        refine ⟨rfl, .cellTarget hk hc, hstrength hk ?_⟩
        rw [ObjectKind.strengthAt, isWeakSlot_append _ (by decide)]; rfl
      · cases ha
        refine ⟨rfl, .cellToken hk hc htoken, hstrength hk ?_⟩
        rw [ObjectKind.strengthAt, isWeakSlot_append _ (by decide)]; rfl
  | map entries =>
    rw [hk, kindRequests, mem_numbered] at hreq
    obtain ⟨i, e, he, hreq⟩ := hreq
    have hmem := List.mem_of_getElem? he
    cases List.mem_singleton.mp hreq
    cases ha
    · exact ⟨rfl, .mapKey hk hmem, hstrength hk rfl⟩
    · exact ⟨rfl, .mapValue hk hmem, hstrength hk rfl⟩
  | set values =>
    rw [hk, kindRequests, mem_numbered] at hreq
    obtain ⟨i, v, hv, hreq⟩ := hreq
    cases List.mem_singleton.mp hreq
    cases ha
    exact ⟨rfl, .setValue hk (List.mem_of_getElem? hv), hstrength hk rfl⟩
  | weakMap entries =>
    rw [hk, kindRequests, mem_numbered] at hreq
    obtain ⟨i, e, he, hreq⟩ := hreq
    have hmem := List.mem_of_getElem? he
    cases List.mem_singleton.mp hreq
    cases ha
    · exact ⟨rfl, .weakMapKey hk hmem, hstrength hk rfl⟩
    · exact ⟨rfl, ⟨e.key, rfl, .weakMapValue hk hmem⟩, hstrength hk (by
        rw [ObjectKind.strengthAt, he]; rfl)⟩
  | weakSet values =>
    rw [hk, kindRequests, mem_numbered] at hreq
    obtain ⟨i, v, hv, hreq⟩ := hreq
    cases List.mem_singleton.mp hreq
    cases ha
    exact ⟨rfl, .weakSetValue hk (List.mem_of_getElem? hv), hstrength hk rfl⟩
  | promise p =>
    have hreaction : ∀ r f, (r ∈ p.onFulfilled.toList ∨ r ∈ p.onRejected.toList) →
        (r.handler? = some f ∨ r.derived? = some f) → o.HoldsStrongly (.object f) :=
      fun r f hr hf => hf.elim (.reactionHandler hk hr) (.derivedPromise hk hr)
    rw [hk, kindRequests, List.mem_cons, List.mem_append] at hreq
    rcases hreq with rfl | hreq | hreq
    · cases ha
      exact ⟨rfl, .promiseResult hk, hstrength hk rfl⟩
    · obtain ⟨r, hr, name, f, hf, rfl⟩ := exists_of_mem_reactionRequests hreq
      cases ha
      exact ⟨rfl, hreaction r f (.inl hr) hf, hstrength hk rfl⟩
    · obtain ⟨r, hr, name, f, hf, rfl⟩ := exists_of_mem_reactionRequests hreq
      cases ha
      exact ⟨rfl, hreaction r f (.inr hr) hf, hstrength hk rfl⟩

theorem asks_of_mem_ownRequests (hreq : req ∈ ownRequests ref o)
    (ha : req.Adds t parent kind child strength) : o.Asks ref parent kind child strength := by
  rw [ownRequests, List.mem_append, mem_slot?, List.mem_map] at hreq
  rcases hreq with ⟨proto, hp, rfl⟩ | ⟨p, hp, rfl⟩
  · cases ha
    refine ⟨rfl, .prototype hp, ?_⟩
    cases o.kind <;> rfl
  · rw [Properties.mem_ordered] at hp
    unfold propertyRequest at ha
    split at ha
    · rename_i symbol hk
      cases ha with
      | symbolKey => exact ⟨rfl, .propertySymbol hp hk, by cases o.kind <;> rfl⟩
      | symbolValue => exact ⟨rfl, .property hp, by cases o.kind <;> rfl⟩
    · split at ha
      · cases ha
        exact ⟨rfl, .property hp, by cases o.kind <;> rfl⟩
      · cases ha
        exact ⟨rfl, .property hp, by cases o.kind <;> rfl⟩

/-- Whatever an object refers to is asked for. -/
def Request.Covers (req : Request) (parent : ObjectRef) (child : Value) (strength : Strength) :
    Prop :=
  ∀ (options : Search.Options) (s : Search.State), s.Performs options req →
    ∃ kind, s.Notes options parent kind child ∧ req.Adds s.interner parent kind child strength

theorem covers_edge {parent : ObjectRef} {kind : EdgeKind} {child : Value} {strength : Strength} :
    (Request.edge parent kind child strength).Covers parent child strength :=
  fun _ _ hp => ⟨kind, hp, .edge⟩

theorem covers_entryKey {parent : ObjectRef} {i : Nat} {key : Value} {strength : Strength}
    {value? : Option (Value × Strength)} :
    (Request.entry parent i key strength value?).Covers parent key strength :=
  fun _ _ hp => ⟨.entryKey i, hp.1, .entryKey⟩

theorem covers_entryValue {parent : ObjectRef} {i : Nat} {key : Value} {keyStrength : Strength}
    {value : Value} {strength : Strength} :
    (Request.entry parent i key keyStrength (some (value, strength))).Covers
      parent value strength :=
  fun _ _ hp => ⟨.entryValue i, hp.2 value strength rfl, .entryValue⟩

theorem covers_symbolProperty {parent : ObjectRef} {symbol : SymbolRef} {value : Value} :
    (Request.symbolProperty parent symbol value).Covers parent (.symbol symbol) .strong ∧
      (Request.symbolProperty parent symbol value).Covers parent value .strong := by
  refine ⟨fun _ _ hp => ⟨.symbolKey, hp.1, .symbolKey⟩, fun _ _ hp => ?_⟩
  obtain ⟨-, id, hid, hv⟩ := hp
  exact ⟨.symbolValue id, hv, .symbolValue hid⟩

/-- What a property refers to is asked for. -/
theorem covers_propertyRequest (ref : ObjectRef) (p : Property) :
    (propertyRequest ref p).Covers ref p.value .strong ∧
      ∀ symbol, p.key = .symbol symbol →
        (propertyRequest ref p).Covers ref (.symbol symbol) .strong := by
  unfold propertyRequest
  split
  · rename_i symbol hk
    rw [hk]
    refine ⟨covers_symbolProperty.2, fun symbol' he => ?_⟩
    cases he
    exact covers_symbolProperty.1
  · rename_i name hk
    rw [hk]
    refine ⟨?_, fun _ he => nomatch he⟩
    split <;> exact covers_edge

theorem exists_covers_of_reaction {p : PromiseSlots} {r : Reaction} {f : ObjectRef}
    (hr : r ∈ p.onFulfilled.toList ∨ r ∈ p.onRejected.toList)
    (hf : r.handler? = some f ∨ r.derived? = some f) :
    ∃ req, (req ∈ kindRequests ref (.promise p) ∨ req ∈ ownRequests ref o) ∧
      req.Covers ref (.object f) .strong := by
  rcases hr with hr | hr
  · obtain ⟨name, hreq⟩ := exists_mem_reactionRequests ref "[[PromiseFulfillReactions]]" hr hf
    exact ⟨_, .inl (List.mem_cons_of_mem _ (List.mem_append_left _ hreq)), covers_edge⟩
  · obtain ⟨name, hreq⟩ := exists_mem_reactionRequests ref "[[PromiseRejectReactions]]" hr hf
    exact ⟨_, .inl (List.mem_cons_of_mem _ (List.mem_append_right _ hreq)), covers_edge⟩

theorem exists_covers_of_holdsStrongly (hv : o.HoldsStrongly child) :
    ∃ req, (req ∈ kindRequests ref o.kind ∨ req ∈ ownRequests ref o) ∧
      req.Covers ref child .strong := by
  have hown : ∀ p ∈ o.properties, propertyRequest ref p ∈ ownRequests ref o := fun p hp =>
    List.mem_append_right _ (List.mem_map_of_mem (Properties.mem_ordered.mpr hp))
  cases hv with
  | prototype hp =>
    exact ⟨_, .inr (List.mem_append_left _ (mem_slot?.mpr ⟨_, hp, rfl⟩)), covers_edge⟩
  | property hp => exact ⟨_, .inr (hown _ hp), (covers_propertyRequest ref _).1⟩
  | propertySymbol hp hk => exact ⟨_, .inr (hown _ hp), (covers_propertyRequest ref _).2 _ hk⟩
  | capture hk hb => rw [hk]; exact ⟨_, .inl (List.mem_map_of_mem hb), covers_edge⟩
  | boundTarget hk => rw [hk]; exact ⟨_, .inl List.mem_cons_self, covers_edge⟩
  | boundThis hk =>
    rw [hk]
    exact ⟨_, .inl (List.mem_cons_of_mem _ List.mem_cons_self), covers_edge⟩
  | boundArgument hk ha =>
    rw [hk]
    obtain ⟨i, hi⟩ := List.mem_iff_getElem?.mp ha
    exact ⟨_, .inl (List.mem_cons_of_mem _ (List.mem_cons_of_mem _
      (mem_numbered.mpr ⟨i, _, hi, List.mem_singleton_self _⟩))), covers_edge⟩
  | revocableProxy hk =>
    rw [hk]
    exact ⟨_, .inl (mem_slot?.mpr ⟨_, rfl, rfl⟩), covers_edge⟩
  | proxyTarget hk =>
    rw [hk]
    exact ⟨_, .inl (List.mem_append_left _ (mem_slot?.mpr ⟨_, rfl, rfl⟩)), covers_edge⟩
  | proxyHandler hk =>
    rw [hk]
    exact ⟨_, .inl (List.mem_append_right _ (mem_slot?.mpr ⟨_, rfl, rfl⟩)), covers_edge⟩
  | cleanupCallback hk => rw [hk]; exact ⟨_, .inl List.mem_cons_self, covers_edge⟩
  | cellHeldValue hk hc =>
    rw [hk]
    obtain ⟨i, hi⟩ := List.mem_iff_getElem?.mp hc
    exact ⟨_, .inl (List.mem_cons_of_mem _ (mem_numbered.mpr
      ⟨i, _, hi, List.mem_append_left _ List.mem_cons_self⟩)), covers_edge⟩
  | mapKey hk he =>
    rw [hk, kindRequests]
    obtain ⟨i, hi⟩ := List.mem_iff_getElem?.mp he
    exact ⟨_, .inl (mem_numbered.mpr ⟨i, _, hi, List.mem_singleton_self _⟩), covers_entryKey⟩
  | mapValue hk he =>
    rw [hk, kindRequests]
    obtain ⟨i, hi⟩ := List.mem_iff_getElem?.mp he
    exact ⟨_, .inl (mem_numbered.mpr ⟨i, _, hi, List.mem_singleton_self _⟩), covers_entryValue⟩
  | setValue hk hv =>
    rw [hk, kindRequests]
    obtain ⟨i, hi⟩ := List.mem_iff_getElem?.mp hv
    exact ⟨_, .inl (mem_numbered.mpr ⟨i, _, hi, List.mem_singleton_self _⟩), covers_entryKey⟩
  | promiseResult hk => rw [hk]; exact ⟨_, .inl List.mem_cons_self, covers_edge⟩
  | reactionHandler hk hr hf =>
    rw [hk]
    exact exists_covers_of_reaction hr (.inl hf)
  | derivedPromise hk hr hq =>
    rw [hk]
    exact exists_covers_of_reaction hr (.inr hq)

theorem exists_covers_of_holdsWeakly (hv : o.HoldsWeakly child) :
    ∃ req ∈ kindRequests ref o.kind, req.Covers ref child .weak := by
  cases hv with
  | weakRefTarget hk => rw [hk]; exact ⟨_, List.mem_singleton_self _, covers_edge⟩
  | cellTarget hk hc =>
    rw [hk]
    obtain ⟨i, hi⟩ := List.mem_iff_getElem?.mp hc
    exact ⟨_, List.mem_cons_of_mem _ (mem_numbered.mpr ⟨i, _, hi, List.mem_append_left _
      (List.mem_cons_of_mem _ (List.mem_singleton_self _))⟩), covers_edge⟩
  | cellToken hk hc ht =>
    rw [hk]
    obtain ⟨i, hi⟩ := List.mem_iff_getElem?.mp hc
    exact ⟨_, List.mem_cons_of_mem _ (mem_numbered.mpr ⟨i, _, hi, List.mem_append_right _
      (List.mem_map_of_mem (Option.mem_toList.mpr ht))⟩), covers_edge⟩
  | weakMapKey hk he =>
    rw [hk, kindRequests]
    obtain ⟨i, hi⟩ := List.mem_iff_getElem?.mp he
    exact ⟨_, mem_numbered.mpr ⟨i, _, hi, List.mem_singleton_self _⟩, covers_entryKey⟩
  | weakSetValue hk hv =>
    rw [hk, kindRequests]
    obtain ⟨i, hi⟩ := List.mem_iff_getElem?.mp hv
    exact ⟨_, mem_numbered.mpr ⟨i, _, hi, List.mem_singleton_self _⟩, covers_entryKey⟩

theorem exists_covers_of_holdsJointly {key : Value} (hv : o.HoldsJointly key child) :
    ∃ req ∈ kindRequests ref o.kind, req.Covers ref child (.joint [.object ref, key]) := by
  cases hv with
  | weakMapValue hk he =>
    rw [hk, kindRequests]
    obtain ⟨i, hi⟩ := List.mem_iff_getElem?.mp he
    exact ⟨_, mem_numbered.mpr ⟨i, _, hi, List.mem_singleton_self _⟩, covers_entryValue⟩

/-! ## The requests are in order -/

theorem Object.Refers.isOwned (hr : o.Refers ref child strength) : strength.isOwned = true := by
  cases strength with
  | strong | weak => rfl
  | joint owners =>
    obtain ⟨key, rfl, -⟩ := hr
    rfl

theorem Object.Refers.refersTo (hr : o.Refers ref child strength) : o.RefersTo child := by
  cases strength with
  | strong => exact .inl hr
  | weak => exact .inr (.inl hr)
  | joint owners =>
    obtain ⟨key, -, hj⟩ := hr
    exact .inr (.inr ⟨key, hj⟩)

theorem Heap.WellFormed.isValid_of_refers (hw : h.WellFormed) (ho : h.object ref = .ok o)
    (hr : o.Refers ref child strength) : h.isValid child = true ∧ strength.IsValid h := by
  cases strength with
  | strong => exact ⟨hw.valid ho _ hr.mem_stored, trivial⟩
  | weak => exact ⟨hw.valid ho _ hr.mem_stored, trivial⟩
  | joint owners =>
    obtain ⟨key, rfl, hj⟩ := hr
    obtain ⟨hkey, hchild, hweak⟩ := hj.mem_stored
    refine ⟨hw.valid ho _ hchild, ?_⟩
    show ∀ v ∈ [Value.object ref, key], _
    simp only [List.mem_cons, List.not_mem_nil, or_false, forall_eq_or_imp, forall_eq]
    exact ⟨⟨rfl, Heap.has_object.mpr ⟨o, ho⟩⟩, hw.weakMapKeys ho _ hweak, hw.valid ho _ hkey⟩

/-- The built-in analyzers ask for nothing but references and entries. -/
def Request.isReference : Request → Bool
  | .edge .. | .entry .. | .symbolProperty .. => true
  | .node _ | .noteOptions | .fail _ => false

theorem isReference_of_mem_kindRequests {slots : ObjectKind} (hreq : req ∈ kindRequests ref slots) :
    req.isReference = true := by
  suffices (kindRequests ref slots).all Request.isReference = true from
    List.all_eq_true.mp this req hreq
  cases slots <;> simp [kindRequests, numbered, cellRequests, reactionRequests, Request.slot?,
    Request.slot, Request.weakSlot, Request.isReference]

theorem isReference_of_mem_ownRequests (hreq : req ∈ ownRequests ref o) :
    req.isReference = true := by
  rw [ownRequests, List.mem_append, mem_slot?, List.mem_map] at hreq
  rcases hreq with ⟨proto, -, rfl⟩ | ⟨p, -, rfl⟩
  · rfl
  · unfold propertyRequest
    split
    · rfl
    · split <;> rfl

/-- Whether a reference has owners besides its parent. -/
def Strength.isJoint : Strength → Bool
  | .joint _ => true
  | .strong | .weak => false

/-- Only values of entries are owned jointly, by the collection and the key. -/
def Request.isPlain : Request → Bool
  | .edge _ _ _ strength => !strength.isJoint
  | .entry collection _ key keyStrength value? =>
    !keyStrength.isJoint && value?.all fun (_, strength) =>
      !strength.isJoint || strength == .joint [.object collection, key]
  | .symbolProperty .. | .node _ | .noteOptions | .fail _ => true

theorem isPlain_of_mem_kindRequests {slots : ObjectKind} (hreq : req ∈ kindRequests ref slots) :
    req.isPlain = true := by
  suffices (kindRequests ref slots).all Request.isPlain = true from
    List.all_eq_true.mp this req hreq
  cases slots <;> simp [kindRequests, numbered, cellRequests, reactionRequests, Request.slot?,
    Request.slot, Request.weakSlot, Request.isPlain, Strength.isJoint]

theorem isPlain_of_mem_ownRequests (hreq : req ∈ ownRequests ref o) : req.isPlain = true := by
  rw [ownRequests, List.mem_append, mem_slot?, List.mem_map] at hreq
  rcases hreq with ⟨proto, -, rfl⟩ | ⟨p, -, rfl⟩
  · rfl
  · unfold propertyRequest
    split
    · rfl
    · split <;> rfl

namespace Search

theorem Requested.asks (hreq : Requested h .builtin req)
    (ha : req.Adds t parent kind child strength) :
    ∃ o, h.object parent = .ok o ∧ o.Asks parent parent kind child strength := by
  obtain ⟨ref, o, ho, hreq⟩ := requested_builtin.mp hreq
  have hasks := hreq.elim (asks_of_mem_kindRequests · ha) (asks_of_mem_ownRequests · ha)
  obtain rfl := hasks.parent
  exact ⟨o, ho, hasks⟩

theorem Requested.isReference_builtin (hreq : Requested h .builtin req) :
    req.isReference = true := by
  obtain ⟨ref, o, -, hmem⟩ := requested_builtin.mp hreq
  exact hmem.elim isReference_of_mem_kindRequests isReference_of_mem_ownRequests

theorem Requested.isOwned_builtin (hreq : Requested h .builtin req) : req.IsOwned := by
  have howned : ∀ {t parent kind child strength}, req.Adds t parent kind child strength →
      strength.isOwned = true := fun ha => by
    obtain ⟨o, -, hasks⟩ := hreq.asks ha
    exact hasks.refers.isOwned
  cases req with
  | edge => exact howned (t := .empty) .edge
  | entry collection i key keyStrength value? =>
    refine ⟨howned (t := .empty) .entryKey, fun value strength he => ?_⟩
    subst he
    exact howned (t := .empty) .entryValue
  | symbolProperty | node | noteOptions | fail => trivial

/-- What an object asks for is there if whatever it refers to is. -/
theorem isValid_of_refers (ho : h.object ref = .ok o)
    (hrefers : ∀ {child strength}, o.Refers ref child strength →
      h.isValid child = true ∧ strength.IsValid h)
    (hmem : req ∈ kindRequests ref o.kind ∨ req ∈ ownRequests ref o) : req.IsValid h := by
  have hvalid : ∀ {t parent kind child strength}, req.Adds t parent kind child strength →
      h.has (.object parent) = true ∧ h.isValid child = true ∧ strength.IsValid h := fun ha => by
    have hasks := hmem.elim (asks_of_mem_kindRequests · ha) (asks_of_mem_ownRequests · ha)
    obtain rfl := hasks.parent
    exact ⟨Heap.has_object.mpr ⟨o, ho⟩, hrefers hasks.refers⟩
  have href : req.isReference = true :=
    hmem.elim isReference_of_mem_kindRequests isReference_of_mem_ownRequests
  cases req with
  | edge => exact hvalid (t := .empty) .edge
  | entry collection i key keyStrength value? =>
    obtain ⟨hc, hkey, hstrength⟩ := hvalid (t := .empty) .entryKey
    refine ⟨hc, hkey, hstrength, fun value strength he => ?_⟩
    subst he
    exact (hvalid (t := .empty) .entryValue).2
  | symbolProperty parent symbol value =>
    obtain ⟨hp, hsymbol, -⟩ := hvalid (t := .empty) .symbolKey
    have hnamed : ((Interner.empty.intern (.symbol symbol)).2).Names (.symbol symbol) _ :=
      ⟨.symbol symbol, rfl, Interner.id?_intern_self ..⟩
    exact ⟨hp, hsymbol, (hvalid (.symbolValue hnamed)).2.1⟩
  | node | noteOptions | fail => cases href

theorem Requested.isValid_builtin (hw : h.WellFormed) (hreq : Requested h .builtin req) :
    req.IsValid h := by
  obtain ⟨ref, o, ho, hmem⟩ := requested_builtin.mp hreq
  exact isValid_of_refers ho (hw.isValid_of_refers ho) hmem

end Search
end Retention
