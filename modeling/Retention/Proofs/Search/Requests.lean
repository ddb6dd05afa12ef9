import Retention.Proofs.Heap.References
import Retention.Proofs.Search.Analyzers

/-!
# The requests for an object are its references

What the built-in analyzers ask for when an object is expanded are its
references, by their kinds (`references_iff`), and its entries
(`hasEntry_of_mem`, `exists_entry_of_hasEntry`).
-/

namespace Retention

variable {ref : ObjectRef} {o : Object} {t : Interner} {req : Request} {kind : EdgeKind}
  {child : Value} {strength : Strength}

/-- What is asked for when an object is expanded. -/
def Object.requests (o : Object) (ref : ObjectRef) : List Request :=
  kindRequests ref o.kind ++ ownRequests ref o

theorem mem_reactionRequests {list : String} {rs : Sequence Reaction} :
    req ∈ reactionRequests ref list rs ↔ ∃ (i : Nat) (r : Reaction), rs.toList[i]? = some r ∧
      ((∃ f, r.handler? = some f ∧ req = .slot ref s!"{list}[{i}].[[Handler]]" (.object f)) ∨
        ∃ q, r.derived? = some q ∧ req = .slot ref s!"{list}[{i}].[[Capability]]" (.object q)) := by
  rw [reactionRequests, mem_numbered]
  simp only [List.mem_append, mem_slot?]

theorem references_of_mem_kindRequests (hreq : req ∈ kindRequests ref o.kind)
    (ha : req.Adds t ref kind child strength) : o.References ref t kind child strength := by
  cases hk : o.kind with
  | ordinary => rw [hk] at hreq; cases hreq
  | array => rw [hk] at hreq; cases hreq
  | error => rw [hk] at hreq; cases hreq
  | function name behaviour captures =>
    rw [hk] at hreq
    obtain ⟨b, hb, rfl⟩ := List.mem_map.mp hreq
    cases ha
    exact .capture hk hb
  | boundFunction target this args =>
    rw [hk, kindRequests, List.mem_cons, List.mem_cons, mem_numbered] at hreq
    rcases hreq with rfl | rfl | ⟨i, arg, harg, hreq⟩
    · cases ha
      exact .boundTarget hk
    · cases ha
      exact .boundThis hk
    · cases List.mem_singleton.mp hreq
      cases ha
      exact .boundArgument hk harg
  | proxyRevoker proxy? =>
    rw [hk, kindRequests, mem_slot?] at hreq
    obtain ⟨proxy, rfl, rfl⟩ := hreq
    cases ha
    exact .revocableProxy hk
  | proxy target? handler? =>
    rw [hk, kindRequests, List.mem_append, mem_slot?, mem_slot?] at hreq
    rcases hreq with ⟨target, rfl, rfl⟩ | ⟨handler, rfl, rfl⟩
    · cases ha
      exact .proxyTarget hk
    · cases ha
      exact .proxyHandler hk
  | weakRef target =>
    rw [hk] at hreq
    cases List.mem_singleton.mp hreq
    cases ha
    exact .weakRefTarget hk
  | finalizationRegistry callback cells =>
    rw [hk, kindRequests, List.mem_cons, mem_numbered] at hreq
    rcases hreq with rfl | ⟨i, c, hc, hreq⟩
    · cases ha
      exact .cleanupCallback hk
    · simp only [cellRequests, List.mem_append, List.mem_cons, List.not_mem_nil, or_false,
        List.mem_map, Option.mem_toList] at hreq
      rcases hreq with (rfl | rfl) | ⟨token, htoken, rfl⟩
      · cases ha
        exact .cellHeldValue hk hc
      · cases ha
        exact .cellTarget hk hc
      · cases ha
        exact .cellToken hk hc htoken
  | map entries =>
    rw [hk, kindRequests, mem_numbered] at hreq
    obtain ⟨i, e, he, hreq⟩ := hreq
    cases List.mem_singleton.mp hreq
    cases ha
    · exact .mapKey hk he
    · exact .mapValue hk he
  | set values =>
    rw [hk, kindRequests, mem_numbered] at hreq
    obtain ⟨i, v, hv, hreq⟩ := hreq
    cases List.mem_singleton.mp hreq
    cases ha
    exact .setValue hk hv
  | weakMap entries =>
    rw [hk, kindRequests, mem_numbered] at hreq
    obtain ⟨i, e, he, hreq⟩ := hreq
    cases List.mem_singleton.mp hreq
    cases ha
    · exact .weakMapKey hk he
    · exact .weakMapValue hk he
  | weakSet values =>
    rw [hk, kindRequests, mem_numbered] at hreq
    obtain ⟨i, v, hv, hreq⟩ := hreq
    cases List.mem_singleton.mp hreq
    cases ha
    exact .weakSetValue hk hv
  | promise p =>
    have hreaction : ∀ {list rs}, (list, rs) ∈ p.reactionLists →
        req ∈ reactionRequests ref list rs → o.References ref t kind child strength :=
      fun hl hreq => by
        obtain ⟨i, r, hr, ⟨f, hf, rfl⟩ | ⟨q, hq, rfl⟩⟩ := mem_reactionRequests.mp hreq
        · cases ha
          exact .reactionHandler hk hl hr hf
        · cases ha
          exact .derivedPromise hk hl hr hq
    rw [hk, kindRequests, List.mem_cons, List.mem_append] at hreq
    rcases hreq with rfl | hreq | hreq
    · cases ha
      exact .promiseResult hk
    · exact hreaction List.mem_cons_self hreq
    · exact hreaction (List.mem_cons_of_mem _ List.mem_cons_self) hreq

theorem references_of_mem_ownRequests (hreq : req ∈ ownRequests ref o)
    (ha : req.Adds t ref kind child strength) : o.References ref t kind child strength := by
  rw [ownRequests, List.mem_append, mem_slot?, List.mem_map] at hreq
  rcases hreq with ⟨proto, hp, rfl⟩ | ⟨p, hp, rfl⟩
  · cases ha
    exact .prototype hp
  · rw [Properties.mem_ordered] at hp
    unfold propertyRequest at ha
    split at ha
    · rename_i symbol hk
      cases ha with
      | symbolKey => exact .symbolKey hp hk
      | symbolValue hid =>
        exact .symbolValue hp hk (Interner.names_toValue (i := .symbol symbol).mp hid)
    · rename_i name hk
      split at ha
      · rename_i i hi
        cases ha
        exact .index hp hk hi
      · rename_i hi
        cases ha
        exact .property hp hk hi

section Property

variable {p : Property} {name : String}

theorem propertyRequest_of_index {i : Nat} (hk : p.key = .string name)
    (hi : arrayIndex? name = some i) :
    propertyRequest ref p = .edge ref (.index i) p.value .strong := by
  simp only [propertyRequest, hk, hi]

theorem propertyRequest_of_name (hk : p.key = .string name) (hi : arrayIndex? name = none) :
    propertyRequest ref p = .edge ref (.property name) p.value .strong := by
  simp only [propertyRequest, hk, hi]

theorem propertyRequest_of_symbol {symbol : SymbolRef} (hk : p.key = .symbol symbol) :
    propertyRequest ref p = .symbolProperty ref symbol p.value := by
  simp only [propertyRequest, hk]

end Property

theorem exists_adds_of_references (hr : o.References ref t kind child strength) :
    ∃ req ∈ o.requests ref, req.Adds t ref kind child strength := by
  have hkind : ∀ {slots req}, o.kind = slots → req ∈ kindRequests ref slots →
      req ∈ o.requests ref := fun hk hreq => List.mem_append_left _ (hk ▸ hreq)
  have hnumbered : ∀ {α : Type} {items : List α} {requests : Nat → α → List Request} {i a req},
      items[i]? = some a → req ∈ requests i a → req ∈ numbered items requests :=
    fun hi hreq => mem_numbered.mpr ⟨_, _, hi, hreq⟩
  have hreaction : ∀ {p list rs req}, o.kind = .promise p → (list, rs) ∈ p.reactionLists →
      req ∈ reactionRequests ref list rs → req ∈ o.requests ref := fun hk hl hreq => by
    refine hkind hk (List.mem_cons_of_mem _ (List.mem_append.mpr ?_))
    rcases hl with _ | ⟨_, _ | ⟨_, ⟨⟩⟩⟩
    · exact .inl hreq
    · exact .inr hreq
  have hown : ∀ {p}, p ∈ o.properties → propertyRequest ref p ∈ o.requests ref := fun hp =>
    List.mem_append_right _ (List.mem_append_right _
      (List.mem_map_of_mem (Properties.mem_ordered.mpr hp)))
  cases hr with
  | prototype hp =>
    exact ⟨_, List.mem_append_right _ (List.mem_append_left _ (mem_slot?.mpr ⟨_, hp, rfl⟩)), .edge⟩
  | index hp hk hi =>
    refine ⟨_, hown hp, ?_⟩
    rw [propertyRequest_of_index hk hi]
    exact .edge
  | property hp hk hi =>
    refine ⟨_, hown hp, ?_⟩
    rw [propertyRequest_of_name hk hi]
    exact .edge
  | symbolKey hp hk =>
    refine ⟨_, hown hp, ?_⟩
    rw [propertyRequest_of_symbol hk]
    exact .symbolKey
  | symbolValue hp hk hid =>
    refine ⟨_, hown hp, ?_⟩
    rw [propertyRequest_of_symbol hk]
    exact .symbolValue ⟨_, rfl, hid⟩
  | capture hk hb => exact ⟨_, hkind hk (List.mem_map_of_mem hb), .edge⟩
  | boundTarget hk => exact ⟨_, hkind hk List.mem_cons_self, .edge⟩
  | boundThis hk => exact ⟨_, hkind hk (List.mem_cons_of_mem _ List.mem_cons_self), .edge⟩
  | boundArgument hk ha =>
    exact ⟨_, hkind hk (List.mem_cons_of_mem _ (List.mem_cons_of_mem _
      (hnumbered ha (List.mem_singleton_self _)))), .edge⟩
  | revocableProxy hk => exact ⟨_, hkind hk (mem_slot?.mpr ⟨_, rfl, rfl⟩), .edge⟩
  | proxyTarget hk =>
    exact ⟨_, hkind hk (List.mem_append_left _ (mem_slot?.mpr ⟨_, rfl, rfl⟩)), .edge⟩
  | proxyHandler hk =>
    exact ⟨_, hkind hk (List.mem_append_right _ (mem_slot?.mpr ⟨_, rfl, rfl⟩)), .edge⟩
  | weakRefTarget hk => exact ⟨_, hkind hk (List.mem_singleton_self _), .edge⟩
  | cleanupCallback hk => exact ⟨_, hkind hk List.mem_cons_self, .edge⟩
  | cellHeldValue hk hc =>
    exact ⟨_, hkind hk (List.mem_cons_of_mem _ (hnumbered hc
      (List.mem_append_left _ List.mem_cons_self))), .edge⟩
  | cellTarget hk hc =>
    exact ⟨_, hkind hk (List.mem_cons_of_mem _ (hnumbered hc
      (List.mem_append_left _ (List.mem_cons_of_mem _ (List.mem_singleton_self _))))), .edge⟩
  | cellToken hk hc ht =>
    exact ⟨_, hkind hk (List.mem_cons_of_mem _ (hnumbered hc (List.mem_append_right _
      (List.mem_map_of_mem (Option.mem_toList.mpr ht))))), .edge⟩
  | mapKey hk he =>
    rw [Object.requests, hk, kindRequests]
    exact ⟨_, List.mem_append_left _ (hnumbered he (List.mem_singleton_self _)), .entryKey⟩
  | mapValue hk he =>
    rw [Object.requests, hk, kindRequests]
    exact ⟨_, List.mem_append_left _ (hnumbered he (List.mem_singleton_self _)), .entryValue⟩
  | setValue hk hv =>
    rw [Object.requests, hk, kindRequests]
    exact ⟨_, List.mem_append_left _ (hnumbered hv (List.mem_singleton_self _)), .entryKey⟩
  | weakMapKey hk he =>
    rw [Object.requests, hk, kindRequests]
    exact ⟨_, List.mem_append_left _ (hnumbered he (List.mem_singleton_self _)), .entryKey⟩
  | weakMapValue hk he =>
    rw [Object.requests, hk, kindRequests]
    exact ⟨_, List.mem_append_left _ (hnumbered he (List.mem_singleton_self _)), .entryValue⟩
  | weakSetValue hk hv =>
    rw [Object.requests, hk, kindRequests]
    exact ⟨_, List.mem_append_left _ (hnumbered hv (List.mem_singleton_self _)), .entryKey⟩
  | promiseResult hk => exact ⟨_, hkind hk List.mem_cons_self, .edge⟩
  | reactionHandler hk hl hr hf =>
    exact ⟨_, hreaction hk hl (mem_reactionRequests.mpr ⟨_, _, hr, .inl ⟨_, hf, rfl⟩⟩), .edge⟩
  | derivedPromise hk hl hr hq =>
    exact ⟨_, hreaction hk hl (mem_reactionRequests.mpr ⟨_, _, hr, .inr ⟨_, hq, rfl⟩⟩), .edge⟩

/-- What is asked for is what an object refers to, by the same kinds. -/
theorem references_iff : o.References ref t kind child strength ↔
    ∃ req ∈ o.requests ref, req.Adds t ref kind child strength :=
  ⟨exists_adds_of_references, fun ⟨_, hreq, ha⟩ => (List.mem_append.mp hreq).elim
    (references_of_mem_kindRequests · ha) (references_of_mem_ownRequests · ha)⟩

/-! ## Entries -/

/-- The collection and the position of an entry that a request asks for. -/
def Request.entryAt? : Request → Option (ObjectRef × Nat)
  | .entry collection i .. => some (collection, i)
  | _ => none

/-- Two requests ask for no entry at the same position. -/
def Request.Apart (req req' : Request) : Prop :=
  req.entryAt? = none ∨ req.entryAt? ≠ req'.entryAt?

theorem entryAt?_of_mem_ownRequests (hreq : req ∈ ownRequests ref o) : req.entryAt? = none := by
  rw [ownRequests, List.mem_append, mem_slot?, List.mem_map] at hreq
  rcases hreq with ⟨proto, -, rfl⟩ | ⟨p, -, rfl⟩
  · rfl
  · unfold propertyRequest
    split
    · rfl
    · split <;> rfl

/-- The entries that are asked for are those of the object. -/
theorem hasEntry_of_mem {collection : ObjectRef} {i : Nat} {key : Value} {keyStrength : Strength}
    {value? : Option (Value × Strength)}
    (hreq : .entry collection i key keyStrength value? ∈ o.requests ref) :
    collection = ref ∧ o.HasEntry i key (keyStrength == .strong) (value?.map Prod.fst) := by
  rcases List.mem_append.mp hreq with hreq | hreq
  · cases hk : o.kind with
    | map entries =>
      rw [hk, kindRequests, mem_numbered] at hreq
      obtain ⟨j, e, he, hreq⟩ := hreq
      cases List.mem_singleton.mp hreq
      exact ⟨rfl, .map hk he⟩
    | set values =>
      rw [hk, kindRequests, mem_numbered] at hreq
      obtain ⟨j, v, hv, hreq⟩ := hreq
      cases List.mem_singleton.mp hreq
      exact ⟨rfl, .set hk hv⟩
    | weakMap entries =>
      rw [hk, kindRequests, mem_numbered] at hreq
      obtain ⟨j, e, he, hreq⟩ := hreq
      cases List.mem_singleton.mp hreq
      exact ⟨rfl, .weakMap hk he⟩
    | weakSet values =>
      rw [hk, kindRequests, mem_numbered] at hreq
      obtain ⟨j, v, hv, hreq⟩ := hreq
      cases List.mem_singleton.mp hreq
      exact ⟨rfl, .weakSet hk hv⟩
    | _ =>
      simp [hk, kindRequests, numbered, cellRequests, reactionRequests, Request.slot?,
        Request.slot, Request.weakSlot] at hreq
  · cases entryAt?_of_mem_ownRequests hreq

/-- The entries of an object are asked for. -/
theorem exists_entry_of_hasEntry (ref : ObjectRef) {i : Nat} {key : Value} {strong : Bool}
    {value? : Option Value} (he : o.HasEntry i key strong value?) : ∃ keyStrength valueStrength?,
      .entry ref i key keyStrength valueStrength? ∈ o.requests ref ∧
        (keyStrength == .strong) = strong ∧ valueStrength?.map Prod.fst = value? := by
  cases he with
  | map hk hi | set hk hi | weakMap hk hi | weakSet hk hi =>
    rw [Object.requests, hk, kindRequests]
    exact ⟨_, _, List.mem_append_left _ (mem_numbered.mpr ⟨_, _, hi, List.mem_singleton_self _⟩),
      rfl, rfl⟩

theorem pairwise_apart_numbered {α : Type} {items : List α} {request : Nat → α → Request}
    (hat : ∀ i a, (request i a).entryAt? = some (ref, i)) :
    (numbered items fun i a => [request i a]).Pairwise Request.Apart := by
  have hplaces : (items.zipIdx.map Prod.snd).Pairwise (· < ·) := by
    rw [List.zipIdx_map_snd]
    exact List.pairwise_lt_range'
  refine List.pairwise_flatMap.mpr ⟨fun _ _ => List.pairwise_singleton .., ?_⟩
  refine (List.pairwise_map.mp hplaces).imp fun {x y} hlt req hreq req' hreq' => .inr ?_
  rw [List.mem_singleton.mp hreq, List.mem_singleton.mp hreq', hat, hat]
  intro he
  exact Nat.ne_of_lt hlt (Prod.mk.inj (Option.some.inj he)).2

theorem pairwise_apart_kindRequests (slots : ObjectKind) :
    (kindRequests ref slots).Pairwise Request.Apart := by
  have hnone : (kindRequests ref slots).all (·.entryAt?.isNone) = true →
      (kindRequests ref slots).Pairwise Request.Apart := fun hall =>
    List.pairwise_of_forall_mem_list fun req hreq _ _ =>
      .inl (Option.isNone_iff_eq_none.mp (List.all_eq_true.mp hall req hreq))
  cases slots with
  | map | set | weakMap | weakSet =>
    rw [kindRequests]
    exact pairwise_apart_numbered fun _ _ => rfl
  | _ =>
    refine hnone ?_
    simp [kindRequests, numbered, cellRequests, reactionRequests, Request.slot?, Request.slot,
      Request.weakSlot, Request.entryAt?]

/-- An object asks for each entry once. -/
theorem pairwise_apart_requests (o : Object) (ref : ObjectRef) :
    (o.requests ref).Pairwise Request.Apart := by
  have hown : ∀ req ∈ ownRequests ref o, req.entryAt? = none := fun _ => entryAt?_of_mem_ownRequests
  refine List.pairwise_append.mpr ⟨pairwise_apart_kindRequests o.kind,
    List.pairwise_of_forall_mem_list fun req hreq _ _ => .inl (hown req hreq),
    fun req _ req' hreq' => ?_⟩
  by_cases hat : req.entryAt? = none
  · exact .inl hat
  · exact .inr fun he => hat (he.trans (hown req' hreq'))

end Retention
