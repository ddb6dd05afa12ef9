import Retention.Proofs.Heap.WellFormed

/-!
# What a heap keeps alive

Objects refer to values strongly, weakly, or jointly with a key, as a WeakMap
refers to its values. What is alive in a heap is the least set that holds the
held values and is closed under these references (`Heap.Live`).
-/

namespace Retention

namespace Object

/-- What an object keeps alive on its own: its prototype, what its properties
have and are keyed by, and what its internal slots hold. -/
inductive HoldsStrongly (o : Object) : Value → Prop where
  | prototype {ref} (hp : o.prototype? = some ref) : o.HoldsStrongly (.object ref)
  | property {p} (hp : p ∈ o.properties) : o.HoldsStrongly p.value
  | propertySymbol {p symbol} (hp : p ∈ o.properties) (hk : p.key = .symbol symbol) :
    o.HoldsStrongly (.symbol symbol)
  | capture {name behaviour captures b} (hk : o.kind = .function name behaviour captures)
    (hb : b ∈ captures) : o.HoldsStrongly b.value
  | boundTarget {target this args} (hk : o.kind = .boundFunction target this args) :
    o.HoldsStrongly (.object target)
  | boundThis {target this args} (hk : o.kind = .boundFunction target this args) :
    o.HoldsStrongly this
  | boundArgument {target this args a} (hk : o.kind = .boundFunction target this args)
    (ha : a ∈ args) : o.HoldsStrongly a
  | revocableProxy {proxy} (hk : o.kind = .proxyRevoker (some proxy)) :
    o.HoldsStrongly (.object proxy)
  | proxyTarget {target handler?} (hk : o.kind = .proxy (some target) handler?) :
    o.HoldsStrongly (.object target)
  | proxyHandler {target? handler} (hk : o.kind = .proxy target? (some handler)) :
    o.HoldsStrongly (.object handler)
  | cleanupCallback {callback cells} (hk : o.kind = .finalizationRegistry callback cells) :
    o.HoldsStrongly (.object callback)
  | cellHeldValue {callback cells c} (hk : o.kind = .finalizationRegistry callback cells)
    (hc : c ∈ cells.toList) : o.HoldsStrongly c.held
  | mapKey {entries e} (hk : o.kind = .map entries) (he : e ∈ entries.toList) :
    o.HoldsStrongly e.key
  | mapValue {entries e} (hk : o.kind = .map entries) (he : e ∈ entries.toList) :
    o.HoldsStrongly e.value
  | setValue {values v} (hk : o.kind = .set values) (hv : v ∈ values.toList) : o.HoldsStrongly v
  | promiseResult {p} (hk : o.kind = .promise p) : o.HoldsStrongly p.result
  | reactionHandler {p r f} (hk : o.kind = .promise p)
    (hr : r ∈ p.onFulfilled.toList ∨ r ∈ p.onRejected.toList) (hf : r.handler? = some f) :
    o.HoldsStrongly (.object f)
  | derivedPromise {p r q} (hk : o.kind = .promise p)
    (hr : r ∈ p.onFulfilled.toList ∨ r ∈ p.onRejected.toList) (hq : r.derived? = some q) :
    o.HoldsStrongly (.object q)

/-- What an object refers to without keeping it alive. -/
inductive HoldsWeakly (o : Object) : Value → Prop where
  | weakRefTarget {target} (hk : o.kind = .weakRef target) : o.HoldsWeakly target
  | cellTarget {callback cells c} (hk : o.kind = .finalizationRegistry callback cells)
    (hc : c ∈ cells.toList) : o.HoldsWeakly c.target
  | cellToken {callback cells c token} (hk : o.kind = .finalizationRegistry callback cells)
    (hc : c ∈ cells.toList) (ht : c.token? = some token) : o.HoldsWeakly token
  | weakMapKey {entries e} (hk : o.kind = .weakMap entries) (he : e ∈ entries.toList) :
    o.HoldsWeakly e.key
  | weakSetValue {values v} (hk : o.kind = .weakSet values) (hv : v ∈ values.toList) :
    o.HoldsWeakly v

/-- What an object keeps alive together with a key. -/
inductive HoldsJointly (o : Object) : Value → Value → Prop where
  | weakMapValue {entries e} (hk : o.kind = .weakMap entries) (he : e ∈ entries.toList) :
    o.HoldsJointly e.key e.value

end Object

/-- The least set that holds the held objects and symbols, whatever objects in
it keep alive, WeakMap values whose map and key are in it, and, unless only
strong references count, what objects in it refer to weakly. -/
inductive Heap.Live (h : Heap) (strongOnly : Bool) (held : List Value) : Identity → Prop where
  | held {i} (hi : i.toValue ∈ held) : h.Live strongOnly held i
  | strong {ref o i} (hr : h.Live strongOnly held (.object ref)) (ho : h.object ref = .ok o)
    (hi : o.HoldsStrongly i.toValue) : h.Live strongOnly held i
  | joint {ref o key i} (hr : h.Live strongOnly held (.object ref)) (ho : h.object ref = .ok o)
    (hi : o.HoldsJointly key.toValue i.toValue) (hkey : h.Live strongOnly held key) :
    h.Live strongOnly held i
  | weak {ref o i} (hs : strongOnly = false) (hr : h.Live strongOnly held (.object ref))
    (ho : h.object ref = .ok o) (hi : o.HoldsWeakly i.toValue) : h.Live strongOnly held i

namespace Object

variable {o : Object} {key v : Value}

theorem HoldsStrongly.mem_stored (hv : o.HoldsStrongly v) : v ∈ o.stored := by
  rw [stored, List.mem_append, List.mem_append]
  cases hv with
  | prototype hp => exact .inl (.inl (by rw [hp]; simp))
  | @property p hp =>
    refine .inl (.inr (List.mem_flatMap.mpr ⟨p, hp, ?_⟩))
    unfold Property.stored
    split <;> simp
  | @propertySymbol p symbol hp hk =>
    refine .inl (.inr (List.mem_flatMap.mpr ⟨p, hp, ?_⟩))
    rw [Property.stored, hk]
    exact List.mem_cons_self
  | capture hk hb => rw [hk]; exact .inr (List.mem_map_of_mem hb)
  | boundTarget hk => rw [hk]; exact .inr List.mem_cons_self
  | boundThis hk => rw [hk]; exact .inr (List.mem_cons_of_mem _ List.mem_cons_self)
  | boundArgument hk ha =>
    rw [hk]
    exact .inr (List.mem_cons_of_mem _ (List.mem_cons_of_mem _ ha))
  | revocableProxy hk => rw [hk]; exact .inr List.mem_cons_self
  | proxyTarget hk => rw [hk]; exact .inr List.mem_cons_self
  | proxyHandler hk => rw [hk]; exact .inr (by simp [ObjectKind.stored])
  | cleanupCallback hk => rw [hk]; exact .inr List.mem_cons_self
  | cellHeldValue hk hc =>
    rw [hk]
    exact .inr (List.mem_cons_of_mem _ (List.mem_flatMap.mpr ⟨_, hc, List.mem_cons_self⟩))
  | mapKey hk he => rw [hk]; exact .inr (List.mem_flatMap.mpr ⟨_, he, List.mem_cons_self⟩)
  | mapValue hk he => rw [hk]; exact .inr (List.mem_flatMap.mpr ⟨_, he, by simp⟩)
  | setValue hk hv => rw [hk]; exact .inr hv
  | promiseResult hk => rw [hk]; exact .inr List.mem_cons_self
  | reactionHandler hk hr hf =>
    rw [hk]
    refine .inr (List.mem_cons_of_mem _ (List.mem_flatMap.mpr ⟨_, List.mem_append.mpr hr, ?_⟩))
    rw [hf]
    exact List.mem_cons_self
  | derivedPromise hk hr hq =>
    rw [hk]
    refine .inr (List.mem_cons_of_mem _ (List.mem_flatMap.mpr ⟨_, List.mem_append.mpr hr, ?_⟩))
    rw [hq]
    simp

theorem HoldsWeakly.mem_stored (hv : o.HoldsWeakly v) : v ∈ o.stored := by
  rw [stored, List.mem_append]
  cases hv with
  | weakRefTarget hk => rw [hk]; exact .inr List.mem_cons_self
  | cellTarget hk hc =>
    rw [hk]
    exact .inr (List.mem_cons_of_mem _ (List.mem_flatMap.mpr ⟨_, hc, by simp⟩))
  | cellToken hk hc ht =>
    rw [hk]
    exact .inr (List.mem_cons_of_mem _ (List.mem_flatMap.mpr ⟨_, hc, by simp [ht]⟩))
  | weakMapKey hk he => rw [hk]; exact .inr (List.mem_flatMap.mpr ⟨_, he, List.mem_cons_self⟩)
  | weakSetValue hk hv => rw [hk]; exact .inr hv

/-- A key that keeps something alive with an object is referred to weakly by it. -/
theorem HoldsJointly.holdsWeakly (hv : o.HoldsJointly key v) : o.HoldsWeakly key := by
  cases hv with
  | weakMapValue hk he => exact .weakMapKey hk he

theorem HoldsJointly.mem_stored (hv : o.HoldsJointly key v) :
    key ∈ o.stored ∧ v ∈ o.stored ∧ key ∈ o.kind.weakMapKeys := by
  cases hv with
  | weakMapValue hk he =>
    rw [stored, hk]
    exact ⟨List.mem_append_right _ (List.mem_flatMap.mpr ⟨_, he, List.mem_cons_self⟩),
      List.mem_append_right _ (List.mem_flatMap.mpr ⟨_, he, by simp⟩), List.mem_map_of_mem he⟩

end Object
/-- A WeakMap with one entry, and the objects that are its key and its value. -/
def Heap.oneEntry : Heap where
  slots := #[
    .object ⟨none, [], .weakMap (.ofList [⟨.object ⟨1⟩, .object ⟨2⟩⟩])⟩,
    .object ⟨none, [], .ordinary⟩,
    .object ⟨none, [], .ordinary⟩]

theorem Heap.wellFormed_oneEntry : oneEntry.WellFormed := by decide

end Retention
