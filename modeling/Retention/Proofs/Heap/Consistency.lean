import Retention.Proofs.Heap.Extension
import Retention.Realm.Collection

/-!
# Consistent heaps

A heap is consistent if whatever its objects store leads to a slot of its kind,
and internal slots hold only what the operations that write them let through
(`ObjectKind.Checked`): the keys of a collection differ, what is held weakly can
be, what is to be called can be called.

* `Heap.Consistent`, which can be checked.
* `Heap.Consistent.wellFormed`: a consistent heap can be searched.
* `Heap.consistent_initial`: a fresh heap is consistent.
* `Heap.Consistent.alloc`, `Heap.Consistent.update`, …: changes keep it so.
-/

namespace Retention

/-- The keys of a collection: no two of them are equal, and none is a negative
zero. -/
structure CollectionKeys (keys : List Value) : Prop where
  distinct : keys.Pairwise fun a b => a.sameValueZero b = false
  canonical : ∀ key ∈ keys, canonicalKey key = key

/-- A cell holds its target and its token weakly, and a value that is not its
target. -/
structure Cell.Checked (h : Heap) (c : Cell) : Prop where
  target : h.canBeHeldWeakly c.target = true
  token : ∀ token ∈ c.token?, h.canBeHeldWeakly token = true
  held : c.target.sameValue c.held = false

/-- A reaction calls its handler and settles a promise. -/
structure Reaction.Checked (h : Heap) (r : Reaction) : Prop where
  handler : ∀ f ∈ r.handler?, h.isCallable (.object f) = true
  derived : ∀ p ∈ r.derived?, h.builtin? p = some .promise

/-- What the operations that write internal slots have checked. -/
def ObjectKind.Checked (h : Heap) : ObjectKind → Prop
  | .ordinary | .array | .error | .function .. => True
  | .boundFunction target .. => h.isCallable (.object target) = true
  | .proxyRevoker proxy? => ∀ proxy ∈ proxy?, h.builtin? proxy = some .proxy
  | .proxy target? handler? => target?.isSome = handler?.isSome
  | .weakRef target => h.canBeHeldWeakly target = true
  | .finalizationRegistry callback cells =>
    h.isCallable (.object callback) = true ∧ ∀ c ∈ cells.toList, c.Checked h
  | .map entries => CollectionKeys (entries.toList.map KeyedEntry.key)
  | .set values => CollectionKeys values.toList
  | .weakMap entries =>
    CollectionKeys (entries.toList.map KeyedEntry.key) ∧
      ∀ e ∈ entries.toList, h.canBeHeldWeakly e.key = true
  | .weakSet values =>
    CollectionKeys values.toList ∧ ∀ v ∈ values.toList, h.canBeHeldWeakly v = true
  | .promise p => ∀ r ∈ p.onFulfilled.toList ++ p.onRejected.toList, r.Checked h

/-- Internal slots that lead somewhere and hold what they may. -/
structure ObjectKind.Consistent (h : Heap) (k : ObjectKind) : Prop where
  valid : ∀ v ∈ k.stored, h.isValid v = true
  checked : k.Checked h

/-- A property table that leads somewhere and has each key once. -/
structure Properties.Consistent (h : Heap) (t : Properties) : Prop where
  valid : ∀ p ∈ t, ∀ v ∈ p.stored, h.isValid v = true
  distinct : (t.map Property.key).Nodup

/-- An object whose parts are consistent. -/
structure Object.Consistent (h : Heap) (o : Object) : Prop where
  prototype : ∀ p ∈ o.prototype?, h.isValid (.object p) = true
  properties : Properties.Consistent h o.properties
  kind : o.kind.Consistent h

/-- A heap whose objects are consistent, with the symbols that are registered
and the objects that every realm has. -/
structure Heap.Consistent (h : Heap) : Prop where
  objects : ∀ {ref o}, h.object ref = .ok o → o.Consistent h
  registry : ∀ entry ∈ h.registry, h.isValid (.symbol entry.2) = true
  intrinsics : ∀ i : Intrinsic, h.isValid (.object i.ref) = true
  global : h.isValid (.object globalRef) = true

/-! ## Checking -/

instance (keys : List Value) : Decidable (CollectionKeys keys) :=
  decidable_of_iff
    (keys.Pairwise (fun a b => a.sameValueZero b = false) ∧ ∀ key ∈ keys, canonicalKey key = key)
    ⟨fun ⟨hd, hc⟩ => ⟨hd, hc⟩, fun ⟨hd, hc⟩ => ⟨hd, hc⟩⟩

instance (h : Heap) (c : Cell) : Decidable (c.Checked h) :=
  decidable_of_iff
    (h.canBeHeldWeakly c.target = true ∧ (∀ token ∈ c.token?, h.canBeHeldWeakly token = true) ∧
      c.target.sameValue c.held = false)
    ⟨fun ⟨ht, hk, hv⟩ => ⟨ht, hk, hv⟩, fun ⟨ht, hk, hv⟩ => ⟨ht, hk, hv⟩⟩

instance (h : Heap) (r : Reaction) : Decidable (r.Checked h) :=
  decidable_of_iff
    ((∀ f ∈ r.handler?, h.isCallable (.object f) = true) ∧
      ∀ p ∈ r.derived?, h.builtin? p = some .promise)
    ⟨fun ⟨hf, hp⟩ => ⟨hf, hp⟩, fun ⟨hf, hp⟩ => ⟨hf, hp⟩⟩

instance (h : Heap) (k : ObjectKind) : Decidable (k.Checked h) := by
  cases k <;> unfold ObjectKind.Checked <;> infer_instance

instance (h : Heap) (k : ObjectKind) : Decidable (k.Consistent h) :=
  decidable_of_iff ((∀ v ∈ k.stored, h.isValid v = true) ∧ k.Checked h)
    ⟨fun ⟨hv, hc⟩ => ⟨hv, hc⟩, fun ⟨hv, hc⟩ => ⟨hv, hc⟩⟩

instance (h : Heap) (t : Properties) : Decidable (Properties.Consistent h t) :=
  decidable_of_iff ((∀ p ∈ t, ∀ v ∈ p.stored, h.isValid v = true) ∧ (t.map Property.key).Nodup)
    ⟨fun ⟨hv, hd⟩ => ⟨hv, hd⟩, fun ⟨hv, hd⟩ => ⟨hv, hd⟩⟩

instance (h : Heap) (o : Object) : Decidable (o.Consistent h) :=
  decidable_of_iff
    ((∀ p ∈ o.prototype?, h.isValid (.object p) = true) ∧ Properties.Consistent h o.properties ∧
      o.kind.Consistent h)
    ⟨fun ⟨hp, ht, hk⟩ => ⟨hp, ht, hk⟩, fun ⟨hp, ht, hk⟩ => ⟨hp, ht, hk⟩⟩

/-- The object in a slot, if it holds one, is consistent. -/
def Slot.Consistent (h : Heap) : Slot → Prop
  | .object o => o.Consistent h
  | .symbol _ => True

instance (h : Heap) (s : Slot) : Decidable (s.Consistent h) := by
  cases s <;> unfold Slot.Consistent <;> infer_instance

namespace Heap

theorem consistent_iff (h : Heap) :
    h.Consistent ↔ (∀ s ∈ h.slots.toList, s.Consistent h) ∧
      (∀ entry ∈ h.registry, h.isValid (.symbol entry.2) = true) ∧
      (∀ i ∈ Intrinsic.all, h.isValid (.object i.ref) = true) ∧
      h.isValid (.object globalRef) = true := by
  constructor
  · intro hh
    refine ⟨?_, hh.registry, fun i _ => hh.intrinsics i, hh.global⟩
    rintro (o | _) hs
    · obtain ⟨i, hi⟩ := List.mem_iff_getElem?.mp hs
      exact hh.objects (object_of_slot hi)
    · trivial
  · rintro ⟨hslots, hregistry, hintrinsics, hglobal⟩
    refine ⟨fun ho => ?_, hregistry, fun i => hintrinsics i (by cases i <;> decide), hglobal⟩
    exact hslots _ (List.mem_of_getElem? (slot_of_object ho))

instance (h : Heap) : Decidable h.Consistent := decidable_of_iff _ (consistent_iff h).symm

/-- A fresh heap is consistent. -/
theorem consistent_initial : Heap.initial.Consistent := by decide +kernel

end Heap

/-! ## What consistency says -/

variable {h h' : Heap}

/-- What stored slots lead to is there. -/
theorem Object.Consistent.isValid_of_mem_stored {o : Object} (ho : o.Consistent h) :
    ∀ v ∈ o.stored, h.isValid v = true := by
  intro v hv
  simp only [Object.stored, List.mem_append, List.mem_map, Option.mem_toList,
    List.mem_flatMap] at hv
  rcases hv with (⟨p, hp, rfl⟩ | ⟨p, hp, hv⟩) | hv
  · exact ho.prototype p hp
  · exact ho.properties.valid p hp v hv
  · exact ho.kind.valid v hv

theorem ObjectKind.Checked.hasIdentity_of_mem_weakMapKeys {k : ObjectKind} (hk : k.Checked h) :
    ∀ v ∈ k.weakMapKeys, v.hasIdentity = true := by
  cases k with
  | weakMap entries =>
    intro v hv
    obtain ⟨e, he, rfl⟩ := List.mem_map.mp hv
    exact Heap.hasIdentity_of_canBeHeldWeakly (hk.2 e he)
  | _ => exact fun v hv => absurd hv List.not_mem_nil

/-- A consistent heap is well formed, so that a search of it answers. -/
theorem Heap.Consistent.wellFormed (hh : h.Consistent) : h.WellFormed where
  valid ho := (hh.objects ho).isValid_of_mem_stored
  weakMapKeys ho := (hh.objects ho).kind.checked.hasIdentity_of_mem_weakMapKeys

/-! ## Extensions -/

section Extension

variable (hext : h.Extends h')

include hext

theorem Cell.Checked.mono {c : Cell} (hc : c.Checked h) : c.Checked h' :=
  ⟨hext.canBeHeldWeakly hc.target, fun token ht => hext.canBeHeldWeakly (hc.token token ht),
    hc.held⟩

theorem Reaction.Checked.mono {r : Reaction} (hr : r.Checked h) : r.Checked h' :=
  ⟨fun f hf => hext.isCallable (hr.handler f hf), fun p hp => hext.builtin? (hr.derived p hp)⟩

theorem ObjectKind.Checked.mono {k : ObjectKind} (hk : k.Checked h) : k.Checked h' := by
  cases k with
  | boundFunction target this args => exact hext.isCallable hk
  | proxyRevoker proxy? => exact fun proxy hp => hext.builtin? (hk proxy hp)
  | weakRef target => exact hext.canBeHeldWeakly hk
  | finalizationRegistry callback cells =>
    exact ⟨hext.isCallable hk.1, fun c hc => (hk.2 c hc).mono hext⟩
  | weakMap entries => exact ⟨hk.1, fun e he => hext.canBeHeldWeakly (hk.2 e he)⟩
  | weakSet values => exact ⟨hk.1, fun v hv => hext.canBeHeldWeakly (hk.2 v hv)⟩
  | promise p => exact fun r hr => (hk r hr).mono hext
  | _ => exact hk

theorem ObjectKind.Consistent.mono {k : ObjectKind} (hk : k.Consistent h) : k.Consistent h' :=
  ⟨fun v hv => hext.isValid (hk.valid v hv), hk.checked.mono hext⟩

theorem Properties.Consistent.mono {t : Properties} (ht : Properties.Consistent h t) :
    Properties.Consistent h' t :=
  ⟨fun p hp v hv => hext.isValid (ht.valid p hp v hv), ht.distinct⟩

theorem Object.Consistent.mono {o : Object} (ho : o.Consistent h) : o.Consistent h' :=
  ⟨fun p hp => hext.isValid (ho.prototype p hp), ho.properties.mono hext, ho.kind.mono hext⟩

/-- A heap stays consistent in an extension whose objects are old or consistent
and which registers no new symbols but its own. -/
theorem Heap.Consistent.extend (hh : h.Consistent)
    (hobjects : ∀ {ref o}, h'.object ref = .ok o → h.object ref = .ok o ∨ o.Consistent h')
    (hregistry : ∀ entry ∈ h'.registry,
      entry ∈ h.registry ∨ h'.isValid (.symbol entry.2) = true) : h'.Consistent where
  objects ho := (hobjects ho).elim (fun ho => (hh.objects ho).mono hext) id
  registry entry he :=
    (hregistry entry he).elim (fun he => hext.isValid (hh.registry entry he)) id
  intrinsics i := hext.isValid (hh.intrinsics i)
  global := hext.isValid hh.global

end Extension

/-! ## Changes -/

/-- A new symbol is no object. -/
theorem Heap.object_of_object_allocSymbol {description? : Option String} {registered : Bool}
    {ref : ObjectRef} {o : Object}
    (ho : (h.allocSymbol description? registered).2.object ref = .ok o) : h.object ref = .ok o := by
  rw [object_eq_ok_iff, Heap.allocSymbol, Array.getElem?_push] at ho
  split at ho
  · cases ho
  · exact object_eq_ok_iff.mpr ho

namespace Heap.Consistent

variable (hh : h.Consistent)

include hh

theorem alloc {prototype? : Option ObjectRef} {kind : ObjectKind}
    (hp : ∀ p ∈ prototype?, h.isValid (.object p) = true) (hk : kind.Consistent h) :
    (h.alloc prototype? kind).2.Consistent := by
  have hext := extends_alloc h prototype? kind
  refine hh.extend hext (fun {ref o} ho => ?_) fun _ he => .inl he
  rw [object_eq_ok_iff, Heap.alloc, Array.getElem?_push] at ho
  split at ho
  · obtain rfl := Slot.object.inj (Option.some.inj ho)
    exact .inr ⟨fun p hp' => hext.isValid (hp p hp'), ⟨by simp, by simp⟩, hk.mono hext⟩
  · exact .inl (object_eq_ok_iff.mpr ho)

theorem allocSymbol (description? : Option String) (registered : Bool) :
    (h.allocSymbol description? registered).2.Consistent :=
  hh.extend (extends_allocSymbol h description? registered)
    (fun ho => .inl (object_of_object_allocSymbol ho)) fun _ he => .inl he

theorem isValid_symbolFor (key : String) :
    (h.symbolFor key).2.isValid (.symbol (h.symbolFor key).1) = true := by
  unfold Heap.symbolFor
  split
  · rename_i ref hl
    obtain ⟨l₁, l₂, heq, -⟩ := List.lookup_eq_some_iff.mp hl
    exact hh.registry (key, ref) (by simp [heq])
  · exact isValid_symbol_iff.mpr ⟨{ description? := some key, registered := true }, by
      simp [symbol, Heap.allocSymbol, size]⟩

theorem symbolFor (key : String) : (h.symbolFor key).2.Consistent := by
  cases hl : h.registry.lookup key with
  | some ref =>
    have heq : h.symbolFor key = (ref, h) := by simp only [Heap.symbolFor, hl]
    rwa [heq]
  | none =>
    have heq : h.symbolFor key = ((h.allocSymbol (some key) true).1,
        { (h.allocSymbol (some key) true).2 with
          registry := h.registry ++ [(key, (h.allocSymbol (some key) true).1)] }) := by
      simp only [Heap.symbolFor, hl, Heap.allocSymbol]
    have hvalid := hh.isValid_symbolFor key
    have hext := extends_symbolFor h key
    rw [heq] at hvalid hext ⊢
    refine hh.extend hext (fun ho => .inl (object_of_object_allocSymbol ho)) fun entry he => ?_
    rcases List.mem_append.mp he with he | he
    · exact .inl he
    · rw [List.mem_singleton.mp he]
      exact .inr hvalid

theorem update {α : Type} {ref : ObjectRef} {change : Object → α × Object}
    (hkind : ∀ {o}, h.object ref = .ok o → (change o).2.kind.builtin = o.kind.builtin)
    (hchange : ∀ {o}, h.object ref = .ok o → o.Consistent h → (change o).2.Consistent h) :
    (h.update ref change).2.Consistent := by
  have hext : h.Extends (h.update ref change).2 := extends_update hkind
  refine hh.extend hext (fun ho' => ?_) fun entry he => ?_
  · rcases object_update_eq_ok ho' with ho | ⟨o, ho, rfl⟩
    · exact .inl ho
    · exact .inr ((hchange ho (hh.objects ho)).mono hext)
  · left
    unfold Heap.update at he
    split at he <;> exact he

end Heap.Consistent
end Retention
