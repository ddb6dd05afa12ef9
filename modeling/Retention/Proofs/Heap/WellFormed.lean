import Retention.Heap.Basic
import Retention.Interning

/-!
# Well-formed heaps

A heap is well formed if whatever its objects store leads to a slot of its
kind, and the keys of its WeakMaps are objects or symbols (`Heap.WellFormed`).
This can be checked (`Heap.isWellFormed`).
-/

namespace Retention

namespace ObjectKind

/-- The values in the internal slots of an object. -/
def stored : ObjectKind → List Value
  | .ordinary | .array | .error => []
  | .function _ _ captures => captures.map Binding.value
  | .boundFunction target this args => .object target :: this :: args
  | .proxyRevoker proxy? => proxy?.toList.map .object
  | .proxy target? handler? => (target?.toList ++ handler?.toList).map .object
  | .weakRef target => [target]
  | .finalizationRegistry callback cells =>
    .object callback :: cells.toList.flatMap fun c => c.held :: c.target :: c.token?.toList
  | .map entries | .weakMap entries => entries.toList.flatMap fun e => [e.key, e.value]
  | .set values | .weakSet values => values.toList
  | .promise p =>
    p.result :: (p.onFulfilled.toList ++ p.onRejected.toList).flatMap fun r =>
      (r.handler?.toList ++ r.derived?.toList).map .object

/-- The keys of a WeakMap. -/
def weakMapKeys : ObjectKind → List Value
  | .weakMap entries => entries.toList.map KeyedEntry.key
  | _ => []

end ObjectKind

/-- The values of a property: the one it has, and a symbol that keys it. -/
def Property.stored (p : Property) : List Value :=
  match p.key with
  | .symbol ref => [.symbol ref, p.value]
  | .string _ => [p.value]

/-- The values that an object stores. -/
def Object.stored (o : Object) : List Value :=
  o.prototype?.toList.map .object ++ o.properties.flatMap Property.stored ++ o.kind.stored

namespace Heap

/-- Whether an identity leads to a slot of its kind. -/
def has (h : Heap) : Identity → Bool
  | .object ref => h.isObject ref
  | .symbol ref => h.isSymbol ref

/-- Whether a value is a primitive or leads to a slot of its kind. -/
def isValid (h : Heap) (v : Value) : Bool :=
  match Identity.ofValue v with
  | .ok i => h.has i
  | .error _ => true

/-- What objects store leads somewhere, and WeakMap keys have identity. -/
structure WellFormed (h : Heap) : Prop where
  valid : ∀ {ref o}, h.object ref = .ok o → ∀ v ∈ o.stored, h.isValid v = true
  weakMapKeys : ∀ {ref o}, h.object ref = .ok o → ∀ v ∈ o.kind.weakMapKeys, v.hasIdentity = true

/-- Whether a heap is well formed. -/
def isWellFormed (h : Heap) : Bool :=
  h.slots.toList.all fun
    | .object o => o.stored.all h.isValid && o.kind.weakMapKeys.all Value.hasIdentity
    | .symbol _ => true

theorem slot_of_object {h : Heap} {ref : ObjectRef} {o : Object} (ho : h.object ref = .ok o) :
    h.slots.toList[ref.slot]? = some (.object o) := by
  unfold object at ho
  split at ho
  · rename_i hs
    cases ho
    simpa using hs
  · cases ho

theorem object_of_slot {h : Heap} {i : Nat} {o : Object}
    (ho : h.slots.toList[i]? = some (.object o)) : h.object ⟨i⟩ = .ok o := by
  unfold object
  rw [Array.getElem?_toList] at ho
  rw [ho]

theorem wellFormed_iff (h : Heap) : h.WellFormed ↔ h.isWellFormed = true := by
  rw [isWellFormed, List.all_eq_true]
  constructor
  · rintro hw (o | _) ho
    · obtain ⟨i, hi⟩ := List.mem_iff_getElem?.mp ho
      have hobj := object_of_slot hi
      simpa using ⟨hw.valid hobj, hw.weakMapKeys hobj⟩
    · rfl
  · intro hall
    have hboth : ∀ {ref o}, h.object ref = .ok o →
        (∀ v ∈ o.stored, h.isValid v = true) ∧ ∀ v ∈ o.kind.weakMapKeys, v.hasIdentity = true :=
      fun ho => by simpa using hall _ (List.mem_of_getElem? (slot_of_object ho))
    exact ⟨fun ho => (hboth ho).1, fun ho => (hboth ho).2⟩

instance (h : Heap) : Decidable h.WellFormed := decidable_of_iff _ (wellFormed_iff h).symm

theorem has_object {h : Heap} {ref : ObjectRef} :
    h.has (.object ref) = true ↔ ∃ o, h.object ref = .ok o := by
  show (h.object ref).isOk = true ↔ _
  cases h.object ref <;> simp [Except.isOk, Except.toBool]

theorem has_symbol {h : Heap} {ref : SymbolRef} :
    h.has (.symbol ref) = true ↔ ∃ s, h.symbol ref = .ok s := by
  show (h.symbol ref).isOk = true ↔ _
  cases h.symbol ref <;> simp [Except.isOk, Except.toBool]

theorem isValid_of_ofValue {h : Heap} {v : Value} {i : Identity} (hv : Identity.ofValue v = .ok i) :
    h.isValid v = h.has i := by
  rw [isValid, hv]

end Heap
end Retention
