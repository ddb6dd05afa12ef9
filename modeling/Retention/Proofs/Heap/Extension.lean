import Retention.Proofs.Heap.WellFormed

/-!
# Extensions of a heap

A heap extends another if the objects of the other are there and have the kinds
they had, and its symbols are there as they were (`Heap.Extends`). What is said
of a reference by the slot it leads to stays true in an extension.

* `Heap.builtin?`: the kind of the object that a reference leads to.
* `Extends.isValid`, `Extends.isCallable`, `Extends.canBeHeldWeakly`: what stays.
* `extends_alloc`, `extends_allocSymbol`, `extends_symbolFor`, `extends_update`:
  the changes of a heap are extensions.
* `KeepsSlots.push`, `KeepsSlots.update`, `KeepsSlots.setKind`: changes that leave the
  internal slots of the objects of a kind.
-/

namespace Retention

/-- Whether an object can be called is a matter of its kind. -/
theorem ObjectKind.isCallable_congr {k k' : ObjectKind} (h : k.builtin = k'.builtin) :
    k.isCallable = k'.isCallable := by
  have hkind : ∀ k : ObjectKind, k.isCallable =
      (k.builtin == .function || k.builtin == .boundFunction || k.builtin == .proxyRevoker) := by
    intro k
    cases k <;> rfl
  rw [hkind k, hkind k', h]

namespace Heap

variable {h h' h'' : Heap} {ref : ObjectRef} {o : Object} {v : Value}

/-- The kind of the object that a reference leads to. -/
def builtin? (h : Heap) (ref : ObjectRef) : Option BuiltinKind :=
  (h.kind ref).toOption.map ObjectKind.builtin

theorem object_eq_ok_iff : h.object ref = .ok o ↔ h.slots[ref.slot]? = some (.object o) := by
  unfold object
  split <;> simp_all

theorem symbol_eq_ok_iff {s : SymbolRef} {sym : Symbol} :
    h.symbol s = .ok sym ↔ h.slots[s.slot]? = some (.symbol sym) := by
  unfold symbol
  split <;> simp_all

theorem eq_invalidHandle_of_object {cause : Abrupt} (ho : h.object ref = .error cause) :
    cause = .invalidHandle := by
  unfold object at ho
  split at ho
  · cases ho
  · exact (Except.error.inj ho).symm

theorem eq_invalidHandle_of_symbol {s : SymbolRef} {cause : Abrupt}
    (hs : h.symbol s = .error cause) : cause = .invalidHandle := by
  unfold symbol at hs
  split at hs
  · cases hs
  · exact (Except.error.inj hs).symm

theorem kind_of_object (ho : h.object ref = .ok o) : h.kind ref = .ok o.kind := by
  rw [kind, ho]
  rfl

theorem kind_eq_ok_iff {k : ObjectKind} :
    h.kind ref = .ok k ↔ ∃ o, h.object ref = .ok o ∧ o.kind = k := by
  constructor
  · intro hk
    cases ho : h.object ref with
    | error cause =>
      rw [kind, ho] at hk
      cases hk
    | ok o =>
      rw [kind_of_object ho] at hk
      exact ⟨o, rfl, Except.ok.inj hk⟩
  · rintro ⟨o, ho, rfl⟩
    exact kind_of_object ho

theorem eq_invalidHandle_of_kind {cause : Abrupt} (hk : h.kind ref = .error cause) :
    cause = .invalidHandle := by
  cases ho : h.object ref with
  | ok o =>
    rw [kind_of_object ho] at hk
    cases hk
  | error cause' =>
    rw [kind, ho] at hk
    exact Except.error.inj hk ▸ eq_invalidHandle_of_object ho

theorem builtin?_of_object (ho : h.object ref = .ok o) : h.builtin? ref = some o.kind.builtin := by
  rw [builtin?, kind_of_object ho]
  rfl

theorem builtin?_eq_some_iff {k : BuiltinKind} :
    h.builtin? ref = some k ↔ ∃ o, h.object ref = .ok o ∧ o.kind.builtin = k := by
  constructor
  · intro hk
    cases ho : h.object ref with
    | error cause =>
      rw [builtin?, kind, ho] at hk
      cases hk
    | ok o =>
      rw [builtin?_of_object ho] at hk
      exact ⟨o, rfl, Option.some.inj hk⟩
  · rintro ⟨o, ho, rfl⟩
    exact builtin?_of_object ho

theorem isValid_object_iff : h.isValid (.object ref) = true ↔ ∃ o, h.object ref = .ok o :=
  has_object

theorem isValid_symbol_iff {s : SymbolRef} :
    h.isValid (.symbol s) = true ↔ ∃ sym, h.symbol s = .ok sym :=
  has_symbol

/-- Primitives lead nowhere. -/
theorem isValid_of_primitive (hv : v.hasIdentity = false) : h.isValid v = true := by
  cases v with
  | object ref => cases hv
  | symbol ref => cases hv
  | _ => rfl

theorem isValid_of_builtin? {k : BuiltinKind} (hk : h.builtin? ref = some k) :
    h.isValid (.object ref) = true := by
  obtain ⟨o, ho, -⟩ := builtin?_eq_some_iff.mp hk
  exact isValid_object_iff.mpr ⟨o, ho⟩

/-- What can be called is an object. -/
theorem isCallable_iff :
    h.isCallable v = true ↔ ∃ ref o, v = .object ref ∧ h.object ref = .ok o ∧
      o.kind.isCallable = true := by
  cases v with
  | object ref =>
    simp only [isCallable]
    cases hk : h.kind ref with
    | error cause =>
      simp only [Bool.false_eq_true, false_iff]
      rintro ⟨_, o, heq, ho, -⟩
      cases heq
      rw [kind_of_object ho] at hk
      cases hk
    | ok k =>
      obtain ⟨o, ho, rfl⟩ := kind_eq_ok_iff.mp hk
      simp [ho]
  | _ => simp [isCallable]

theorem isCallable_object (ho : h.object ref = .ok o) :
    h.isCallable (.object ref) = o.kind.isCallable := by
  simp only [isCallable, kind_of_object ho]

theorem isValid_of_isCallable (hc : h.isCallable v = true) : h.isValid v = true := by
  obtain ⟨ref, o, rfl, ho, -⟩ := isCallable_iff.mp hc
  exact isValid_object_iff.mpr ⟨o, ho⟩

theorem canBeHeldWeakly_object : h.canBeHeldWeakly (.object ref) = h.isValid (.object ref) := rfl

theorem canBeHeldWeakly_symbol_iff {s : SymbolRef} :
    h.canBeHeldWeakly (.symbol s) = true ↔ ∃ sym, h.symbol s = .ok sym ∧ sym.registered = false := by
  simp only [canBeHeldWeakly]
  split <;> simp_all

theorem isValid_of_canBeHeldWeakly (hv : h.canBeHeldWeakly v = true) : h.isValid v = true := by
  cases v with
  | object ref => exact hv
  | symbol s =>
    obtain ⟨sym, hs, -⟩ := canBeHeldWeakly_symbol_iff.mp hv
    exact isValid_symbol_iff.mpr ⟨sym, hs⟩
  | _ => cases hv

theorem hasIdentity_of_canBeHeldWeakly (hv : h.canBeHeldWeakly v = true) :
    v.hasIdentity = true := by
  cases v <;> first | rfl | cases hv

/-- Every slot of the first heap keeps its object or symbol in the second, with
the kind of the object and the registration of the symbol. -/
structure Extends (h h' : Heap) : Prop where
  builtin? : ∀ {ref k}, h.builtin? ref = some k → h'.builtin? ref = some k
  symbol : ∀ {ref s}, h.symbol ref = .ok s → h'.symbol ref = .ok s

namespace Extends

theorem refl (h : Heap) : h.Extends h := ⟨id, id⟩

theorem trans (hext : h.Extends h') (hext' : h'.Extends h'') : h.Extends h'' :=
  ⟨fun hk => hext'.builtin? (hext.builtin? hk), fun hs => hext'.symbol (hext.symbol hs)⟩

variable (hext : h.Extends h')

include hext

theorem object (ho : h.object ref = .ok o) :
    ∃ o', h'.object ref = .ok o' ∧ o'.kind.builtin = o.kind.builtin :=
  builtin?_eq_some_iff.mp (hext.builtin? (builtin?_of_object ho))

theorem isValid (hv : h.isValid v = true) : h'.isValid v = true := by
  cases v with
  | object ref =>
    obtain ⟨o, ho⟩ := isValid_object_iff.mp hv
    obtain ⟨o', ho', -⟩ := hext.object ho
    exact isValid_object_iff.mpr ⟨o', ho'⟩
  | symbol s =>
    obtain ⟨sym, hs⟩ := isValid_symbol_iff.mp hv
    exact isValid_symbol_iff.mpr ⟨sym, hext.symbol hs⟩
  | _ => rfl

theorem isCallable (hv : h.isCallable v = true) : h'.isCallable v = true := by
  obtain ⟨ref, o, rfl, ho, hc⟩ := isCallable_iff.mp hv
  obtain ⟨o', ho', hk⟩ := hext.object ho
  rw [isCallable_object ho', ObjectKind.isCallable_congr hk, hc]

theorem canBeHeldWeakly (hv : h.canBeHeldWeakly v = true) : h'.canBeHeldWeakly v = true := by
  cases v with
  | object ref =>
    rw [canBeHeldWeakly_object] at hv ⊢
    exact hext.isValid hv
  | symbol s =>
    obtain ⟨sym, hs, hr⟩ := canBeHeldWeakly_symbol_iff.mp hv
    exact canBeHeldWeakly_symbol_iff.mpr ⟨sym, hext.symbol hs, hr⟩
  | _ => cases hv

end Extends

/-! ## Changes of a heap -/

/-- A new slot leaves the slots there are as they were. -/
theorem getElem?_push_of_some {α : Type} {slots : Array α} {i : Nat} {s : α}
    (hs : slots[i]? = some s) (new : α) : (slots.push new)[i]? = some s := by
  obtain ⟨hlt, -⟩ := Array.getElem?_eq_some_iff.mp hs
  rw [Array.getElem?_push, if_neg (by omega), hs]

/-- A heap that keeps its slots and gets more extends what it was. -/
theorem extends_of_slots (hslots : ∀ {i : Nat} {s}, h.slots[i]? = some s → h'.slots[i]? = some s) :
    h.Extends h' where
  builtin? hk := by
    obtain ⟨o, ho, hk⟩ := builtin?_eq_some_iff.mp hk
    exact builtin?_eq_some_iff.mpr ⟨o, object_eq_ok_iff.mpr (hslots (object_eq_ok_iff.mp ho)), hk⟩
  symbol hs := symbol_eq_ok_iff.mpr (hslots (symbol_eq_ok_iff.mp hs))

theorem extends_alloc (h : Heap) (prototype? : Option ObjectRef) (kind : ObjectKind) :
    h.Extends (h.alloc prototype? kind).2 :=
  extends_of_slots fun hs => getElem?_push_of_some hs _

theorem extends_allocSymbol (h : Heap) (description? : Option String) (registered : Bool) :
    h.Extends (h.allocSymbol description? registered).2 :=
  extends_of_slots fun hs => getElem?_push_of_some hs _

theorem extends_symbolFor (h : Heap) (key : String) : h.Extends (h.symbolFor key).2 := by
  unfold symbolFor
  split
  · exact .refl h
  · exact extends_of_slots fun hs => getElem?_push_of_some hs _

/-- A change of an object leaves the symbols as they were. -/
theorem symbol_update {α : Type} (h : Heap) (ref : ObjectRef) (change : Object → α × Object)
    (s : SymbolRef) : (h.update ref change).2.symbol s = h.symbol s := by
  cases ho : h.object ref with
  | error cause => rw [update_of_object_eq_error ho]
  | ok o =>
    have hslot := object_eq_ok_iff.mp ho
    by_cases heq : ref.slot = s.slot
    · rw [heq] at hslot
      obtain ⟨hlt, -⟩ := Array.getElem?_eq_some_iff.mp hslot
      simp only [update, ho, symbol, heq, hslot, Array.getElem?_setIfInBounds_self_of_lt hlt]
    · simp [update, ho, symbol, Array.getElem?_setIfInBounds_ne heq]

/-- The object that was changed. -/
theorem object_update_of_object {α : Type} (ho : h.object ref = .ok o)
    (change : Object → α × Object) : (h.update ref change).2.object ref = .ok (change o).2 := by
  have hu : h.update ref change = (.ok (change o).1, (h.update ref change).2) := by
    simp only [update, ho]
  exact (object_update_self ho hu).1

/-- The objects after a change of one of them. -/
theorem object_update_eq_ok {α : Type} {change : Object → α × Object} {other : ObjectRef}
    {o' : Object} (ho' : (h.update ref change).2.object other = .ok o') :
    h.object other = .ok o' ∨ ∃ o, h.object ref = .ok o ∧ o' = (change o).2 := by
  by_cases hne : other = ref
  · subst hne
    cases ho : h.object other with
    | error cause =>
      rw [update_of_object_eq_error ho, ho] at ho'
      cases ho'
    | ok o =>
      rw [object_update_of_object ho] at ho'
      exact .inr ⟨o, rfl, (Except.ok.inj ho').symm⟩
  · rw [object_update_of_ne h change hne] at ho'
    exact .inl ho'

/-- A change that keeps the kind of an object keeps all kinds. -/
theorem extends_update {α : Type} {change : Object → α × Object}
    (hchange : ∀ {o}, h.object ref = .ok o → (change o).2.kind.builtin = o.kind.builtin) :
    h.Extends (h.update ref change).2 where
  symbol hs := by rwa [symbol_update]
  builtin? {other k} hk := by
    obtain ⟨o, ho, rfl⟩ := builtin?_eq_some_iff.mp hk
    by_cases hne : other = ref
    · subst hne
      rw [builtin?_of_object (object_update_of_object ho change), hchange ho]
    · exact builtin?_of_object (by rwa [object_update_of_ne h change hne])

/-! ## Internal slots that stay -/

/-- Every object of a kind keeps its internal slots. -/
structure KeepsSlots (b : BuiltinKind) (h h' : Heap) : Prop where
  kept : ∀ {ref k}, h.kind ref = .ok k → k.builtin = b → h'.kind ref = .ok k

namespace KeepsSlots

variable {b : BuiltinKind}

theorem refl (h : Heap) : KeepsSlots b h h := ⟨fun hk _ => hk⟩

theorem trans (hkeeps : KeepsSlots b h h') (hkeeps' : KeepsSlots b h' h'') : KeepsSlots b h h'' :=
  ⟨fun hk hb => hkeeps'.kept (hkeeps.kept hk hb) hb⟩

/-- A new slot. -/
theorem push {slot : Slot} {registry : List (String × SymbolRef)} :
    KeepsSlots b h { slots := h.slots.push slot, registry } where
  kept hk _ := by
    obtain ⟨o, ho, hk⟩ := kind_eq_ok_iff.mp hk
    exact kind_eq_ok_iff.mpr
      ⟨o, object_eq_ok_iff.mpr (getElem?_push_of_some (object_eq_ok_iff.mp ho) _), hk⟩

/-- A change of an object that leaves its internal slots if it is of the kind. -/
theorem update {α : Type} {change : Object → α × Object}
    (hchange : ∀ {o}, h.object ref = .ok o → o.kind.builtin = b → (change o).2.kind = o.kind) :
    KeepsSlots b h (h.update ref change).2 where
  kept {other _} hk hb := by
    by_cases hne : other = ref
    · subst hne
      obtain ⟨o, ho, rfl⟩ := kind_eq_ok_iff.mp hk
      exact kind_eq_ok_iff.mpr ⟨_, object_update_of_object ho change, hchange ho hb⟩
    · rw [kind, object_update_of_ne h change hne]
      exact hk

/-- Other internal slots for an object of another kind. -/
theorem setKind {old k : ObjectKind} (hold : h.kind ref = .ok old) (hne : old.builtin ≠ b) :
    KeepsSlots b h (h.update ref fun o => ((), { o with kind := k })).2 := by
  refine update fun ho hb => ?_
  rw [kind_of_object ho] at hold
  exact absurd (Except.ok.inj hold ▸ hb) hne

end KeepsSlots
end Heap
end Retention
