import Retention.Proofs.Heap.Extension
import Retention.Realm.Intrinsic

/-!
# Promises in a heap

What a heap says about promises is the slots of each of them. A change of the
heap leaves its promises alone if each keeps its slots, and those that come
into being have slots that are allowed (`Heap.LeavesPromises`).

* `Heap.promiseSlots?`, `Heap.withPromise`: the slots of a promise.
* `leavesPromises_alloc`, `leavesPromises_update`, …: changes that leave
  promises alone.
-/

namespace Retention.Heap

variable {h h' h'' : Heap} {ref other : ObjectRef} {slots slots' : PromiseSlots}

/-- The slots of the promise that a reference leads to. -/
def promiseSlots? (h : Heap) (ref : ObjectRef) : Option PromiseSlots :=
  match h.kind ref with
  | .ok (.promise slots) => some slots
  | _ => none

theorem promiseSlots?_of_kind (hk : h.kind ref = .ok (.promise slots)) :
    h.promiseSlots? ref = some slots := by
  rw [promiseSlots?, hk]

theorem promiseSlots?_of_kind_ne {k : ObjectKind} (hk : h.kind ref = .ok k)
    (hne : k.builtin ≠ .promise) : h.promiseSlots? ref = none := by
  rw [promiseSlots?, hk]
  cases k <;> first | rfl | exact absurd rfl hne

theorem promiseSlots?_eq_some_iff :
    h.promiseSlots? ref = some slots ↔ ∃ o, h.object ref = .ok o ∧ o.kind = .promise slots := by
  rw [← kind_eq_ok_iff]
  unfold promiseSlots?
  split <;> simp_all

theorem kind_of_promiseSlots? (hs : h.promiseSlots? ref = some slots) :
    h.kind ref = .ok (.promise slots) := by
  obtain ⟨o, ho, hk⟩ := promiseSlots?_eq_some_iff.mp hs
  rw [kind_of_object ho, hk]

/-- The result of a promise. -/
def promiseResult (h : Heap) (ref : ObjectRef) : Value :=
  (h.promiseSlots? ref).elim .undefined PromiseSlots.result

theorem promiseSlots?_congr (ho : h'.object ref = h.object ref) :
    h'.promiseSlots? ref = h.promiseSlots? ref := by
  rw [promiseSlots?, promiseSlots?, kind, kind, ho]

/-- The heap in which a promise has the given slots. -/
def withPromise (h : Heap) (ref : ObjectRef) (slots : PromiseSlots) : Heap :=
  (h.update ref fun o => ((), { o with kind := .promise slots })).2

theorem withPromise_of_object {o : Object} (ho : h.object ref = .ok o) (slots : PromiseSlots) :
    h.withPromise ref slots =
      { h with
        slots := h.slots.setIfInBounds ref.slot (.object { o with kind := .promise slots }) } := by
  simp only [withPromise, update, ho]

theorem promiseSlots?_withPromise_self (hs : h.promiseSlots? ref = some slots)
    (slots' : PromiseSlots) : (h.withPromise ref slots').promiseSlots? ref = some slots' := by
  obtain ⟨o, ho, -⟩ := promiseSlots?_eq_some_iff.mp hs
  exact promiseSlots?_eq_some_iff.mpr ⟨_, object_update_of_object ho _, rfl⟩

theorem promiseSlots?_withPromise_of_ne (hne : other ≠ ref) (slots : PromiseSlots) :
    (h.withPromise ref slots).promiseSlots? other = h.promiseSlots? other :=
  promiseSlots?_congr (object_update_of_ne h _ hne)

/-- Of two changes of a promise, the second counts. -/
theorem withPromise_withPromise (h : Heap) (ref : ObjectRef) (slots slots' : PromiseSlots) :
    (h.withPromise ref slots).withPromise ref slots' = h.withPromise ref slots' := by
  cases ho : h.object ref with
  | error cause => simp only [withPromise, update, ho]
  | ok o =>
    have ho' : (h.withPromise ref slots).object ref = .ok { o with kind := .promise slots } :=
      object_update_of_object ho _
    rw [withPromise_of_object ho', withPromise_of_object ho, withPromise_of_object ho]
    simp only [Array.setIfInBounds_setIfInBounds]

/-- A fresh heap has no promises. -/
theorem promiseSlots?_initial (ref : ObjectRef) : initial.promiseSlots? ref = none := by
  by_cases hlt : ref.slot < initial.size
  · have hslots : ∀ i : Fin initial.size, initial.promiseSlots? ⟨i⟩ = none := by decide
    exact hslots ⟨ref.slot, hlt⟩
  · rw [promiseSlots?, kind, object, Array.getElem?_eq_none (Nat.le_of_not_lt hlt)]
    rfl

/-! ## Allocation -/

theorem promiseSlots?_alloc (hs : h.promiseSlots? ref = some slots)
    (prototype? : Option ObjectRef) (kind : ObjectKind) :
    (h.alloc prototype? kind).2.promiseSlots? ref = some slots := by
  obtain ⟨o, ho, hk⟩ := promiseSlots?_eq_some_iff.mp hs
  exact promiseSlots?_eq_some_iff.mpr ⟨o, object_alloc_of_object ho .., hk⟩

/-- The promise that is made. -/
theorem promiseSlots?_alloc_self (h : Heap) (prototype? : Option ObjectRef)
    (slots : PromiseSlots) :
    (h.alloc prototype? (.promise slots)).2.promiseSlots? ⟨h.size⟩ = some slots :=
  promiseSlots?_eq_some_iff.mpr ⟨_, object_alloc_self h prototype? (.promise slots), rfl⟩

/-- Nothing is where the next object will be. -/
theorem promiseSlots?_size (h : Heap) : h.promiseSlots? ⟨h.size⟩ = none := by
  rw [promiseSlots?, kind, object, size, Array.getElem?_eq_none (Nat.le_refl _)]
  rfl

/-- A change of a promise makes no slots. -/
theorem size_withPromise (h : Heap) (ref : ObjectRef) (slots : PromiseSlots) :
    (h.withPromise ref slots).size = h.size :=
  size_update ..

/-- A slot that is there can be changed before or after another is added. -/
theorem push_setIfInBounds {slots : Array Slot} {i : Nat} (hlt : i < slots.size) (s s' : Slot) :
    (slots.setIfInBounds i s).push s' = (slots.push s').setIfInBounds i s := by
  have hlt' : i < (slots.push s').size := by
    rw [Array.size_push]
    exact Nat.lt_succ_of_lt hlt
  rw [Array.setIfInBounds, dif_pos hlt, Array.setIfInBounds, dif_pos hlt', Array.set_push,
    dif_pos hlt]

/-- An allocation before or after a change of a promise is the same. -/
theorem alloc_withPromise (hs : h.promiseSlots? ref = some slots) (slots' : PromiseSlots)
    (prototype? : Option ObjectRef) (kind : ObjectKind) :
    ((h.withPromise ref slots').alloc prototype? kind).2 =
      (h.alloc prototype? kind).2.withPromise ref slots' := by
  obtain ⟨o, ho, -⟩ := promiseSlots?_eq_some_iff.mp hs
  obtain ⟨hlt, -⟩ := Array.getElem?_eq_some_iff.mp (object_eq_ok_iff.mp ho)
  rw [withPromise_of_object (object_alloc_of_object ho ..), withPromise_of_object ho]
  simp only [alloc, push_setIfInBounds hlt]

/-- Whether a value can be called does not depend on the slots of a promise. -/
theorem callable?_withPromise (hs : h.promiseSlots? ref = some slots) (slots' : PromiseSlots)
    (v : Value) : (h.withPromise ref slots').callable? v = h.callable? v := by
  obtain ⟨o, ho, hk⟩ := promiseSlots?_eq_some_iff.mp hs
  have hcallable : (h.withPromise ref slots').isCallable v = h.isCallable v := by
    cases v with
    | object other =>
      by_cases hne : other = ref
      · subst hne
        have ho' : (h.withPromise other slots').object other =
            .ok { o with kind := .promise slots' } :=
          object_update_of_object ho _
        rw [isCallable_object ho, isCallable_object ho', hk]
        rfl
      · simp only [isCallable, kind, withPromise, object_update_of_ne h _ hne]
    | _ => rfl
  rw [callable?, callable?, hcallable]

/-- A promise is no function. -/
theorem callable?_alloc_promise (h : Heap) (prototype? : Option ObjectRef) (slots : PromiseSlots)
    (v : Value) : (h.alloc prototype? (.promise slots)).2.callable? v = h.callable? v := by
  have hcallable : (h.alloc prototype? (.promise slots)).2.isCallable v = true ↔
      h.isCallable v = true := by
    rw [isCallable_iff, isCallable_iff]
    constructor
    · rintro ⟨ref, o, rfl, ho, hcallable⟩
      have hslots := object_eq_ok_iff.mp ho
      simp only [alloc, Array.getElem?_push] at hslots
      split at hslots
      · cases hslots
        cases hcallable
      · exact ⟨ref, o, rfl, object_eq_ok_iff.mpr hslots, hcallable⟩
    · rintro ⟨ref, o, rfl, ho, hcallable⟩
      exact ⟨ref, o, rfl, object_alloc_of_object ho .., hcallable⟩
  rw [callable?, callable?, Bool.eq_iff_iff.mpr hcallable]

/-! ## Changes that leave promises alone -/

/-- Every promise keeps its slots, and a promise that comes into being has slots
that are allowed. -/
structure LeavesPromises (fresh : PromiseSlots → Prop) (h h' : Heap) : Prop where
  kept : ∀ {ref slots}, h.promiseSlots? ref = some slots → h'.promiseSlots? ref = some slots
  new : ∀ {ref slots}, h'.promiseSlots? ref = some slots →
    h.promiseSlots? ref = some slots ∨ fresh slots

variable {fresh : PromiseSlots → Prop}

namespace LeavesPromises

theorem refl (h : Heap) : h.LeavesPromises fresh h := ⟨id, .inl⟩

theorem trans (hleaves : h.LeavesPromises fresh h') (hleaves' : h'.LeavesPromises fresh h'') :
    h.LeavesPromises fresh h'' where
  kept hs := hleaves'.kept (hleaves.kept hs)
  new hs := (hleaves'.new hs).elim hleaves.new .inr

/-- No promise changes, and none comes into being. -/
theorem of_eq (heq : ∀ ref, h'.promiseSlots? ref = h.promiseSlots? ref) :
    h.LeavesPromises fresh h' :=
  ⟨fun hs => (heq _).trans hs, fun hs => .inl ((heq _).symm.trans hs)⟩

end LeavesPromises

/-- A change of an object that keeps its internal slots. -/
theorem leavesPromises_update {α : Type} {change : Object → α × Object}
    (hchange : ∀ o, (change o).2.kind = o.kind) :
    h.LeavesPromises fresh (h.update ref change).2 := by
  refine .of_eq fun other => ?_
  by_cases hne : other = ref
  · subst hne
    cases ho : h.object other with
    | error cause => rw [update_of_object_eq_error ho]
    | ok o =>
      rw [promiseSlots?, promiseSlots?, kind_of_object ho,
        kind_of_object (object_update_of_object ho change), hchange]
  · exact promiseSlots?_congr (object_update_of_ne h change hne)

/-- Other internal slots for an object that is no promise. -/
theorem leavesPromises_setKind (hs : h.promiseSlots? ref = none) {k : ObjectKind}
    (hk : k.builtin ≠ .promise) :
    h.LeavesPromises fresh (h.update ref fun o => ((), { o with kind := k })).2 := by
  refine .of_eq fun other => ?_
  by_cases hne : other = ref
  · subst hne
    cases ho : h.object other with
    | error cause => rw [update_of_object_eq_error ho]
    | ok o =>
      rw [hs, promiseSlots?_of_kind_ne (kind_of_object (object_update_of_object ho _)) hk]
  · exact promiseSlots?_congr (object_update_of_ne h _ hne)

/-- A new slot. If it is a promise, its internal slots are allowed. -/
theorem leavesPromises_push {slot : Slot} {registry : List (String × SymbolRef)}
    (hslot : ∀ o slots, slot = .object o → o.kind = .promise slots → fresh slots) :
    h.LeavesPromises fresh { slots := h.slots.push slot, registry } where
  kept hs := by
    obtain ⟨o, ho, hk⟩ := promiseSlots?_eq_some_iff.mp hs
    exact promiseSlots?_eq_some_iff.mpr
      ⟨o, object_eq_ok_iff.mpr (getElem?_push_of_some (object_eq_ok_iff.mp ho) _), hk⟩
  new {ref slots} hs := by
    obtain ⟨o, ho, hk⟩ := promiseSlots?_eq_some_iff.mp hs
    have hslots := object_eq_ok_iff.mp ho
    rw [Array.getElem?_push] at hslots
    split at hslots
    · exact .inr (hslot o slots (Option.some.inj hslots) hk)
    · exact .inl (promiseSlots?_eq_some_iff.mpr ⟨o, object_eq_ok_iff.mpr hslots, hk⟩)

theorem leavesPromises_alloc {prototype? : Option ObjectRef} {kind : ObjectKind}
    (hkind : ∀ slots, kind = .promise slots → fresh slots) :
    h.LeavesPromises fresh (h.alloc prototype? kind).2 := by
  refine leavesPromises_push fun o slots heq hk => hkind slots ?_
  cases heq
  exact hk

end Retention.Heap
