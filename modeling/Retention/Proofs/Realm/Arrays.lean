import Retention.Proofs.Realm.Rewriting

/-!
# Arrays of a realm

A new array has a length above its elements, and whatever is written, deleted or
defined afterwards, it keeps one (`Realm.hasArray_after`), as long as its `length` is
not defined by hand (`Effect.Rewrites`). What such an array looks like is said once
(`Heap.IsArray`).

* `Object.Sized.rewritten`: effects that write, delete and define properties.
* `Realm.isArray_after`: a new array, after any number of such effects.
-/

namespace Retention

/-! ## What an array looks like -/

namespace Heap

variable {h : Heap} {ref : ObjectRef} {o : Object} {n : Nat}

/-- An array of the given length: it has one property for it, and every element lies
below it. -/
structure IsArray (h : Heap) (ref : ObjectRef) (o : Object) (n : Nat) : Prop where
  found : h.object ref = .ok o
  kind : o.kind = .array
  distinct : (o.properties.map Property.key).Nodup
  length : ∃ p, (∀ q, q ∈ o.properties ∧ q.key = .length ↔ q = p) ∧
    p.value = .number (.ofNat n) ∧ p.configurable = false
  integer : (Number.ofNat n).toInt? = some (n : Int)
  le : n ≤ arrayIndexLimit
  lt : ∀ p ∈ o.properties, ∀ i, p.key.arrayIndex? = some i → i < n
  elements : ∃ elements : List (Nat × Property),
    elements.Pairwise (fun a b => a.1 < b.1) ∧
    (∀ i p, (i, p) ∈ elements ↔ p ∈ o.properties ∧ p.key.arrayIndex? = some i) ∧
    h.arrayElements ref = .ok (elements.map (·.2.value))

theorem isArray_of_sized (ho : h.object ref = .ok o) (hs : o.Sized n) : h.IsArray ref o n where
  found := ho
  kind := by
    have harray := hs.array
    unfold Object.isArray at harray
    cases hk : o.kind with
    | array => rfl
    | _ =>
      rw [hk] at harray
      cases harray
  distinct := hs.properties.distinct
  length := by
    obtain ⟨p, hp, hvalue, hfixed⟩ := hs.properties.lookup_length
    refine ⟨p, fun q => ?_, hvalue, hfixed⟩
    rw [← Properties.lookup_eq_some_iff hs.properties.distinct, hp, Option.some.injEq, eq_comm]
  integer := Number.toInt?_ofNat (Properties.lt_two_pow_of_le hs.properties.le)
  le := hs.properties.le
  lt := hs.properties.lt
  elements := ⟨_, Properties.pairwise_sortedElements hs.properties.distinct,
    fun _ _ => Properties.mem_sortedElements_iff, arrayElements_of_sized ho hs⟩

/-- A reference leads to an array that keeps its length above its elements. -/
def HasArray (h : Heap) (ref : ObjectRef) : Prop := ∃ o n, h.object ref = .ok o ∧ o.Sized n

end Heap

/-! ## Effects -/

/-- Effects that set lengths, and write, delete and define properties other than
`length`. -/
def Effect.Rewrites : Effect → Prop
  | .heapSet .. | .heapDelete .. | .set .. | .delete .. => True
  | .setArrayLength _ length => length ≤ arrayIndexLimit
  | .define _ property => property.key ≠ .length
  | _ => False

theorem Effect.Rewrites.isSome_rewrite? {e : Effect} (he : e.Rewrites) :
    e.rewrite?.isSome = true := by
  cases e <;> first | rfl | exact he.elim

namespace Object

variable {ref : ObjectRef} {o : Object} {n : Nat}

/-- An array keeps its length above its elements. -/
theorem Sized.rewritten (hs : o.Sized n) {e : Effect} (he : e.Rewrites) (ref : ObjectRef) :
    ∃ m, (e.rewritten ref o).Sized m := by
  refine Effect.rewritten_of_change (P := fun o => ∃ m, o.Sized m) ⟨n, hs⟩ fun change hchange => ?_
  cases e with
  | heapSet target key value | set target key value =>
    cases hchange
    exact hs.set key value
  | heapDelete target key | delete target key =>
    cases hchange
    exact hs.delete key
  | setArrayLength target length =>
    cases hchange
    exact hs.setLength he
  | define target property =>
    cases hchange
    exact hs.define he
  | _ => exact he.elim

theorem Sized.foldl_rewritten (hs : o.Sized n) {effects : List Effect}
    (heffects : ∀ e ∈ effects, e.Rewrites) (ref : ObjectRef) :
    ∃ m, (effects.foldl (Effect.rewritten ref) o).Sized m := by
  refine List.foldlRecOn effects _ (motive := fun (o : Object) => ∃ m, o.Sized m) ⟨n, hs⟩ ?_
  rintro o' ⟨m, hm⟩ e he
  exact hm.rewritten (heffects e he) ref

end Object

namespace Realm

variable {r : Realm} {ref : ObjectRef}

/-- Whatever is written, deleted and defined, an array keeps its length above its
elements. -/
theorem hasArray_after (hr : r.heap.HasArray ref) {effects : List Effect}
    (heffects : ∀ e ∈ effects, e.Rewrites) : (r.after effects).heap.HasArray ref := by
  obtain ⟨o, n, ho, hs⟩ := hr
  obtain ⟨m, hm⟩ := hs.foldl_rewritten heffects ref
  exact ⟨_, m, object_after ho fun e he => (heffects e he).isSome_rewrite?, hm⟩

/-- A new array has a length above its elements. -/
theorem exec_newArray (elements : List Value) (r : Realm) :
    (exec (newArray elements) r).1 = .ok ⟨r.heap.size⟩ ∧
      (exec (newArray elements) r).2.heap.HasArray ⟨r.heap.size⟩ := by
  have halloc : exec (allocOf .array .array) r = (.ok ⟨r.heap.size⟩,
      { r with heap := (r.heap.alloc (some Intrinsic.array.ref) .array).2 }) := rfl
  have hempty : (r.heap.alloc (some Intrinsic.array.ref) .array).2.object ⟨r.heap.size⟩ =
      .ok { prototype? := some Intrinsic.array.ref, kind := .array } := Heap.object_alloc_self ..
  obtain ⟨n, hn⟩ := Object.sized_arrayOf
    { prototype? := some Intrinsic.array.ref, kind := .array } rfl rfl elements
  rw [newArray, exec_bind_of_ok halloc, exec_changeHeap]
  refine ⟨?_, _, n, Heap.object_update_of_object hempty _, hn⟩
  simp only [Heap.update_of_object hempty]

/-- An array that was made in any realm, after anything was written to it, deleted from
it or defined of it. -/
theorem isArray_after (elements : List Value) (r : Realm) {effects : List Effect}
    (heffects : ∀ e ∈ effects, e.Rewrites) :
    ∃ ref o n, (exec (newArray elements) r).1 = .ok ref ∧
      ((exec (newArray elements) r).2.after effects).heap.IsArray ref o n := by
  obtain ⟨hnew, harray⟩ := exec_newArray elements r
  obtain ⟨o, n, ho, hs⟩ := hasArray_after harray heffects
  exact ⟨_, o, n, hnew, Heap.isArray_of_sized ho hs⟩

/-- Writes at the top of the range: the last index that there is, which cannot be
deleted, then lengths that are too short for it, and one that is too long. -/
def topWrites (ref : ObjectRef) : List Effect :=
  [.define ref { key := .ofIndex 4294967294, value := .null, configurable := false },
    .set ref .length (.number (.ofNat 1)), .heapDelete ref .length, .setArrayLength ref 0,
    .set ref .length (.number (.ofNat 4294967296)), .heapSet ref (.ofIndex 4294967295) .null]

theorem isArray_after_topWrites :
    ∃ ref o n, (exec (newArray [.null]) {}).1 = .ok ref ∧
      ((exec (newArray [.null]) {}).2.after (topWrites ⟨Heap.initial.size⟩)).heap.IsArray
        ref o n := by
  refine isArray_after [.null] {} fun e he => ?_
  simp only [topWrites, List.mem_cons, List.not_mem_nil, or_false] at he
  rcases he with rfl | rfl | rfl | rfl | rfl | rfl
  · exact PropertyKey.ofIndex_ne_length 4294967294
  · trivial
  · trivial
  · exact Nat.zero_le _
  · trivial
  · trivial

end Realm
end Retention
