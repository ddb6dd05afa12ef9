import Retention.Proofs.Realm.Refusing

/-!
# Effects that rewrite an object

Effects that write, delete and define properties change one object, and each of them
changes it in one way, whether the effect throws or not (`Effect.rewrite?`). So what any
number of them make of an object is computed from the object alone.

* `ChangesObject.update`, `changeOrThrow`, `set`: operations that change one object.
* `ChangesObject.run`, `Realm.object_after`: one effect, and any number of them.
-/

namespace Retention

/-! ## What effects change -/

namespace Effect

/-- The object that an effect rewrites, and what becomes of it. -/
def rewrite? : Effect → Option (ObjectRef × (Object → Object))
  | heapSet ref key value | set ref key value => some (ref, fun o => (o.set key value).2)
  | heapDelete ref key | delete ref key => some (ref, fun o => (o.delete key).2)
  | setArrayLength ref length => some (ref, fun o => (o.setLength length).2)
  | define ref property => some (ref, (·.define property))
  | _ => none

/-- What an effect makes of the object under a reference. -/
def rewritten (ref : ObjectRef) (o : Object) (e : Effect) : Object :=
  match e.rewrite? with
  | some (target, change) => if target = ref then change o else o
  | none => o

/-- What holds of an object, and of what the effect makes of it, if it rewrites that object. -/
theorem rewritten_of_change {P : Object → Prop} {ref : ObjectRef} {o : Object} {e : Effect}
    (ho : P o) (hchange : ∀ change, e.rewrite? = some (ref, change) → P (change o)) :
    P (e.rewritten ref o) := by
  unfold rewritten
  split
  · rename_i target change he
    split
    · rename_i heq
      exact hchange change (heq ▸ he)
    · exact ho
  · exact ho

end Effect

/-- A value that is no length is not written to an array's `length`. -/
theorem Object.set_of_arrayLength?_eq_none {o : Object} {key : PropertyKey} {value : Value}
    (harray : o.isArray = true) (hkey : (key == .length) = true)
    (hvalue : arrayLength? value = none) : o.set key value = (false, o) := by
  simp only [set, harray, hkey, hvalue, Bool.and_self, if_true]

namespace Realm

variable {α β : Type} {r : Realm} {ref target : ObjectRef} {o : Object}

/-! ## Operations -/

/-- An operation leaves the objects there are as they were, whether it throws or not. -/
def KeepsObjects (m : RealmM α) : Prop :=
  ∀ (r : Realm) (ref : ObjectRef) (o : Object), r.heap.object ref = .ok o →
    (exec m r).2.heap.object ref = .ok o

/-- An operation changes one object, whether it throws or not. -/
def ChangesObject (m : RealmM α) (target : ObjectRef) (change : Object → Object) : Prop :=
  ∀ (r : Realm) (ref : ObjectRef) (o : Object), r.heap.object ref = .ok o →
    (exec m r).2.heap.object ref = .ok (if target = ref then change o else o)

theorem KeepsObjects.pure (a : α) : KeepsObjects (Pure.pure a : RealmM α) := fun _ _ _ => id

/-- An error is a new object. -/
theorem object_withError (ho : r.heap.object ref = .ok o) (prototype : ObjectRef)
    (message : String) : (r.withError prototype message).heap.object ref = .ok o :=
  Heap.object_eq_ok_iff.mpr (Heap.getElem?_push_of_some (Heap.object_eq_ok_iff.mp ho) _)

theorem KeepsObjects.throwTypeError (message : String) :
    KeepsObjects (throwTypeError message : RealmM α) := fun r ref o ho => by
  rw [exec_throwTypeError_eq]
  exact object_withError ho _ message

namespace ChangesObject

variable {m : RealmM α} {f : α → RealmM β} {change : Object → Object}

theorem bind (hm : ChangesObject m target change) (hf : ∀ a, KeepsObjects (f a)) :
    ChangesObject (m >>= f) target change := by
  intro r ref o ho
  have hm' := hm r ref o ho
  rw [exec_bind]
  cases he : exec m r with
  | mk outcome r' =>
    rw [he] at hm'
    cases outcome with
    | ok a => exact hf a r' ref _ hm'
    | error cause => exact hm'

theorem map (hm : ChangesObject m target change) (f : α → β) :
    ChangesObject (f <$> m) target change := by
  rw [← bind_pure_comp]
  exact hm.bind fun a => .pure (f a)

theorem update (target : ObjectRef) (change : Object → α × Object) :
    ChangesObject (changeHeap (·.update target change)) target fun o => (change o).2 := by
  intro r ref o ho
  rw [exec_changeHeap]
  split
  · rename_i heq
    subst heq
    exact Heap.object_update_of_object ho change
  · rename_i hne
    exact (Heap.object_update_of_ne r.heap change (Ne.symm hne)).trans ho

theorem changeOrThrow (target : ObjectRef) (change : Object → Bool × Object) (message : String) :
    ChangesObject
      (do if !(← changeHeap (·.update target change)) then Realm.throwTypeError message)
      target fun o => (change o).2 := by
  refine (update target change).bind fun b => ?_
  split
  · exact .throwTypeError message
  · exact .pure ()

/-- A length that an assignment throws at is none that is written. -/
theorem set (target : ObjectRef) (key : PropertyKey) (value : Value) :
    ChangesObject (set target key value) target fun o => (o.set key value).2 := by
  intro r ref o ho
  unfold Realm.set
  rw [exec_bind, exec_kind]
  cases hkind : r.heap.kind target with
  | error cause =>
    -- nothing is under the target, so the object is another one
    have hne : target ≠ ref := fun heq => by
      rw [heq, Heap.kind_of_object ho] at hkind
      cases hkind
    rw [if_neg hne]
    exact ho
  | ok k =>
    dsimp only
    split
    · -- the error is a new object, and the array would have refused the value
      rename_i hthrows
      rw [exec_bind, exec_throwRangeError_eq]
      have hsame : (if target = ref then (o.set key value).2 else o) = o := by
        split
        · rename_i heq
          subst heq
          rw [Bool.and_eq_true, Bool.and_eq_true] at hthrows
          obtain ⟨⟨harray, hkey⟩, hnone⟩ := hthrows
          obtain rfl := Except.ok.inj ((Heap.kind_of_object ho).symm.trans hkind)
          rw [Object.set_of_arrayLength?_eq_none harray hkey (Option.isNone_iff_eq_none.mp hnone)]
        · rfl
      rw [hsame]
      exact object_withError ho _ _
    · exact changeOrThrow target (·.set key value) _ r ref o ho

theorem delete (target : ObjectRef) (key : PropertyKey) :
    ChangesObject (delete target key) target fun o => (o.delete key).2 :=
  changeOrThrow target (·.delete key) _

/-- An effect that rewrites an object. -/
theorem run {e : Effect} (he : e.rewrite? = some (target, change)) :
    ChangesObject e.run target change := by
  cases e with
  | heapSet ref key value =>
    obtain ⟨rfl, rfl⟩ := Prod.mk.inj (Option.some.inj he)
    exact (update ref (·.set key value)).map _
  | heapDelete ref key =>
    obtain ⟨rfl, rfl⟩ := Prod.mk.inj (Option.some.inj he)
    exact (update ref (·.delete key)).map _
  | set ref key value =>
    obtain ⟨rfl, rfl⟩ := Prod.mk.inj (Option.some.inj he)
    exact (set ref key value).bind fun _ => .pure _
  | delete ref key =>
    obtain ⟨rfl, rfl⟩ := Prod.mk.inj (Option.some.inj he)
    exact (delete ref key).bind fun _ => .pure _
  | setArrayLength ref length =>
    obtain ⟨rfl, rfl⟩ := Prod.mk.inj (Option.some.inj he)
    exact (update ref (·.setLength length)).map _
  | define ref property =>
    obtain ⟨rfl, rfl⟩ := Prod.mk.inj (Option.some.inj he)
    exact (update ref fun o => ((), o.define property)).bind fun _ => .pure _
  | _ => cases he

end ChangesObject

/-! ## Effects one after the other -/

theorem object_run {e : Effect} (he : e.rewrite?.isSome = true) (ho : r.heap.object ref = .ok o) :
    (exec e.run r).2.heap.object ref = .ok (e.rewritten ref o) := by
  obtain ⟨⟨target, change⟩, hchange⟩ := Option.isSome_iff_exists.mp he
  rw [Effect.rewritten, hchange]
  exact ChangesObject.run hchange r ref o ho

/-- The realm after some effects, each of which may throw. -/
def after (r : Realm) (effects : List Effect) : Realm :=
  effects.foldl (fun r e => (exec e.run r).2) r

/-- What effects make of an object. -/
theorem object_after (ho : r.heap.object ref = .ok o) {effects : List Effect}
    (heffects : ∀ e ∈ effects, e.rewrite?.isSome = true) :
    (r.after effects).heap.object ref = .ok (effects.foldl (Effect.rewritten ref) o) := by
  induction effects generalizing r o with
  | nil => exact ho
  | cons e rest ih =>
    exact ih (object_run (heffects e List.mem_cons_self) ho) fun e' he' =>
      heffects e' (List.mem_cons_of_mem e he')

end Realm
end Retention
