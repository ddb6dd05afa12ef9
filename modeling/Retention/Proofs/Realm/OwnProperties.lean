import Retention.Proofs.Heap.OrderedMap
import Retention.Proofs.Realm.Rewriting

/-!
# Own properties in a realm

Whatever is defined, written and deleted of an object that is no array, from an empty table
on, a guest is answered as by an ordered map, reads from it what the map has, and lists its
keys in the order of the map (`Realm.Shows`). The rest of the realm stays as it is.

* `Realm.exec_effect`: one call.
* `Realm.holds_after`: any number of calls, on an object that holds a map.
* `Realm.shows_after`: any number of calls, on an object without properties.
-/

namespace Retention

/-- The effect that a call on an object is. -/
def PropertyCall.effect (ref : ObjectRef) : PropertyCall → Effect
  | define p => .define ref p
  | set key value => .heapSet ref key value
  | delete key => .heapDelete ref key

namespace Realm

variable {r : Realm} {ref : ObjectRef} {o : Object} {m : PropertyMap}

/-! ## The realm after a call -/

/-- The realm with another object under a reference. -/
def withObject (r : Realm) (ref : ObjectRef) (o : Object) : Realm :=
  { r with heap := { r.heap with slots := r.heap.slots.setIfInBounds ref.slot (.object o) } }

theorem object_withObject_self (ho : r.heap.object ref = .ok o) (o' : Object) :
    (r.withObject ref o').heap.object ref = .ok o' := by
  have hupdate := Heap.object_update_of_object ho fun _ => ((), o')
  rwa [Heap.update_of_object ho] at hupdate

theorem withObject_self (ho : r.heap.object ref = .ok o) : r.withObject ref o = r := by
  have hsame := (Heap.update_of_object ho fun o => ((), o)).symm.trans (Heap.update_of_same ho rfl)
  exact congrArg (fun heap => { r with heap }) (congrArg Prod.snd hsame)

theorem withObject_withObject (o o' : Object) :
    (r.withObject ref o).withObject ref o' = r.withObject ref o' := by
  simp [withObject]

theorem exec_update {α : Type} (ho : r.heap.object ref = .ok o) (change : Object → α × Object) :
    exec (changeHeap (·.update ref change)) r =
      (.ok (change o).1, r.withObject ref (change o).2) := by
  rw [exec_changeHeap, Heap.update_of_object ho]
  rfl

theorem exec_effect (ho : r.heap.object ref = .ok o) (call : PropertyCall) :
    exec (call.effect ref).run r = (.ok (o.reply call).1, r.withObject ref (o.reply call).2) := by
  cases call with
  | define p => exact exec_bind_of_ok (exec_update ho fun o => ((), o.define p)) _
  | set key value => exact exec_map_of_ok (exec_update ho (·.set key value)) _
  | delete key => exact exec_map_of_ok (exec_update ho (·.delete key)) _

/-! ## Calls one after the other -/

/-- What effects answer, one after the other. -/
def answers (r : Realm) : List Effect → List (Except Abrupt Answer)
  | [] => []
  | e :: rest => (exec e.run r).1 :: answers (exec e.run r).2 rest

/-- An object shows a map: what is read of it are the properties of the map, and its keys
are listed in the one way in which those of the map are. -/
structure Shows (r : Realm) (ref : ObjectRef) (m : PropertyMap) : Prop where
  own : ∀ key, exec (Effect.ownProperty ref key).run r = (.ok (.property? (m.property? key)), r)
  keys : ∃ keys, exec (Effect.ownKeys ref).run r = (.ok (.keys keys), r) ∧
    ∀ keys', m.Lists keys' ↔ keys' = keys

theorem shows_of_holds (ho : r.heap.object ref = .ok o)
    (h : Properties.Holds o.properties m) : r.Shows ref m := by
  have hread : exec (readHeap (·.object ref)) r = (.ok o, r) := by rw [exec_readHeap, ho]
  refine ⟨fun key => ?_, _, exec_bind_of_ok hread _, fun keys' => ?_⟩
  · rw [← h.found key]
    exact exec_bind_of_ok hread _
  · exact ⟨fun h' => h'.unique h.lists, fun heq => heq ▸ h.lists⟩

/-- Calls on an object that holds a map are answered as by the map, and leave an object that
holds the map after the calls. -/
theorem holds_after (ho : r.heap.object ref = .ok o) (hother : o.isArray = false)
    (h : Properties.Holds o.properties m) (calls : List PropertyCall) :
    r.answers (calls.map (·.effect ref)) = (m.answers calls).map .ok ∧
      ∃ t, Properties.Holds t (m.after calls) ∧
        r.after (calls.map (·.effect ref)) = r.withObject ref { o with properties := t } := by
  induction calls generalizing r o m with
  | nil => exact ⟨rfl, o.properties, h, (withObject_self ho).symm⟩
  | cons call rest ih =>
    obtain ⟨hanswer, t, ht, ho'⟩ := Object.reply_holds hother h call
    have hexec := exec_effect ho call
    rw [hanswer, ho'] at hexec
    obtain ⟨hanswers, t', ht', hafter⟩ := ih (o := { o with properties := t })
      (object_withObject_self ho _) hother ht
    rw [withObject_withObject] at hafter
    refine ⟨?_, t', ht', ?_⟩
    · rw [List.map_cons, answers, hexec, hanswers]
      rfl
    · rw [List.map_cons, after, List.foldl_cons, hexec]
      exact hafter

/-- Calls on an object that is no array and has no properties. -/
theorem shows_after (ho : r.heap.object ref = .ok o) (hkind : o.kind ≠ .array)
    (hempty : o.properties = []) (calls : List PropertyCall) :
    r.answers (calls.map (·.effect ref)) = (PropertyMap.empty.answers calls).map .ok ∧
      (r.after (calls.map (·.effect ref))).Shows ref (PropertyMap.empty.after calls) ∧
      ∃ t, r.after (calls.map (·.effect ref)) = r.withObject ref { o with properties := t } := by
  have hother : o.isArray = false := by
    unfold Object.isArray
    cases hk : o.kind <;> first | rfl | exact absurd hk hkind
  have hstart : Properties.Holds o.properties .empty := by
    rw [hempty]
    exact .empty
  obtain ⟨hanswers, t, ht, hafter⟩ := holds_after ho hother hstart calls
  refine ⟨hanswers, ?_, t, hafter⟩
  rw [hafter]
  exact shows_of_holds (object_withObject_self ho _) ht

/-- Keys of each rank that come in out of order, one that is deleted and comes in again, and
a property that cannot be written or deleted. -/
def mixedProperties : List PropertyCall :=
  [.set (.symbol ⟨1⟩) .null, .set (.string "b") .null, .set (.string "10") .null,
    .define { key := .string "a", value := .null, writable := false, configurable := false },
    .set (.string "9") .null, .delete (.string "b"), .set (.string "a") (.bool true),
    .delete (.string "a"), .set (.string "b") (.bool true), .delete (.string "c")]

theorem shows_after_mixedProperties :
    let o : Object := { prototype? := none, kind := .ordinary }
    let r : Realm := { heap := { slots := #[.object o, .symbol ⟨none, false⟩] } }
    let effects := mixedProperties.map (·.effect ⟨0⟩)
    r.answers effects = [.ok (.bool true), .ok (.bool true), .ok (.bool true), .ok .unit,
        .ok (.bool true), .ok (.bool true), .ok (.bool false), .ok (.bool false),
        .ok (.bool true), .ok (.bool true)] ∧
      (r.after effects).Shows ⟨0⟩ (PropertyMap.empty.after mixedProperties) ∧
      ∃ t, r.after effects = r.withObject ⟨0⟩ { o with properties := t } :=
  shows_after rfl (by decide) rfl mixedProperties

end Realm
end Retention
