import Retention.Proofs.Heap.Consistency

/-!
# Consistent property tables

The operations on property tables keep each key once, and store nothing but
what was stored and the value they are given. So the operations on an object's
own properties keep it consistent, and they keep its kind.

* `Properties.Consistent.put`, `write`, `sublist`, …: operations on tables.
* `Object.Consistent.define`, `set`, `setLength`, `delete`: operations on objects.
-/

namespace Retention

variable {h : Heap}

theorem Property.mem_stored_iff {p : Property} {v : Value} :
    v ∈ p.stored ↔ v = p.value ∨ ∃ ref, p.key = .symbol ref ∧ v = .symbol ref := by
  unfold stored
  split
  · rename_i ref hk
    simp [hk, or_comm]
  · rename_i hk
    simp [hk]

/-- A property whose key is a string stores its value only. -/
theorem Property.stored_of_string {p : Property} {name : String} (hk : p.key = .string name) :
    p.stored = [p.value] := by
  simp only [stored, hk]

/-- A property that a string keys leads where its value leads. -/
theorem Property.isValid_of_string {p : Property} {name : String} (hk : p.key = .string name)
    (hv : h.isValid p.value = true) : ∀ v ∈ p.stored, h.isValid v = true := by
  intro v hmem
  rw [Property.stored_of_string hk, List.mem_singleton] at hmem
  rwa [hmem]

namespace Properties

variable {t : Properties} {p q : Property} {key : PropertyKey} {value : Value}

theorem mem_put (hq : q ∈ put p t) : q = p ∨ q ∈ t := by
  induction t with
  | nil => exact .inl (List.mem_singleton.mp hq)
  | cons r rest ih =>
    unfold put at hq
    split at hq
    · exact (List.mem_cons.mp hq).imp_right (List.mem_cons_of_mem r)
    · rcases List.mem_cons.mp hq with rfl | hq
      · exact .inr List.mem_cons_self
      · exact (ih hq).imp_right (List.mem_cons_of_mem r)

theorem nodup_put (ht : (t.map Property.key).Nodup) (p : Property) :
    ((put p t).map Property.key).Nodup := by
  induction t with
  | nil => exact List.pairwise_singleton _ p.key
  | cons r rest ih =>
    rw [List.map_cons, List.nodup_cons] at ht
    unfold put
    split
    · rename_i hr
      rw [List.map_cons, List.nodup_cons, ← hr]
      exact ht
    · rename_i hr
      rw [List.map_cons, List.nodup_cons]
      refine ⟨fun hmem => ?_, ih ht.2⟩
      obtain ⟨q, hq, hkey⟩ := List.mem_map.mp hmem
      rcases mem_put hq with rfl | hq
      · exact hr hkey.symm
      · exact ht.1 (List.mem_map.mpr ⟨q, hq, hkey⟩)

theorem map_key_write (key : PropertyKey) (value : Value) (t : Properties) :
    (write key value t).map Property.key = t.map Property.key := by
  induction t with
  | nil => rfl
  | cons r rest ih =>
    unfold write
    split
    · rfl
    · rw [List.map_cons, List.map_cons, ih]

theorem mem_write (hq : q ∈ write key value t) : q ∈ t ∨ ∃ p ∈ t, q = { p with value } := by
  induction t with
  | nil => cases hq
  | cons r rest ih =>
    unfold write at hq
    split at hq
    · rcases List.mem_cons.mp hq with rfl | hq
      · exact .inr ⟨r, List.mem_cons_self, rfl⟩
      · exact .inl (List.mem_cons_of_mem r hq)
    · rcases List.mem_cons.mp hq with rfl | hq
      · exact .inl List.mem_cons_self
      · rcases ih hq with hq | ⟨p, hp, rfl⟩
        · exact .inl (List.mem_cons_of_mem r hq)
        · exact .inr ⟨p, List.mem_cons_of_mem r hp, rfl⟩

theorem not_mem_of_lookup_eq_none (hk : lookup t key = none) : key ∉ t.map Property.key := by
  intro hmem
  obtain ⟨p, hp, rfl⟩ := List.mem_map.mp hmem
  simpa using List.find?_eq_none.mp hk p hp

namespace Consistent

theorem nil : Properties.Consistent h [] := ⟨by simp, by simp⟩

variable (ht : Properties.Consistent h t)

include ht

theorem put (hp : ∀ v ∈ p.stored, h.isValid v = true) : Properties.Consistent h (put p t) where
  valid q hq := by
    rcases mem_put hq with rfl | hq
    · exact hp
    · exact ht.valid q hq
  distinct := nodup_put ht.distinct p

theorem write (key : PropertyKey) (hv : h.isValid value = true) :
    Properties.Consistent h (write key value t) where
  valid q hq := by
    rcases mem_write hq with hq | ⟨p, hp, rfl⟩
    · exact ht.valid q hq
    · intro v hmem
      rcases Property.mem_stored_iff.mp hmem with rfl | hsymbol
      · exact hv
      · exact ht.valid p hp v (Property.mem_stored_iff.mpr (.inr hsymbol))
  distinct := by
    rw [map_key_write]
    exact ht.distinct

theorem sublist {t' : Properties} (hs : t'.Sublist t) : Properties.Consistent h t' :=
  ⟨fun q hq => ht.valid q (hs.mem hq), ht.distinct.sublist (hs.map _)⟩

theorem append (hp : ∀ v ∈ p.stored, h.isValid v = true) (hnew : p.key ∉ t.map Property.key) :
    Properties.Consistent h (t ++ [p]) where
  valid q hq := by
    rcases List.mem_append.mp hq with hq | hq
    · exact ht.valid q hq
    · rw [List.mem_singleton.mp hq]
      exact hp
  distinct := by
    rw [List.map_append, List.map_singleton]
    refine List.nodup_append.mpr ⟨ht.distinct, List.pairwise_singleton _ p.key, ?_⟩
    intro key hkey _ hp heq
    exact hnew (List.mem_singleton.mp hp ▸ heq ▸ hkey)

theorem erase (key : PropertyKey) : Properties.Consistent h (erase key t) :=
  ht.sublist List.eraseP_sublist

theorem truncate (length : Nat) : Properties.Consistent h (truncate length t) :=
  ht.sublist List.filter_sublist

/-- A length property is made only where there is none. -/
theorem appendLength (length : Nat) (hk : lookup t .length = none) :
    Properties.Consistent h (t ++ [lengthProperty length]) :=
   ht.append (Property.isValid_of_string rfl rfl) (not_mem_of_lookup_eq_none hk)

theorem writeLength (length : Nat) : Properties.Consistent h (writeLength length t) := by
  unfold Properties.writeLength
  split
  · exact ht.write _ rfl
  · exact ht.appendLength length ‹_›

theorem growLength (length : Nat) : Properties.Consistent h (growLength length t) := by
  unfold Properties.growLength
  split
  · split
    · exact ht.write _ rfl
    · exact ht
  · exact ht
  · exact ht.appendLength length ‹_›

end Consistent
end Properties

namespace Object

@[simp] theorem kind_define (o : Object) (p : Property) : (o.define p).kind = o.kind := by
  unfold define
  split <;> rfl

@[simp] theorem kind_setLength (o : Object) (length : Nat) :
    (o.setLength length).2.kind = o.kind := by
  unfold setLength
  split <;> rfl

@[simp] theorem kind_set (o : Object) (key : PropertyKey) (value : Value) :
    (o.set key value).2.kind = o.kind := by
  unfold set
  repeat' split
  all_goals first | rfl | exact kind_setLength .. | exact kind_define ..

@[simp] theorem kind_delete (o : Object) (key : PropertyKey) : (o.delete key).2.kind = o.kind := by
  unfold delete
  split <;> rfl

namespace Consistent

variable {o : Object} {p : Property} {key : PropertyKey} {value : Value} (ho : o.Consistent h)

include ho

/-- An object with another property table. -/
theorem withProperties {t : Properties} (ht : Properties.Consistent h t) :
    { o with properties := t }.Consistent h := ⟨ho.prototype, ht, ho.kind⟩

theorem define (hp : ∀ v ∈ p.stored, h.isValid v = true) : (o.define p).Consistent h := by
  have hput := ho.properties.put hp
  unfold Object.define
  split
  · refine ho.withProperties ?_
    cases (if p.key = .length then arrayLength? p.value else none) with
    | none =>
      split
      · exact hput.growLength _
      · exact hput
    | some length =>
      have hcut := hput.truncate (Properties.truncatedLength length (Properties.put p o.properties))
      split
      · exact (hcut.write .length rfl).growLength _
      · exact hcut.write .length rfl
  · exact ho.withProperties hput

theorem setLength (length : Nat) : (o.setLength length).2.Consistent h := by
  unfold Object.setLength
  split
  · exact ho
  · exact ho.withProperties ((ho.properties.truncate _).writeLength _)

theorem set (hk : ∀ v ∈ ({ key, value } : Property).stored, h.isValid v = true) :
    (o.set key value).2.Consistent h := by
  have hv : h.isValid value = true := hk value (Property.mem_stored_iff.mpr (.inl rfl))
  unfold Object.set
  split
  · split
    · exact ho.setLength _
    · exact ho
  · split
    · split
      · exact ho.withProperties (ho.properties.write key hv)
      · exact ho
    · exact ho.define hk

theorem delete (key : PropertyKey) : (o.delete key).2.Consistent h := by
  unfold Object.delete
  split
  · exact ho
  · exact ho.withProperties (ho.properties.erase key)

end Consistent
end Object

/-- Properties defined one after the other. -/
theorem Object.Consistent.foldl_define {α : Type} {property : α → Property} {items : List α}
    {o : Object} (ho : o.Consistent h)
    (hitems : ∀ a ∈ items, ∀ v ∈ (property a).stored, h.isValid v = true) :
    (items.foldl (fun o a => o.define (property a)) o).Consistent h := by
  induction items generalizing o with
  | nil => exact ho
  | cons a rest ih =>
    exact ih (ho.define (hitems a List.mem_cons_self)) fun b hb =>
      hitems b (List.mem_cons_of_mem a hb)

theorem Object.kind_foldl_define {α : Type} (property : α → Property) (items : List α)
    (o : Object) : (items.foldl (fun o a => o.define (property a)) o).kind = o.kind := by
  induction items generalizing o with
  | nil => rfl
  | cons a rest ih => rw [List.foldl_cons, ih, Object.kind_define]

@[simp] theorem Realm.kind_arrayOf (elements : List Value) (o : Object) :
    (arrayOf elements o).kind = o.kind :=
  (Object.kind_foldl_define (fun a : Value × Nat => { key := .ofIndex a.2, value := a.1 })
    elements.zipIdx (o.define (Properties.lengthProperty 0))).trans (Object.kind_define o _)

theorem Object.Consistent.arrayOf {o : Object} (ho : o.Consistent h) {elements : List Value}
    (hv : ∀ v ∈ elements, h.isValid v = true) : (Realm.arrayOf elements o).Consistent h :=
  (ho.define (Property.isValid_of_string rfl rfl)).foldl_define fun (v, _) hi =>
    Property.isValid_of_string rfl (hv v (List.fst_mem_of_mem_zipIdx hi))

end Retention
