import Retention.Proofs.Heap.Truncation

/-!
# Defined lengths

When `length` is defined as a property of an array, the array is cut to it, if the value
is a length at all. Then all elements that are left are listed. Any other value is stored
as it is, and leaves the array without a length to list elements by.

* `Heap.showsElements_define`, `not_showsElements_define`: values that are lengths, and others.
* `Heap.showsElements_define_iff`: which values leave all elements listed.
-/

namespace Retention

namespace Properties

variable {t : Properties} {p : Property} {length i : Nat}

/-- A property that is no element leaves the indices as they are. -/
theorem exists_mem_put_iff (hp : p.key.arrayIndex? = none) :
    (∃ q ∈ put p t, q.key.arrayIndex? = some i) ↔ ∃ q ∈ t, q.key.arrayIndex? = some i := by
  have hne {q : Property} (hi : q.key.arrayIndex? = some i) : q.key ≠ p.key := fun hkey =>
    absurd (hp.symm.trans (hkey ▸ hi)) (Option.some_ne_none i).symm
  constructor
  · rintro ⟨q, hq, hi⟩
    exact ⟨q, (mem_put hq).resolve_left fun heq => hne hi (heq ▸ rfl), hi⟩
  · rintro ⟨q, hq, hi⟩
    exact ⟨q, mem_put_of_ne hq (hne hi), hi⟩

end Properties

namespace Object

variable {o : Object} {p : Property} {length : Nat}

theorem define_of_arrayLength? (harray : o.isArray = true) (hp : p.key = .length)
    (hlength : arrayLength? p.value = some length) :
    o.define p = { o with properties := Properties.cut length (Properties.put p o.properties) } := by
  simp only [define, harray, hp, hlength, if_true, PropertyKey.arrayIndex?_length, Properties.cut]

theorem define_of_arrayLength?_eq_none (harray : o.isArray = true) (hp : p.key = .length)
    (hlength : arrayLength? p.value = none) :
    o.define p = { o with properties := Properties.put p o.properties } := by
  simp only [define, harray, hp, hlength, if_true, PropertyKey.arrayIndex?_length]

end Object

namespace Heap

variable {h : Heap} {ref : ObjectRef} {o : Object} {p : Property} {n : Nat}

/-- All elements of an object are listed: its length lies above every index, and what is
listed are the properties keyed by indices, in ascending order. -/
structure ShowsElements (h : Heap) (ref : ObjectRef) (o : Object) : Prop where
  found : h.object ref = .ok o
  above : ∃ n, h.arrayLength ref = .ok n ∧
    ∀ p ∈ o.properties, ∀ i, p.key.arrayIndex? = some i → i < n
  listed : ∃ elements : List (Nat × Property),
    elements.Pairwise (fun a b => a.1 < b.1) ∧
    (∀ i p, (i, p) ∈ elements ↔ p ∈ o.properties ∧ p.key.arrayIndex? = some i) ∧
    h.arrayElements ref = .ok (elements.map (·.2.value))

theorem showsElements_of_lt (ho : h.object ref = .ok o)
    (hdistinct : (o.properties.map Property.key).Nodup) (hlength : h.arrayLength ref = .ok n)
    (hlt : ∀ p ∈ o.properties, ∀ i, p.key.arrayIndex? = some i → i < n) :
    h.ShowsElements ref o where
  found := ho
  above := ⟨n, hlength, hlt⟩
  listed := ⟨_, Properties.pairwise_sortedElements hdistinct,
    fun _ _ => Properties.mem_sortedElements_iff, arrayElements_of_lt ho hlength hlt⟩

/-- An array whose `length` is defined as a value that is a length lists its elements. -/
theorem showsElements_define (ho : h.object ref = .ok (o.define p)) (harray : o.isArray = true)
    (hdistinct : (o.properties.map Property.key).Nodup) (hp : p.key = .length)
    (hlength : arrayLength? p.value = some n) : h.ShowsElements ref (o.define p) := by
  have hstored : Properties.lookup (Properties.put p o.properties) .length = some p :=
    hp ▸ Properties.lookup_put_self p o.properties
  have hcut := (Properties.bounded_of_lookup (Properties.nodup_put hdistinct p) hstored).cut n
  rw [Object.define_of_arrayLength? harray hp hlength] at ho ⊢
  have hshown : h.arrayLength ref =
      .ok (Properties.truncatedLength n (Properties.put p o.properties)) := by
    rw [arrayLength_of_own ho hcut.lookup, arrayLength?_ofNat
      (Properties.truncatedLength_le (arrayLength?_le hlength) _)]
    exact rfl
  exact showsElements_of_lt ho hcut.distinct hshown fun q hq i hi =>
    Int.ofNat_lt.mp (hcut.lt q hq i hi)

/-- An array whose `length` is defined as any other value has length zero. -/
theorem arrayLength_define (ho : h.object ref = .ok (o.define p)) (harray : o.isArray = true)
    (hp : p.key = .length) (hlength : arrayLength? p.value = none) :
    h.arrayLength ref = .ok 0 := by
  have hstored : Properties.lookup (Properties.put p o.properties) .length = some p :=
    hp ▸ Properties.lookup_put_self p o.properties
  rw [Object.define_of_arrayLength?_eq_none harray hp hlength] at ho
  rw [arrayLength_of_own ho hstored, hlength]
  exact rfl

/-- Such an array lists none of the elements that it had. -/
theorem not_showsElements_define (ho : h.object ref = .ok (o.define p)) (harray : o.isArray = true)
    (hp : p.key = .length) (hlength : arrayLength? p.value = none) {q : Property} {i : Nat}
    (hq : q ∈ o.properties) (hi : q.key.arrayIndex? = some i) :
    ¬ h.ShowsElements ref (o.define p) := by
  rintro ⟨-, ⟨n, hn, hlt⟩, -⟩
  obtain rfl : 0 = n := Except.ok.inj ((arrayLength_define ho harray hp hlength).symm.trans hn)
  rw [Object.define_of_arrayLength?_eq_none harray hp hlength] at hlt
  obtain ⟨q', hq', hi'⟩ :=
    (Properties.exists_mem_put_iff (hp ▸ PropertyKey.arrayIndex?_length)).mpr ⟨q, hq, hi⟩
  exact Nat.not_lt_zero i (hlt q' hq' i hi')

/-- An array without elements lists them all, whatever its length is. -/
theorem showsElements_define_of_empty (ho : h.object ref = .ok (o.define p))
    (harray : o.isArray = true) (hdistinct : (o.properties.map Property.key).Nodup)
    (hp : p.key = .length) (hlength : arrayLength? p.value = none)
    (hempty : ∀ q ∈ o.properties, q.key.arrayIndex? = none) : h.ShowsElements ref (o.define p) := by
  have hzero := arrayLength_define ho harray hp hlength
  rw [Object.define_of_arrayLength?_eq_none harray hp hlength] at ho ⊢
  refine showsElements_of_lt ho (Properties.nodup_put hdistinct p) hzero fun q hq i hi => ?_
  obtain ⟨q', hq', hi'⟩ := (Properties.exists_mem_put_iff
    (hp ▸ PropertyKey.arrayIndex?_length)).mp ⟨q, hq, hi⟩
  exact absurd ((hempty q' hq').symm.trans hi') (Option.some_ne_none i).symm

/-- However an array's `length` is defined, all elements that are left are listed if and
only if the value is a length, or there were no elements. -/
theorem showsElements_define_iff (ho : h.object ref = .ok o) (hkind : o.kind = .array)
    (hdistinct : (o.properties.map Property.key).Nodup) (hp : p.key = .length) :
    (h.update ref fun o => ((), o.define p)).1 = .ok () ∧
      ((h.update ref fun o => ((), o.define p)).2.ShowsElements ref (o.define p) ↔
        (arrayLength? p.value).isSome = true ∨ ∀ q ∈ o.properties, q.key.arrayIndex? = none) := by
  have harray : o.isArray = true := by
    rw [Object.isArray, hkind]
    rfl
  have hafter := object_update_of_object ho fun o => ((), o.define p)
  refine ⟨by simp only [update, ho], ?_⟩
  cases hlength : arrayLength? p.value with
  | some n => exact iff_of_true (showsElements_define hafter harray hdistinct hp hlength) (.inl rfl)
  | none =>
    refine ⟨fun hshows => .inr fun q hq => Option.eq_none_iff_forall_ne_some.mpr fun i hi =>
      not_showsElements_define hafter harray hp hlength hq hi hshows, fun hlisted => ?_⟩
    exact showsElements_define_of_empty hafter harray hdistinct hp hlength
      (hlisted.resolve_left Bool.false_ne_true)

/-- A length that is given as a text cuts the array to the element that cannot be deleted,
and the element below it is listed. -/
theorem showsElements_define_text :
    let p : Property := { key := .length, value := .string " 3 ", writable := false }
    let h : Heap := { slots := #[.object topHeavy] }
    (h.update ⟨0⟩ fun o => ((), o.define p)).2.ShowsElements ⟨0⟩ (topHeavy.define p) :=
  (showsElements_define_iff rfl rfl (by decide) rfl).2.mpr (.inl (by decide +kernel))

/-- An array of one element. -/
def single : Object where
  prototype? := none
  properties := [Properties.lengthProperty 1, { key := .string "0", value := .bool true }]
  kind := .array

/-- A length of one and a half is stored, and hides the element. -/
theorem not_showsElements_define_fraction :
    let p : Property := { key := .length, value := .number (.ofWord 4609434218613702656) }
    let h : Heap := { slots := #[.object single] }
    h.ShowsElements ⟨0⟩ single ∧ (h.update ⟨0⟩ fun o => ((), o.define p)).1 = .ok () ∧
      ¬ (h.update ⟨0⟩ fun o => ((), o.define p)).2.ShowsElements ⟨0⟩ (single.define p) := by
  intro p h
  have hone : h.arrayLength ⟨0⟩ = .ok 1 := by
    rw [arrayLength_of_own (o := single) (p := Properties.lengthProperty 1) rfl rfl,
      Properties.lengthProperty, arrayLength?_ofNat (by decide)]
    exact rfl
  have hshown := showsElements_of_lt (o := single) rfl (by decide) hone
    (Properties.lt_of_all (by decide))
  refine ⟨hshown, rfl, ?_⟩
  exact not_showsElements_define rfl rfl rfl (by decide +kernel) (q := single.properties[1])
    (List.getElem_mem _) (by decide : _ = some 0)

end Heap
end Retention
