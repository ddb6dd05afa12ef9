import Mathlib.Data.List.Nodup
import Retention.Proofs.Heap.Listing
import Retention.Proofs.Heap.PropertyTable
import Retention.Proofs.Number.Exact
import Retention.Proofs.Numerals

/-!
# Array lengths

An array keeps its length in a property that cannot be deleted. The length is a
number above every index in the table (`Properties.Sized`), and the operations on
an object's own properties keep it there, as long as none defines `length` itself
(`Object.Sized`).

* `Properties.truncatedLength_cases`: where a truncation stops.
* `Properties.Bounded.put`, `write`, `erase`, `truncate`: tables with a `length` of any value.
* `Object.Sized.define`, `setLength`, `set`, `delete`: the operations.
* `Properties.pairwise_sortedElements`, `Heap.arrayElements_of_sized`: the elements in
  ascending order, all below the length.
-/

namespace Retention

/-! ## Truncation -/

/-- An element at or beyond a length that cannot be deleted. -/
structure Property.Blocks (p : Property) (length i : Nat) : Prop where
  index : p.key.arrayIndex? = some i
  fixed : p.configurable = false
  beyond : length ≤ i

namespace Properties

variable {t : Properties} {p q : Property} {key : PropertyKey} {value : Value} {length n m i : Nat}

/-- The step of a truncation from one property to the next. -/
def blockedLength (length n : Nat) (p : Property) : Nat :=
  match p.key.arrayIndex? with
  | some i => if !p.configurable && length ≤ i then max n (i + 1) else n
  | none => n

theorem blockedLength_of_blocks (h : p.Blocks length i) (n : Nat) :
    blockedLength length n p = max n (i + 1) := by
  simp [blockedLength, h.index, h.fixed, h.beyond]

theorem blockedLength_of_not_blocks (h : ∀ i, ¬ p.Blocks length i) (n : Nat) :
    blockedLength length n p = n := by
  unfold blockedLength
  split
  · rename_i i hi
    refine if_neg fun hcond => h i ?_
    rw [Bool.and_eq_true, Bool.not_eq_true', decide_eq_true_eq] at hcond
    exact ⟨hi, hcond.1, hcond.2⟩
  · rfl

/-- A fold over a table stops at the start, or behind a blocking element. -/
theorem foldl_blockedLength_cases (length n : Nat) (t : Properties) :
    t.foldl (blockedLength length) n = n ∨
      ∃ p ∈ t, ∃ i, p.Blocks length i ∧ t.foldl (blockedLength length) n = i + 1 := by
  induction t generalizing n with
  | nil => exact .inl rfl
  | cons q rest ih =>
    rw [List.foldl_cons]
    rcases ih (blockedLength length n q) with heq | ⟨p, hp, hblocks⟩
    · rw [heq]
      by_cases hq : ∃ i, q.Blocks length i
      · obtain ⟨i, hq⟩ := hq
        rw [blockedLength_of_blocks hq]
        rcases Nat.le_total n (i + 1) with hmax | hmax
        · exact .inr ⟨q, List.mem_cons_self, i, hq, Nat.max_eq_right hmax⟩
        · exact .inl (Nat.max_eq_left hmax)
      · exact .inl (blockedLength_of_not_blocks (fun i hi => hq ⟨i, hi⟩) n)
    · exact .inr ⟨p, List.mem_cons_of_mem q hp, hblocks⟩

/-- A truncation stops at the length, or behind an element that blocks it. -/
theorem truncatedLength_cases (length : Nat) (t : Properties) :
    truncatedLength length t = length ∨
      ∃ p ∈ t, ∃ i, p.Blocks length i ∧ truncatedLength length t = i + 1 :=
  foldl_blockedLength_cases length length t

theorem truncatedLength_le (hle : length ≤ arrayIndexLimit) (t : Properties) :
    truncatedLength length t ≤ arrayIndexLimit := by
  rcases truncatedLength_cases length t with heq | ⟨p, -, i, hblocks, heq⟩
  · rwa [heq]
  · rw [heq]
    exact PropertyKey.arrayIndex?_lt hblocks.index

/-- A truncation that nothing blocks reaches the length. -/
theorem truncatedLength_of_not_blocks (h : ∀ p ∈ t, ∀ i, ¬ p.Blocks length i) :
    truncatedLength length t = length := by
  rcases truncatedLength_cases length t with heq | ⟨p, hp, i, hblocks, -⟩
  · exact heq
  · exact absurd hblocks (h p hp i)

theorem mem_truncate_iff : p ∈ truncate n t ↔ p ∈ t ∧ ∀ i, p.key.arrayIndex? = some i → i < n := by
  unfold truncate
  rw [List.mem_filter, Option.all_eq_true]
  simp

/-! ## Members of a table -/

/-- The bound of all indices, as it is computed. -/
theorem lt_of_all (h : t.all (·.key.arrayIndex?.all (· < n)) = true) :
    ∀ p ∈ t, ∀ i, p.key.arrayIndex? = some i → i < n := fun p hp i hi => by
  have hall := List.all_eq_true.mp h p hp
  rw [hi] at hall
  exact of_decide_eq_true hall

theorem mem_of_lookup (h : lookup t key = some p) : p ∈ t ∧ p.key = key := by
  refine ⟨List.mem_of_find?_eq_some h, ?_⟩
  have hkey := List.find?_some h
  exact beq_iff_eq.mp hkey

/-- In a table that holds each key once, a property is found by its key. -/
theorem lookup_eq_some_iff (ht : (t.map Property.key).Nodup) :
    lookup t key = some p ↔ p ∈ t ∧ p.key = key := by
  refine ⟨mem_of_lookup, fun ⟨hp, hkey⟩ => ?_⟩
  cases hl : lookup t key with
  | none => exact absurd (List.mem_map.mpr ⟨p, hp, hkey⟩) (not_mem_of_lookup_eq_none hl)
  | some q =>
    obtain ⟨hq, hqkey⟩ := mem_of_lookup hl
    rw [List.inj_on_of_nodup_map ht hq hp (hqkey.trans hkey.symm)]

theorem mem_put_of_ne (hq : q ∈ t) (hne : q.key ≠ p.key) : q ∈ put p t := by
  induction t with
  | nil => cases hq
  | cons r rest ih =>
    unfold put
    split
    · rename_i hr
      rcases List.mem_cons.mp hq with rfl | hq
      · exact absurd hr hne
      · exact List.mem_cons_of_mem p hq
    · rcases List.mem_cons.mp hq with rfl | hq
      · exact List.mem_cons_self
      · exact List.mem_cons_of_mem r (ih hq)

theorem mem_write_of_ne (hq : q ∈ t) (hne : q.key ≠ key) : q ∈ write key value t := by
  induction t with
  | nil => cases hq
  | cons r rest ih =>
    unfold write
    split
    · rename_i hr
      rcases List.mem_cons.mp hq with rfl | hq
      · exact absurd hr hne
      · exact List.mem_cons_of_mem _ hq
    · rcases List.mem_cons.mp hq with rfl | hq
      · exact List.mem_cons_self
      · exact List.mem_cons_of_mem r (ih hq)

/-- The property found under a key is the one that is written to. -/
theorem mem_write_of_lookup (hl : lookup t key = some p) : { p with value } ∈ write key value t := by
  induction t with
  | nil => cases hl
  | cons r rest ih =>
    unfold lookup at hl ih
    unfold write
    by_cases hr : r.key = key
    · simp only [List.find?_cons, beq_iff_eq.mpr hr, Option.some.injEq] at hl
      rw [if_pos hr, hl]
      exact List.mem_cons_self
    · simp only [List.find?_cons, beq_eq_false_iff_ne.mpr hr] at hl
      rw [if_neg hr]
      exact List.mem_cons_of_mem r (ih hl)

theorem exists_of_mem_write (hq : q ∈ write key value t) : ∃ p ∈ t, q.key = p.key := by
  rcases mem_write hq with hq | ⟨p, hp, rfl⟩
  · exact ⟨q, hq, rfl⟩
  · exact ⟨p, hp, rfl⟩

theorem mem_erase_of_ne (hq : q ∈ t) (hne : q.key ≠ key) : q ∈ erase key t :=
  (List.mem_eraseP_of_neg (by simpa using hne)).mpr hq

/-! ## Lengths -/

/-- A number that an array's length can be is exact. -/
theorem lt_two_pow_of_le (hle : n ≤ arrayIndexLimit) : n < Nat.pow 2 53 := by
  unfold arrayIndexLimit at hle
  show n < 9007199254740992
  omega

/-- A table that has a `length`, with every index below `bound`. -/
structure Bounded (t : Properties) (p : Property) (bound : Int) : Prop where
  distinct : (t.map Property.key).Nodup
  stored : p ∈ t
  key : p.key = .length
  lt : ∀ q ∈ t, ∀ i, q.key.arrayIndex? = some i → (i : Int) < bound

/-- No index reaches the limit of indices. -/
theorem bounded_of_lookup (ht : (t.map Property.key).Nodup) (hp : lookup t .length = some p) :
    Bounded t p arrayIndexLimit where
  distinct := ht
  stored := (mem_of_lookup hp).1
  key := (mem_of_lookup hp).2
  lt _ _ _ hi := Int.ofNat_lt.mpr (PropertyKey.arrayIndex?_lt hi)

namespace Bounded

variable {bound : Int} (h : Bounded t p bound)

include h

theorem lookup : lookup t .length = some p := (lookup_eq_some_iff h.distinct).mpr ⟨h.stored, h.key⟩

theorem mono {bound' : Int} (hle : bound ≤ bound') : Bounded t p bound' :=
  ⟨h.distinct, h.stored, h.key, fun q hq i hi => Int.lt_of_lt_of_le (h.lt q hq i hi) hle⟩

theorem put (hq : q.key ≠ .length) (hlt : ∀ i, q.key.arrayIndex? = some i → (i : Int) < bound) :
    Bounded (put q t) p bound where
  distinct := nodup_put h.distinct q
  stored := mem_put_of_ne h.stored (h.key.trans_ne hq.symm)
  key := h.key
  lt r hr := by
    rcases mem_put hr with rfl | hr
    · exact hlt
    · exact h.lt r hr

theorem write (hkey : key ≠ .length) (value : Value) : Bounded (write key value t) p bound where
  distinct := by
    rw [map_key_write]
    exact h.distinct
  stored := mem_write_of_ne h.stored (h.key.trans_ne hkey.symm)
  key := h.key
  lt q hq i hi := by
    obtain ⟨r, hr, heq⟩ := exists_of_mem_write hq
    exact h.lt r hr i (heq ▸ hi)

/-- The length property takes another value. -/
theorem write_length (value : Value) :
    Bounded (Properties.write .length value t) { p with value } bound where
  distinct := by
    rw [map_key_write]
    exact h.distinct
  stored := mem_write_of_lookup h.lookup
  key := h.key
  lt q hq i hi := by
    obtain ⟨r, hr, heq⟩ := exists_of_mem_write hq
    exact h.lt r hr i (heq ▸ hi)

theorem erase (hkey : key ≠ .length) : Bounded (erase key t) p bound where
  distinct := h.distinct.sublist (List.eraseP_sublist.map _)
  stored := mem_erase_of_ne h.stored (h.key.trans_ne hkey.symm)
  key := h.key
  lt q hq := h.lt q (List.mem_of_mem_eraseP hq)

/-- A length that is a number grows if it is less, whether it can be written or not. -/
theorem growLength {number : Number} (hvalue : p.value = .number number) (length : Nat) :
    Bounded (growLength length t)
      (if number.saturatingNat < length then { p with value := .number (.ofNat length) } else p)
      bound := by
  obtain ⟨_, _, _, _, _⟩ := p
  dsimp only at hvalue
  subst hvalue
  simp only [Properties.growLength, h.lookup]
  split
  · exact h.write_length _
  · exact h

/-- A truncation brings every index below the length it truncates to. -/
theorem truncate (length : Nat) : Bounded (truncate length t) p length where
  distinct := h.distinct.sublist (List.filter_sublist.map _)
  stored := mem_truncate_iff.mpr
    ⟨h.stored, fun _ hi => absurd h.key (PropertyKey.ne_length_of_arrayIndex? hi)⟩
  key := h.key
  lt _ hq i hi := Int.ofNat_lt.mpr ((mem_truncate_iff.mp hq).2 i hi)

end Bounded

/-- The table of an array: its `length` is kept in a property that cannot be
deleted, and every index lies below `bound`. -/
structure Sized (t : Properties) (length bound : Nat) : Prop where
  distinct : (t.map Property.key).Nodup
  stored : ∃ p ∈ t, p.key = .length ∧ p.value = .number (.ofNat length) ∧ p.configurable = false
  le : length ≤ arrayIndexLimit
  lt : ∀ p ∈ t, ∀ i, p.key.arrayIndex? = some i → i < bound

theorem Sized.lengthProperty : Sized [lengthProperty 0] 0 0 where
  distinct := List.pairwise_singleton _ _
  stored := ⟨_, List.mem_cons_self, rfl, rfl, rfl⟩
  le := Nat.zero_le _
  lt p hp i hi := by
    rw [List.mem_singleton.mp hp] at hi
    exact absurd rfl (PropertyKey.ne_length_of_arrayIndex? hi)

theorem Bounded.sized (h : Bounded t p m) (hvalue : p.value = .number (.ofNat n))
    (hfixed : p.configurable = false) (hle : n ≤ arrayIndexLimit) : Sized t n m where
  distinct := h.distinct
  stored := ⟨p, h.stored, h.key, hvalue, hfixed⟩
  le := hle
  lt q hq i hi := Int.ofNat_lt.mp (h.lt q hq i hi)

namespace Sized

variable (h : Sized t n m)

include h

theorem bounded :
    ∃ p, Bounded t p m ∧ p.value = .number (.ofNat n) ∧ p.configurable = false := by
  obtain ⟨p, hp, hkey, hvalue, hfixed⟩ := h.stored
  exact ⟨p, ⟨h.distinct, hp, hkey, fun q hq i hi => Int.ofNat_lt.mpr (h.lt q hq i hi)⟩,
    hvalue, hfixed⟩

/-- The length property, as it is looked up. -/
theorem lookup_length :
    ∃ p, lookup t .length = some p ∧ p.value = .number (.ofNat n) ∧ p.configurable = false := by
  obtain ⟨p, hp, hrest⟩ := h.bounded
  exact ⟨p, hp.lookup, hrest⟩

theorem mono {m' : Nat} (hle : m ≤ m') : Sized t n m' := by
  obtain ⟨p, hp, hvalue, hfixed⟩ := h.bounded
  exact (hp.mono (Int.ofNat_le.mpr hle)).sized hvalue hfixed h.le

theorem put (hp : p.key ≠ .length) (hlt : ∀ i, p.key.arrayIndex? = some i → i < m) :
    Sized (put p t) n m := by
  obtain ⟨q, hq, hvalue, hfixed⟩ := h.bounded
  exact (hq.put hp fun i hi => Int.ofNat_lt.mpr (hlt i hi)).sized hvalue hfixed h.le

theorem write (hkey : key ≠ .length) (value : Value) : Sized (write key value t) n m := by
  obtain ⟨q, hq, hvalue, hfixed⟩ := h.bounded
  exact (hq.write hkey value).sized hvalue hfixed h.le

theorem erase (hkey : key ≠ .length) : Sized (erase key t) n m := by
  obtain ⟨q, hq, hvalue, hfixed⟩ := h.bounded
  exact (hq.erase hkey).sized hvalue hfixed h.le

theorem truncate (length : Nat) : Sized (truncate length t) n length := by
  obtain ⟨q, hq, hvalue, hfixed⟩ := h.bounded
  exact (hq.truncate length).sized hvalue hfixed h.le

/-- The length property takes another length, and stays one that cannot be deleted. -/
theorem write_length {length : Nat} (hle : length ≤ arrayIndexLimit) :
    Sized (Properties.write .length (.number (.ofNat length)) t) length m := by
  obtain ⟨q, hq, -, hfixed⟩ := h.bounded
  exact (hq.write_length _).sized rfl hfixed hle

theorem writeLength {length : Nat} (hle : length ≤ arrayIndexLimit) :
    Sized (writeLength length t) length m := by
  obtain ⟨q, hq, -⟩ := h.lookup_length
  simp only [Properties.writeLength, hq]
  exact h.write_length hle

theorem growLength {length : Nat} (hle : length ≤ arrayIndexLimit) :
    Sized (growLength length t) (max n length) m := by
  obtain ⟨q, hq, hvalue, hfixed⟩ := h.bounded
  have hgrown := hq.growLength hvalue length
  rw [Number.saturatingNat_ofNat (lt_two_pow_of_le h.le)] at hgrown
  split at hgrown
  · rename_i hlt
    rw [Nat.max_eq_right (Nat.le_of_lt hlt)]
    exact hgrown.sized rfl hfixed hle
  · rename_i hnot
    rw [Nat.max_eq_left (Nat.le_of_not_lt hnot)]
    exact hgrown.sized hvalue hfixed h.le

end Sized
end Properties

/-! ## Reading a length -/

theorem arrayLength?_of_toInt? {number : Number} {n : Nat} (hint : number.toInt? = some (n : Int))
    (hle : n ≤ arrayIndexLimit) : arrayLength? (.number number) = some n := by
  unfold arrayLength?
  simp only [Option.bind_some, hint]
  exact if_pos hle

/-- Reading a length gives back what was written. -/
theorem arrayLength?_ofNat {n : Nat} (hle : n ≤ arrayIndexLimit) :
    arrayLength? (.number (.ofNat n)) = some n :=
  arrayLength?_of_toInt? (Number.toInt?_ofNat (Properties.lt_two_pow_of_le hle)) hle

theorem arrayLength?_le {v : Value} {n : Nat} (h : arrayLength? v = some n) :
    n ≤ arrayIndexLimit := by
  unfold arrayLength? at h
  dsimp only at h
  split at h
  · split at h
    · rename_i hle
      exact Option.some.inj h ▸ hle
    · cases h
  · cases h

namespace Object

variable {o : Object} {p : Property} {key : PropertyKey} {value : Value} {n : Nat}

/-- An array whose length lies above every index. -/
structure Sized (o : Object) (n : Nat) : Prop where
  array : o.isArray = true
  properties : Properties.Sized o.properties n n

theorem isArray_eq_of_kind {o' : Object} (h : o'.kind = o.kind) : o'.isArray = o.isArray := by
  rw [isArray, isArray, h]

/-- An array that gets its length and nothing else. -/
theorem properties_define_lengthProperty {empty : Object} (harray : empty.isArray = true)
    (hempty : empty.properties = []) :
    (empty.define (Properties.lengthProperty 0)).properties = [Properties.lengthProperty 0] := by
  have hlength : arrayLength? (Properties.lengthProperty 0).value = some 0 :=
    arrayLength?_ofNat (Nat.zero_le _)
  have hindex : (Properties.lengthProperty 0).key.arrayIndex? = none :=
    PropertyKey.arrayIndex?_length
  have hput : Properties.put (Properties.lengthProperty 0) [] = [Properties.lengthProperty 0] := rfl
  have hcut : Properties.truncatedLength 0 [Properties.lengthProperty 0] = 0 := by
    rcases Properties.truncatedLength_cases 0 [Properties.lengthProperty 0] with heq | ⟨p, hp, i, hi, -⟩
    · exact heq
    · rw [List.mem_singleton.mp hp] at hi
      exact absurd (hindex.symm.trans hi.index) (Option.some_ne_none _).symm
  have hkept : Properties.truncate 0 [Properties.lengthProperty 0] = [Properties.lengthProperty 0] := by
    simp [Properties.truncate, hindex]
  have hwrite : Properties.write .length (.number (.ofNat 0)) [Properties.lengthProperty 0] =
      [Properties.lengthProperty 0] := if_pos rfl
  have hkey : (Properties.lengthProperty 0).key = .length := rfl
  simp only [define, harray, hempty, if_true, hput, hkey, hlength, hcut, hkept, hwrite,
    PropertyKey.arrayIndex?_length]

namespace Sized

variable (h : o.Sized n)

include h

theorem define (hp : p.key ≠ .length) : ∃ m, (o.define p).Sized m := by
  refine ⟨p.key.arrayIndex?.elim n fun i => max n (i + 1), ?_, ?_⟩
  · rw [isArray_eq_of_kind (kind_define o p)]
    exact h.array
  · unfold Object.define
    simp only [h.array, if_true, if_neg hp]
    cases hi : p.key.arrayIndex? with
    | none => exact h.properties.put hp fun i hi' => absurd (hi.symm.trans hi') (Option.some_ne_none _).symm
    | some i =>
      have hlt : ∀ j, p.key.arrayIndex? = some j → j < max n (i + 1) := fun j hj => by
        cases Option.some.inj (hi.symm.trans hj)
        exact Nat.lt_of_lt_of_le (Nat.lt_succ_self _) (Nat.le_max_right _ _)
      exact ((h.properties.mono (Nat.le_max_left _ _)).put hp hlt).growLength
        (PropertyKey.arrayIndex?_lt hi)

theorem setLength {length : Nat} (hle : length ≤ arrayIndexLimit) :
    ∃ m, (o.setLength length).2.Sized m := by
  unfold Object.setLength
  split
  · exact ⟨n, h⟩
  · have hfinal := Properties.truncatedLength_le hle o.properties
    exact ⟨_, h.array, (h.properties.truncate _).writeLength hfinal⟩

theorem set (key : PropertyKey) (value : Value) : ∃ m, (o.set key value).2.Sized m := by
  unfold Object.set
  split
  · split
    · rename_i hlength
      exact h.setLength (arrayLength?_le hlength)
    · exact ⟨n, h⟩
  · rename_i hnot
    have hkey : key ≠ .length := fun heq => hnot (by rw [h.array, heq]; rfl)
    split
    · split
      · exact ⟨n, h.array, h.properties.write hkey value⟩
      · exact ⟨n, h⟩
    · exact h.define hkey

theorem delete (key : PropertyKey) : ∃ m, (o.delete key).2.Sized m := by
  unfold Object.delete
  split
  · exact ⟨n, h⟩
  · rename_i hnot
    have hkey : key ≠ .length := by
      rintro rfl
      obtain ⟨p, hp, -, hfixed⟩ := h.properties.lookup_length
      exact hnot (by simp [own?, hp, hfixed])
    exact ⟨n, h.array, h.properties.erase hkey⟩

theorem foldl_define {α : Type} {property : α → Property} (items : List α)
    (hitems : ∀ a, (property a).key ≠ .length) :
    ∃ m, (items.foldl (fun o a => o.define (property a)) o).Sized m := by
  induction items generalizing o n with
  | nil => exact ⟨n, h⟩
  | cons a rest ih =>
    obtain ⟨m, hm⟩ := h.define (hitems a)
    exact ih hm

end Sized

/-- A new array with elements. -/
theorem sized_arrayOf (empty : Object) (harray : empty.isArray = true)
    (hempty : empty.properties = []) (elements : List Value) :
    ∃ n, (Realm.arrayOf elements empty).Sized n := by
  have hstart : (empty.define (Properties.lengthProperty 0)).Sized 0 := by
    refine ⟨?_, ?_⟩
    · rw [isArray_eq_of_kind (kind_define empty _)]
      exact harray
    · rw [properties_define_lengthProperty harray hempty]
      exact Properties.Sized.lengthProperty
  exact hstart.foldl_define elements.zipIdx fun a => PropertyKey.ofIndex_ne_length a.2

end Object

/-! ## Elements in order -/

namespace Properties

variable {t : Properties} {p : Property} {i n m : Nat}

/-- Keys that differ stand for indices that differ. -/
theorem pairwise_elements (ht : (t.map Property.key).Nodup) :
    (elements t).Pairwise fun a b => a.1 ≠ b.1 := by
  refine List.Pairwise.filterMap _ ?_ (List.pairwise_map.mp ht)
  intro p q hne a ha b hb heq
  obtain ⟨i, hi, rfl⟩ := Option.map_eq_some_iff.mp ha
  obtain ⟨j, hj, rfl⟩ := Option.map_eq_some_iff.mp hb
  dsimp only at heq
  exact hne (PropertyKey.arrayIndex?_injective hi (heq ▸ hj))

/-- The elements come in ascending order. -/
theorem pairwise_sortedElements (ht : (t.map Property.key).Nodup) :
    (sortedElements t).Pairwise fun a b => a.1 < b.1 := by
  have hle : (sortedElements t).Pairwise fun a b => a.1 ≤ b.1 := by
    have hsorted := @List.pairwise_mergeSort _ (fun a b : Nat × Property => a.1 ≤ b.1)
      (fun a b c => by simpa using Nat.le_trans) (fun a b => by simpa using Nat.le_total a.1 b.1)
      (elements t)
    exact hsorted.imp of_decide_eq_true
  have hne : (sortedElements t).Pairwise fun a b => a.1 ≠ b.1 :=
    ((List.mergeSort_perm _ _).pairwise_iff Ne.symm).mpr (pairwise_elements ht)
  exact (hle.and hne).imp fun ⟨hle, hne⟩ => Nat.lt_of_le_of_ne hle hne

end Properties

/-! ## Arrays of a heap -/

namespace Heap

variable {h : Heap} {ref : ObjectRef} {o : Object} {n : Nat}

theorem get_of_own {p : Property} {key : PropertyKey} (ho : h.object ref = .ok o)
    (hp : o.own? key = some p) : h.get ref key = .ok p.value := by
  have hwithin (steps : Nat) : h.getWithin key (steps + 1) (some ref) = .ok p.value := by
    simp only [getWithin, ho, bind, Except.bind, hp]
  exact hwithin 9999

/-- The length of an object with a `length` of its own. -/
theorem arrayLength_of_own {p : Property} (ho : h.object ref = .ok o)
    (hp : o.own? .length = some p) :
    h.arrayLength ref = .ok ((Retention.arrayLength? p.value).getD 0) := by
  simp only [arrayLength, get_of_own ho hp, bind, Except.bind]
  exact rfl

/-- The elements of an object whose length lies above every index. -/
theorem arrayElements_of_lt (ho : h.object ref = .ok o) (hlength : h.arrayLength ref = .ok n)
    (hlt : ∀ p ∈ o.properties, ∀ i, p.key.arrayIndex? = some i → i < n) :
    h.arrayElements ref = .ok ((Properties.sortedElements o.properties).map (·.2.value)) := by
  simp only [arrayElements, hlength, ho]
  refine congrArg Except.ok ?_
  rw [← List.filterMap_eq_map]
  refine List.filterMap_congr fun e hmem => ?_
  obtain ⟨hp, hi⟩ := Properties.mem_sortedElements_iff.mp hmem
  exact if_pos (hlt e.2 hp e.1 hi)

theorem arrayLength_of_sized (ho : h.object ref = .ok o) (hs : o.Sized n) :
    h.arrayLength ref = .ok n := by
  obtain ⟨p, hp, hvalue, -⟩ := hs.properties.lookup_length
  rw [arrayLength_of_own ho hp, hvalue, arrayLength?_ofNat hs.properties.le]
  exact rfl

/-- The elements of an array are all its indexed properties, in ascending order. -/
theorem arrayElements_of_sized (ho : h.object ref = .ok o) (hs : o.Sized n) :
    h.arrayElements ref = .ok ((Properties.sortedElements o.properties).map (·.2.value)) :=
  arrayElements_of_lt ho (arrayLength_of_sized ho hs) hs.properties.lt

end Heap
end Retention
