import Retention.Proofs.Realm.Collections

/-!
# Association lists

What a collection is to the guest is an association list in the order of insertion.
Two keys are the same if they stand for the same value: the zeros are one key, and
so are the NaNs (`Value.normalKey`, `Value.sameValueZero_iff`). The entries of keyed
collections and the members of sets are kept as such lists.

* `Associations.get?_set_self`, `get?_set_of_ne`, `get?_delete_self`, `get?_delete_of_ne`:
  what is found.
* `Associations.map_fst_set`, `set_delete`: values are replaced in place, and a key
  that was deleted comes back at the end.
* `Entries.associations_insert`, `Members.associations_insert`, …: collections are
  association lists, if they hold each key once.
-/

namespace Retention

/-! ## Keys -/

namespace Number

/-- The number that stands for all numbers that are the same key. -/
def normal (n : Number) : Number := if n.isNaN then nan else if n.isZero then zero else n

variable {a b n : Number}

theorem isNaN_nan : nan.isNaN = true := by decide +kernel

theorem isZero_zero : zero.isZero = true := by decide +kernel

/-- A number that is zero is not a NaN. -/
theorem isNaN_of_isZero (h : n.isZero = true) : n.isNaN = false := by
  unfold isZero at h
  unfold isNaN
  rw [(Bool.and_eq_true_iff.mp h).1]
  rfl

theorem normal_of_isNaN (h : n.isNaN = true) : n.normal = nan := if_pos h

theorem normal_of_isZero (h : n.isZero = true) : n.normal = zero := by
  rw [normal, isNaN_of_isZero h, if_neg Bool.false_ne_true, if_pos h]

theorem normal_of_ne (hnan : n.isNaN = false) (hzero : n.isZero = false) : n.normal = n := by
  rw [normal, hnan, hzero, if_neg Bool.false_ne_true, if_neg Bool.false_ne_true]

theorem isNaN_normal (n : Number) : n.normal.isNaN = n.isNaN := by
  cases hnan : n.isNaN with
  | true => rw [normal_of_isNaN hnan, isNaN_nan]
  | false =>
    cases hzero : n.isZero with
    | true => rw [normal_of_isZero hzero, isNaN_of_isZero isZero_zero]
    | false => rw [normal_of_ne hnan hzero, hnan]

theorem isZero_normal (n : Number) : n.normal.isZero = n.isZero := by
  cases hzero : n.isZero with
  | true => rw [normal_of_isZero hzero, isZero_zero]
  | false =>
    cases hnan : n.isNaN with
    | true =>
      rw [normal_of_isNaN hnan]
      exact Bool.eq_false_iff.mpr fun h => absurd (isNaN_of_isZero h) (by simp [isNaN_nan])
    | false => rw [normal_of_ne hnan hzero, hzero]

theorem sameValueZero_iff : a.sameValueZero b = true ↔ a.normal = b.normal := by
  unfold sameValueZero equal
  constructor
  · intro h
    simp only [Bool.or_eq_true, Bool.and_eq_true, beq_iff_eq] at h
    rcases h with ⟨ha, hb⟩ | ⟨-, rfl | ⟨ha, hb⟩⟩
    · rw [normal_of_isNaN ha, normal_of_isNaN hb]
    · rfl
    · rw [normal_of_isZero ha, normal_of_isZero hb]
  · intro h
    have hnan : a.isNaN = b.isNaN := by rw [← isNaN_normal a, h, isNaN_normal]
    have hzero : a.isZero = b.isZero := by rw [← isZero_normal a, h, isZero_normal]
    cases hb : b.isNaN with
    | true => simp [hnan, hb]
    | false =>
      cases hz : b.isZero with
      | true => simp [hnan, hb, hzero, hz]
      | false =>
        rw [normal_of_ne (hnan.trans hb) (hzero.trans hz), normal_of_ne hb hz] at h
        simp [h, hb]

end Number

namespace Value

/-- The value that stands for all values that are the same key. -/
def normalKey : Value → Value
  | .number n => .number n.normal
  | v => v

theorem sameValueZero_iff {a b : Value} : a.sameValueZero b = true ↔ a.normalKey = b.normalKey := by
  cases a with
  | number n =>
    cases b with
    | number m => simp [sameValueZero, equalBy, normalKey, Number.sameValueZero_iff]
    | _ => simp [sameValueZero, equalBy, normalKey]
  | _ => cases b <;> simp [sameValueZero, equalBy, normalKey]

end Value

/-- A key is stored as it is, except for the zeros, which are stored as the positive one. -/
def storedKey (key : Value) : Value :=
  if key.normalKey = .number .zero then .number .zero else key

theorem storedKey_eq (key : Value) : storedKey key = canonicalKey key := by
  cases key with
  | number n =>
    unfold storedKey canonicalKey
    by_cases hzero : n.isZero = true
    · simp [Value.normalKey, Number.normal_of_isZero hzero, hzero]
    · have hne : n.normal ≠ .zero := fun heq =>
        hzero (by rw [← Number.isZero_normal, heq, Number.isZero_zero])
      simp [Value.normalKey, hne, hzero]
  | _ => rfl

theorem normalKey_storedKey (key : Value) : (storedKey key).normalKey = key.normalKey := by
  unfold storedKey
  split
  · rename_i h
    rw [h, Value.normalKey, Number.normal_of_isZero Number.isZero_zero]
  · rfl

theorem normalKey_canonicalKey (key : Value) : (canonicalKey key).normalKey = key.normalKey := by
  rw [← storedKey_eq, normalKey_storedKey]

/-! ## Association lists -/

/-- Keys and values in the order of insertion. -/
abbrev Associations := List (Value × Value)

namespace Associations

/-- Whether an entry is the one of a key. -/
def isKey (key : Value) (e : Value × Value) : Bool := e.1.normalKey = key.normalKey

/-- The value of a key. -/
def get? (l : Associations) (key : Value) : Option Value := (l.find? (isKey key)).map Prod.snd

/-- The entry with another value, if it is the one of the key. -/
def replaced (key value : Value) (e : Value × Value) : Value × Value :=
  if isKey key e then (e.1, value) else e

/-- The value of a key is replaced in place; a new key comes at the end. -/
def set (l : Associations) (key value : Value) : Associations :=
  if l.any (isKey key) then l.map (replaced key value) else l ++ [(storedKey key, value)]

/-- A key is removed. -/
def delete (l : Associations) (key : Value) : Associations := l.filter (!isKey key ·)

/-- Each key is listed once. -/
def Distinct (l : Associations) : Prop := (l.map (·.1.normalKey)).Nodup

variable {l : Associations} {key key' value : Value} {e : Value × Value}

theorem isKey_iff : isKey key e = true ↔ e.1.normalKey = key.normalKey := decide_eq_true_iff

theorem isKey_congr (h : key.normalKey = key'.normalKey) : isKey key = isKey key' := by
  funext e
  rw [isKey, isKey, h]

theorem isKey_canonicalKey (key : Value) : isKey (canonicalKey key) = isKey key :=
  isKey_congr (normalKey_canonicalKey key)

theorem isKey_storedKey (key value : Value) : isKey key (storedKey key, value) = true :=
  isKey_iff.mpr (normalKey_storedKey key)

/-- Another key is not that of the entry. -/
theorem isKey_eq_false (h : isKey key e = true) (hne : key'.normalKey ≠ key.normalKey) :
    isKey key' e = false :=
  Bool.eq_false_iff.mpr fun h' => hne ((isKey_iff.mp h').symm.trans (isKey_iff.mp h))

theorem fst_replaced (key value : Value) (e : Value × Value) : (replaced key value e).1 = e.1 := by
  unfold replaced
  split <;> rfl

theorem replaced_of_ne (h : isKey key e = false) : replaced key value e = e := by
  rw [replaced, h, if_neg Bool.false_ne_true]

theorem isKey_comp_replaced (key' key value : Value) :
    isKey key' ∘ replaced key value = isKey key' := by
  funext e
  rw [Function.comp, isKey, fst_replaced, isKey]

theorem replaced_canonicalKey (key value : Value) :
    replaced (canonicalKey key) value = replaced key value := by
  funext e
  rw [replaced, isKey_canonicalKey, replaced]

theorem get?_canonicalKey (l : Associations) (key : Value) :
    get? l (canonicalKey key) = get? l key := by
  rw [get?, isKey_canonicalKey, get?]

theorem isSome_get? (l : Associations) (key : Value) :
    (get? l key).isSome = l.any (isKey key) := by
  rw [get?, Option.isSome_map, List.isSome_find?]

/-- The value set last is the one found, under every key that is the same. -/
theorem get?_set_self (l : Associations) (key value : Value) :
    get? (set l key value) key = some value := by
  unfold set
  split
  · rename_i hany
    rw [← isSome_get?, get?, Option.isSome_map] at hany
    obtain ⟨e, he⟩ := Option.isSome_iff_exists.mp hany
    have hkey : isKey key e = true := List.find?_some he
    simp [get?, List.find?_map, isKey_comp_replaced, he, replaced, hkey]
  · rename_i hany
    have hnone : l.find? (isKey key) = none := by simpa using hany
    simp [get?, List.find?_append, hnone, isKey_storedKey]

/-- Other keys keep their values. -/
theorem get?_set_of_ne (hne : key'.normalKey ≠ key.normalKey) (l : Associations) (value : Value) :
    get? (set l key value) key' = get? l key' := by
  unfold set
  split
  · rw [get?, List.find?_map, isKey_comp_replaced, get?, Option.map_map]
    cases hfound : l.find? (isKey key') with
    | none => rfl
    | some e =>
      have hkey : isKey key' e = true := List.find?_some hfound
      simp [replaced_of_ne (isKey_eq_false hkey hne.symm)]
  · simp [get?, List.find?_append, isKey_eq_false (isKey_storedKey key value) hne]

theorem get?_delete_self (l : Associations) (key : Value) : get? (delete l key) key = none := by
  simp [get?, delete]

theorem get?_delete_of_ne (hne : key'.normalKey ≠ key.normalKey) (l : Associations) :
    get? (delete l key) key' = get? l key' := by
  rw [get?, delete, List.find?_filter]
  refine congrArg (fun p => (l.find? p).map Prod.snd) (funext fun e => ?_)
  cases hkey : isKey key' e with
  | true => simp [isKey_eq_false hkey hne.symm]
  | false => simp

/-- A key that is there stays in its place. -/
theorem map_fst_set (h : l.any (isKey key) = true) (value : Value) :
    (set l key value).map Prod.fst = l.map Prod.fst := by
  rw [set, if_pos h, List.map_map]
  exact List.map_congr_left fun e _ => fst_replaced key value e

/-- A key that was deleted comes back at the end. -/
theorem set_delete (l : Associations) (key value : Value) :
    set (delete l key) key value = delete l key ++ [(storedKey key, value)] := by
  rw [set, ← isSome_get?, get?_delete_self]
  exact if_neg Bool.false_ne_true

/-! ## Keys that differ -/

theorem distinct_nil : Distinct [] := .nil

theorem Distinct.delete (h : Distinct l) (key : Value) : Distinct (delete l key) :=
  h.sublist (List.filter_sublist.map _)

theorem Distinct.set (h : Distinct l) (key value : Value) : Distinct (set l key value) := by
  unfold Distinct at h ⊢
  by_cases hkey : l.any (isKey key) = true
  · have hkeys := congrArg (List.map Value.normalKey) (map_fst_set hkey value)
    rw [List.map_map, List.map_map] at hkeys
    exact hkeys.symm ▸ h
  · rw [Associations.set, if_neg hkey, List.map_append, List.map_singleton]
    refine List.nodup_append.mpr ⟨h, List.pairwise_singleton _ _, fun k hk k' hk' heq => hkey ?_⟩
    obtain ⟨e, he, rfl⟩ := List.mem_map.mp hk
    rw [List.mem_singleton.mp hk', normalKey_storedKey] at heq
    exact List.any_eq_true.mpr ⟨e, he, isKey_iff.mpr heq⟩

/-- Behind the entry of a key there is no other. -/
theorem Distinct.isKey_of_mem {rest : Associations} {e' : Value × Value}
    (h : Distinct (e :: rest)) (hkey : isKey key e = true) (he' : e' ∈ rest) :
    isKey key e' = false := by
  refine Bool.eq_false_iff.mpr fun hkey' => (List.nodup_cons.mp h).1 ?_
  exact List.mem_map.mpr ⟨e', he', (isKey_iff.mp hkey').trans (isKey_iff.mp hkey).symm⟩

theorem Distinct.tail {rest : Associations} (h : Distinct (e :: rest)) : Distinct rest :=
  (List.nodup_cons.mp h).2

/-- Where keys differ, the first entry of a key is the only one that is removed. -/
theorem Distinct.eraseP_eq (h : Distinct l) (key : Value) :
    l.eraseP (isKey key) = Associations.delete l key := by
  induction l with
  | nil => rfl
  | cons e rest ih =>
    cases hkey : isKey key e with
    | true =>
      have hrest : rest.filter (!isKey key ·) = rest :=
        List.filter_eq_self.mpr fun e' he' => by rw [h.isKey_of_mem hkey he', Bool.not_false]
      rw [List.eraseP_cons_of_pos hkey, Associations.delete,
        List.filter_cons_of_neg (by rw [hkey]; exact Bool.false_ne_true), hrest]
    | false =>
      rw [List.eraseP_cons_of_neg (by rw [hkey]; exact Bool.false_ne_true), Associations.delete,
        List.filter_cons_of_pos (by rw [hkey]; rfl), ih h.tail]
      exact rfl

end Associations

/-! ## Collections as association lists -/

open Associations (Distinct)

namespace Entries

/-- An entry as a pair. -/
def pair (e : KeyedEntry) : Value × Value := (e.key, e.value)

/-- The entries of a keyed collection, in order. -/
def associations (entries : Sequence KeyedEntry) : Associations := entries.toList.map pair

variable {entries : Sequence KeyedEntry} {key value : Value}

theorem isKey_comp_pair (key : Value) :
    Associations.isKey key ∘ pair = fun e => e.key.sameValueZero key := by
  funext e
  rw [Bool.eq_iff_iff, Value.sameValueZero_iff]
  exact Associations.isKey_iff

theorem get?_associations (entries : Sequence KeyedEntry) (key : Value) :
    (associations entries).get? key = Entries.get? entries key := by
  rw [Associations.get?, associations, List.find?_map, isKey_comp_pair, get?_eq, Option.map_map]
  exact rfl

/-- Where keys differ, the first entry of a key is the only one that is replaced. -/
theorem map_pair_replace {entries : List KeyedEntry} (h : Distinct (entries.map pair))
    (key value : Value) :
    (replace key value entries).map pair =
      (entries.map pair).map (Associations.replaced key value) := by
  induction entries with
  | nil => rfl
  | cons e rest ih =>
    rw [List.map_cons] at h
    have hsame : e.key.sameValueZero key = Associations.isKey key (pair e) :=
      (congrFun (isKey_comp_pair key) e).symm
    rw [replace, hsame, List.map_cons, List.map_cons]
    cases hkey : Associations.isKey key (pair e) with
    | true =>
      have hrest : (rest.map pair).map (Associations.replaced key value) = rest.map pair := by
        refine List.map_congr_left (g := id) (fun e' he' => ?_) |>.trans (List.map_id _)
        exact Associations.replaced_of_ne (h.isKey_of_mem hkey he')
      rw [hrest, Associations.replaced, hkey, if_pos rfl, if_pos rfl]
      exact rfl
    | false =>
      rw [Associations.replaced_of_ne hkey, ← ih h.tail, if_neg Bool.false_ne_true]
      exact rfl

/-- A key that is stored is told by the same entries. -/
theorem associations_insert (h : Distinct (associations entries)) (key value : Value) :
    associations (insert entries (canonicalKey key) value) =
      (associations entries).set key value := by
  have hany : (associations entries).any (Associations.isKey key) =
      (find? entries (canonicalKey key)).isSome := by
    rw [← Associations.isSome_get?, ← Associations.get?_canonicalKey, get?_associations, get?,
      Option.isSome_map]
  rw [Associations.set, hany, insert]
  cases hfound : find? entries (canonicalKey key) with
  | some e =>
    rw [← Associations.replaced_canonicalKey]
    exact (congrArg (List.map pair) (Sequence.toList_ofList _)).trans (map_pair_replace h _ value)
  | none =>
    rw [storedKey_eq, associations, Sequence.toList_push, List.map_append]
    exact rfl

/-- Keys that differ are listed once each. -/
theorem distinct_associations (h : CollectionKeys (entries.toList.map KeyedEntry.key)) :
    Distinct (associations entries) := by
  rw [Distinct, associations, List.map_map, List.Nodup, List.pairwise_map]
  refine (List.pairwise_map.mp h.distinct).imp fun hne heq => ?_
  exact absurd (Value.sameValueZero_iff.mpr heq) (Bool.eq_false_iff.mp hne)

theorem associations_erase (h : Distinct (associations entries)) (key : Value) :
    associations (erase entries key) = (associations entries).delete key := by
  rw [← h.eraseP_eq, associations, associations, erase, Sequence.toList_ofList, List.eraseP_map,
    isKey_comp_pair]

end Entries

namespace Members

/-- A member as a key without a value. -/
def pair (v : Value) : Value × Value := (v, .undefined)

/-- The members of a set, in order. -/
def associations (values : Sequence Value) : Associations := values.toList.map pair

variable {values : Sequence Value} {v : Value}

theorem isKey_comp_pair (key : Value) : Associations.isKey key ∘ pair = (·.sameValueZero key) := by
  funext v
  rw [Bool.eq_iff_iff, Value.sameValueZero_iff]
  exact Associations.isKey_iff

theorem any_associations (values : Sequence Value) (v : Value) :
    (associations values).any (Associations.isKey v) = contains values v := by
  rw [associations, List.any_map, isKey_comp_pair, Sequence.any_toList, contains]

theorem isSome_get?_associations (values : Sequence Value) (v : Value) :
    ((associations values).get? v).isSome = contains values v := by
  rw [Associations.isSome_get?, any_associations]

/-- A member that is there already stays as it is. -/
theorem associations_insert (values : Sequence Value) (v : Value) :
    associations (insert values (canonicalKey v)) = (associations values).set v .undefined := by
  have hany : (associations values).any (Associations.isKey v) =
      contains values (canonicalKey v) := by
    rw [← any_associations, Associations.isKey_canonicalKey]
  rw [Associations.set, hany, insert]
  cases contains values (canonicalKey v) with
  | true =>
    have hkept : (associations values).map (Associations.replaced v .undefined) =
        associations values := by
      rw [associations, List.map_map]
      refine List.map_congr_left fun w _ => ?_
      unfold Function.comp Associations.replaced
      split <;> rfl
    rw [if_pos rfl, if_pos rfl, hkept]
  | false =>
    rw [if_neg Bool.false_ne_true, if_neg Bool.false_ne_true, storedKey_eq, associations,
      Sequence.toList_push, List.map_append]
    exact rfl

/-- Members that differ are listed once each. -/
theorem distinct_associations (h : CollectionKeys values.toList) :
    Distinct (associations values) := by
  rw [Distinct, associations, List.map_map, List.Nodup, List.pairwise_map]
  refine h.distinct.imp fun hne heq => ?_
  exact absurd (Value.sameValueZero_iff.mpr heq) (Bool.eq_false_iff.mp hne)

theorem associations_erase (h : Distinct (associations values)) (v : Value) :
    associations (erase values v) = (associations values).delete v := by
  rw [← h.eraseP_eq, associations, associations, erase, Sequence.toList_ofList, List.eraseP_map,
    isKey_comp_pair]

end Members
end Retention
