import Mathlib.Logic.Function.Basic
import Retention.Guest.Answer
import Retention.Proofs.Heap.Truncation

/-!
# Own properties as an ordered map

To a guest, the own properties of an object are a map that remembers when each key came
in (`PropertyMap`). A property that is replaced keeps its place, and a key that was
deleted comes in again at the end. The keys are listed by what they are: indices by their
value, then the other strings, then symbols, both as they came in (`PropertyMap.Lists`).
A property table holds such a map, in the order of time (`Properties.Holds`).

* `Holds.put`, `Holds.erase`: the operations on tables do what those on maps do.
* `Holds.lists`, `Lists.unique`: the keys of a table are listed as those of its map are.
* `Object.reply_holds`: a call on an object does what it does on the map.
-/

namespace Retention

/-! ## Maps -/

/-- A map from keys to properties, with the time at which each key that is there came in. -/
structure PropertyMap where
  property? : PropertyKey → Option Property
  since : PropertyKey → Nat
  /-- The time that comes next. -/
  now : Nat
  past : ∀ {key}, (property? key).isSome = true → since key < now

/-- A call on the own properties of an object. -/
inductive PropertyCall where
  | define (p : Property)
  | set (key : PropertyKey) (value : Value)
  | delete (key : PropertyKey)
deriving DecidableEq, Repr

namespace PropertyMap

/-- A map without properties. -/
def empty : PropertyMap where
  property? _ := none
  since _ := 0
  now := 0
  past h := nomatch h

variable (m : PropertyMap)

/-- When the key of a property that is put came in: now, if it was not there. -/
def sincePut (p : Property) (key : PropertyKey) : Nat :=
  if key = p.key ∧ m.property? key = none then m.now else m.since key

theorem sincePut_lt {p : Property} {key : PropertyKey}
    (h : (Function.update m.property? p.key (some p) key).isSome = true) :
    m.sincePut p key < m.now + 1 := by
  unfold sincePut
  split
  · exact Nat.lt_succ_self m.now
  · rename_i hthere
    refine Nat.lt_succ_of_lt (m.past ?_)
    by_cases hkey : key = p.key
    · exact Option.isSome_iff_ne_none.mpr fun hnone => hthere ⟨hkey, hnone⟩
    · rwa [Function.update_of_ne hkey] at h

/-- The property takes the place of the one with its key, or else comes in now. -/
def put (p : Property) : PropertyMap where
  property? := Function.update m.property? p.key (some p)
  since := m.sincePut p
  now := m.now + 1
  past := m.sincePut_lt

/-- The map without the property of a key. -/
def remove (key : PropertyKey) : PropertyMap where
  property? := Function.update m.property? key none
  since := m.since
  now := m.now
  past {other} h := by
    by_cases hkey : other = key
    · rw [hkey, Function.update_self] at h
      cases h
    · rw [Function.update_of_ne hkey] at h
      exact m.past h

section

variable {p q : Property} {key other : PropertyKey}

theorem property?_put_self : (m.put p).property? p.key = some p := Function.update_self ..

theorem property?_put_of_ne (hne : key ≠ p.key) : (m.put p).property? key = m.property? key :=
  Function.update_of_ne hne ..

theorem since_put_self (hnew : m.property? p.key = none) : (m.put p).since p.key = m.now :=
  if_pos ⟨rfl, hnew⟩

theorem since_put_of_ne (hne : key ≠ p.key) : (m.put p).since key = m.since key :=
  if_neg fun h => hne h.1

theorem since_put_of_some (hthere : m.property? p.key = some q) :
    (m.put p).since = m.since := by
  refine funext fun key => if_neg ?_
  rintro ⟨rfl, hnew⟩
  exact Option.some_ne_none q (hthere.symm.trans hnew)

theorem property?_remove_self : (m.remove key).property? key = none := Function.update_self ..

theorem property?_remove_of_ne (hne : other ≠ key) :
    (m.remove key).property? other = m.property? other := Function.update_of_ne hne ..

end

/-- What a call answers, and the map that it leaves. -/
def reply : PropertyCall → Answer × PropertyMap
  | .define p => (.unit, m.put p)
  | .set key value =>
    match m.property? key with
    | some p => if p.writable then (.bool true, m.put { p with value }) else (.bool false, m)
    | none => (.bool true, m.put { key, value })
  | .delete key =>
    match m.property? key with
    | some p => if p.configurable then (.bool true, m.remove key) else (.bool false, m)
    | none => (.bool true, m)

/-- What calls answer, one after the other. -/
def answers (m : PropertyMap) : List PropertyCall → List Answer
  | [] => []
  | call :: rest => (m.reply call).1 :: answers (m.reply call).2 rest

/-- The map after some calls. -/
def after (calls : List PropertyCall) : PropertyMap :=
  calls.foldl (fun m call => (m.reply call).2) m

end PropertyMap

/-! ## Listing -/

/-- Indices are listed before the other strings, and those before symbols. -/
def PropertyKey.rank : PropertyKey → Nat
  | string s => if (Retention.arrayIndex? s).isSome then 0 else 1
  | symbol _ => 2

namespace PropertyMap

variable (m : PropertyMap)

/-- An index is listed by its value, another key by when it came in. -/
def place (key : PropertyKey) : Nat := key.arrayIndex?.getD (m.since key)

/-- One key is listed before another. -/
def Precedes (a b : PropertyKey) : Prop :=
  a.rank < b.rank ∨ a.rank = b.rank ∧ m.place a < m.place b

/-- The keys of a map, each once, in the order in which they are listed. -/
structure Lists (keys : List PropertyKey) : Prop where
  complete : ∀ key, key ∈ keys ↔ (m.property? key).isSome = true
  distinct : keys.Nodup
  ascending : keys.Pairwise m.Precedes

variable {m} {keys keys' : List PropertyKey}

/-- A map is listed in one way. -/
theorem Lists.unique (h : m.Lists keys) (h' : m.Lists keys') : keys = keys' := by
  have hperm : keys.Perm keys' := (List.perm_ext_iff_of_nodup h.distinct h'.distinct).mpr
    fun key => (h.complete key).trans (h'.complete key).symm
  refine hperm.eq_of_pairwise (fun a b _ _ hab hba => ?_) h.ascending h'.ascending
  unfold Precedes at hab hba
  omega

end PropertyMap

/-! ## Tables -/

namespace PropertyKey

variable {key : PropertyKey} {i : Nat}

theorem rank_of_index (hi : key.arrayIndex? = some i) : key.rank = 0 := by
  cases key with
  | symbol ref => cases hi
  | string s => exact if_pos (Option.isSome_of_eq_some hi)

theorem rank_of_name (hname : Properties.isName key = true) :
    key.rank = 1 ∧ key.arrayIndex? = none := by
  cases key with
  | symbol ref => cases hname
  | string s =>
    have hnone : Retention.arrayIndex? s = none := Option.isNone_iff_eq_none.mp hname
    exact ⟨if_neg (Option.not_isSome_iff_eq_none.mpr hnone), hnone⟩

theorem rank_of_symbol (hsymbol : Properties.isSymbol key = true) :
    key.rank = 2 ∧ key.arrayIndex? = none := by
  cases key with
  | symbol ref => exact ⟨rfl, rfl⟩
  | string s => cases hsymbol

end PropertyKey

namespace Properties

variable {t : Properties} {m : PropertyMap} {p q : Property} {key : PropertyKey} {value : Value}

/-- A table holds a map: its properties are in the order in which their keys came in. -/
structure Holds (t : Properties) (m : PropertyMap) : Prop where
  found : ∀ key, lookup t key = m.property? key
  ascending : (t.map Property.key).Pairwise fun a b => m.since a < m.since b

theorem Holds.empty : Holds [] .empty where
  found _ := rfl
  ascending := .nil

theorem isSome_lookup_iff : (lookup t key).isSome = true ↔ key ∈ t.map Property.key := by
  simp [lookup, List.find?_isSome]

/-- A property with a new key comes to the end. -/
theorem put_of_lookup_eq_none (hnone : lookup t p.key = none) : put p t = t ++ [p] := by
  have hnew := not_mem_of_lookup_eq_none hnone
  clear hnone
  induction t with
  | nil => rfl
  | cons r rest ih =>
    rw [List.map_cons, List.mem_cons, not_or] at hnew
    rw [put, if_neg (Ne.symm hnew.1), ih hnew.2, List.cons_append]

theorem map_key_put (hthere : p.key ∈ t.map Property.key) :
    (put p t).map Property.key = t.map Property.key := by
  induction t with
  | nil => cases hthere
  | cons r rest ih =>
    unfold put
    split
    · rename_i hr
      rw [List.map_cons, List.map_cons, hr]
    · rename_i hr
      rw [List.map_cons, List.map_cons, ih ((List.mem_cons.mp hthere).resolve_left (Ne.symm hr))]

/-- Writing to a property replaces it by one with another value. -/
theorem write_eq_put (hl : lookup t key = some p) : write key value t = put { p with value } t := by
  obtain ⟨-, hkey⟩ := mem_of_lookup hl
  induction t with
  | nil => cases hl
  | cons r rest ih =>
    unfold lookup at hl ih
    unfold write put
    by_cases hr : r.key = key
    · rw [List.find?_cons_of_pos (by simpa using hr)] at hl
      rw [if_pos hr, if_pos (hr.trans hkey.symm), Option.some.inj hl]
    · rw [List.find?_cons_of_neg (by simpa using hr)] at hl
      rw [if_neg hr, if_neg (hkey ▸ hr), ih hl]

theorem lookup_erase_self (ht : (t.map Property.key).Nodup) (key : PropertyKey) :
    lookup (erase key t) key = none := by
  rw [erase_eq_filter ht]
  simp [lookup]

theorem lookup_erase_of_ne (ht : (t.map Property.key).Nodup) {other : PropertyKey}
    (hne : other ≠ key) : lookup (erase key t) other = lookup t other := by
  rw [erase_eq_filter ht, lookup, List.find?_filter]
  refine congrArg (List.find? · t) (funext fun p => ?_)
  by_cases hp : p.key = other <;> simp [hp, hne]

namespace Holds

variable (h : Holds t m)

include h

theorem distinct : (t.map Property.key).Nodup :=
  h.ascending.imp fun {a b} (hlt : m.since a < m.since b) (heq : a = b) =>
    Nat.lt_irrefl _ (heq ▸ hlt)

theorem isSome_iff (key : PropertyKey) :
    (m.property? key).isSome = true ↔ key ∈ t.map Property.key := by
  rw [← h.found, isSome_lookup_iff]

theorem put (p : Property) : Holds (put p t) (m.put p) where
  found key := by
    by_cases hkey : key = p.key
    · rw [hkey, lookup_put_self, m.property?_put_self]
    · rw [lookup_put_of_ne (Ne.symm hkey), h.found, m.property?_put_of_ne hkey]
  ascending := by
    cases hl : lookup t p.key with
    | some q =>
      -- the keys stay, and so does the time of each
      have hthere := isSome_lookup_iff.mp (Option.isSome_of_eq_some hl)
      rw [map_key_put hthere, m.since_put_of_some (h.found _ ▸ hl)]
      exact h.ascending
    | none =>
      -- the new key comes last, and later than all others
      have hnew := not_mem_of_lookup_eq_none hl
      have hkept : ∀ key ∈ t.map Property.key, (m.put p).since key = m.since key := fun key hkey =>
        m.since_put_of_ne fun heq => hnew (heq ▸ hkey)
      rw [put_of_lookup_eq_none hl, List.map_append, List.map_singleton]
      refine List.pairwise_append.mpr ⟨?_, List.pairwise_singleton _ _, fun a ha b hb => ?_⟩
      · refine h.ascending.imp_of_mem fun {a b} ha hb hlt => ?_
        rwa [hkept a ha, hkept b hb]
      · rw [List.mem_singleton.mp hb, hkept a ha, m.since_put_self (h.found _ ▸ hl)]
        exact m.past ((h.isSome_iff a).mpr ha)

theorem erase (key : PropertyKey) : Holds (erase key t) (m.remove key) where
  found other := by
    by_cases hkey : other = key
    · rw [hkey, lookup_erase_self h.distinct, m.property?_remove_self]
    · rw [lookup_erase_of_ne h.distinct hkey, h.found, m.property?_remove_of_ne hkey]
  ascending := h.ascending.sublist (List.eraseP_sublist.map _)

/-- Keys of one rank that are no indices come in the order of time. -/
theorem pairwise_filter {n : Nat} {belongs : PropertyKey → Bool}
    (hrank : ∀ key, belongs key = true → key.rank = n ∧ key.arrayIndex? = none) :
    ((t.filter (belongs ·.key)).map Property.key).Pairwise m.Precedes := by
  have hsince := h.ascending.sublist ((t.filter_sublist (p := (belongs ·.key))).map Property.key)
  refine hsince.imp_of_mem fun {a b} ha hb hlt => .inr ?_
  obtain ⟨p, hp, rfl⟩ := List.mem_map.mp ha
  obtain ⟨q, hq, rfl⟩ := List.mem_map.mp hb
  obtain ⟨hrankp, hp⟩ := hrank p.key (List.mem_filter.mp hp).2
  obtain ⟨hrankq, hq⟩ := hrank q.key (List.mem_filter.mp hq).2
  rw [hrankp, hrankq, PropertyMap.place, PropertyMap.place, hp, hq]
  exact ⟨rfl, hlt⟩

theorem pairwise_indices :
    (((sortedElements t).map Prod.snd).map Property.key).Pairwise m.Precedes := by
  rw [List.map_map]
  refine List.pairwise_map.mpr ((pairwise_sortedElements h.distinct).imp_of_mem ?_)
  intro a b ha hb hlt
  have hi := (mem_sortedElements_iff.mp ha).2
  have hj := (mem_sortedElements_iff.mp hb).2
  refine .inr ⟨(PropertyKey.rank_of_index hi).trans (PropertyKey.rank_of_index hj).symm, ?_⟩
  simpa [PropertyMap.place, hi, hj] using hlt

theorem pairwise_ordered : ((ordered t).map Property.key).Pairwise m.Precedes := by
  have hindex : ∀ key ∈ ((sortedElements t).map Prod.snd).map Property.key, key.rank = 0 := by
    rintro _ hkey
    obtain ⟨p, hp, rfl⟩ := List.mem_map.mp hkey
    obtain ⟨e, he, rfl⟩ := List.mem_map.mp hp
    exact PropertyKey.rank_of_index (mem_sortedElements_iff.mp he).2
  have hname : ∀ key ∈ (t.filter (isName ·.key)).map Property.key, key.rank = 1 := by
    rintro _ hkey
    obtain ⟨p, hp, rfl⟩ := List.mem_map.mp hkey
    exact (PropertyKey.rank_of_name (List.mem_filter.mp hp).2).1
  have hsymbol : ∀ key ∈ (t.filter (isSymbol ·.key)).map Property.key, key.rank = 2 := by
    rintro _ hkey
    obtain ⟨p, hp, rfl⟩ := List.mem_map.mp hkey
    exact (PropertyKey.rank_of_symbol (List.mem_filter.mp hp).2).1
  rw [ordered, List.map_append, List.map_append]
  refine List.pairwise_append.mpr ⟨List.pairwise_append.mpr ⟨h.pairwise_indices,
    h.pairwise_filter fun _ => PropertyKey.rank_of_name, fun a ha b hb => .inl ?_⟩,
    h.pairwise_filter fun _ => PropertyKey.rank_of_symbol, fun a ha b hb => .inl ?_⟩
  · rw [hindex a ha, hname b hb]
    exact Nat.zero_lt_one
  · rw [hsymbol b hb]
    rcases List.mem_append.mp ha with ha | ha
    · rw [hindex a ha]
      exact Nat.zero_lt_two
    · rw [hname a ha]
      exact Nat.one_lt_two

/-- The keys of a table are listed as those of its map are. -/
theorem lists : m.Lists ((ordered t).map Property.key) where
  complete key := by
    rw [h.isSome_iff, List.mem_map, List.mem_map]
    simp only [mem_ordered]
  distinct := h.pairwise_ordered.imp fun {a b} (hlt : m.Precedes a b) (heq : a = b) => by
    subst heq
    exact hlt.elim (Nat.lt_irrefl _) fun hlt => Nat.lt_irrefl _ hlt.2
  ascending := h.pairwise_ordered

end Holds
end Properties

/-! ## Objects -/

namespace Object

/-- What a call on an object answers, and the object that it leaves. -/
def reply (o : Object) : PropertyCall → Answer × Object
  | .define p => (.unit, o.define p)
  | .set key value => (.bool (o.set key value).1, (o.set key value).2)
  | .delete key => (.bool (o.delete key).1, (o.delete key).2)

variable {o : Object} {m : PropertyMap} {p : Property} {key : PropertyKey} {value : Value}

theorem define_of_not_isArray (ho : o.isArray = false) (p : Property) :
    o.define p = { o with properties := Properties.put p o.properties } := by
  simp [define, ho]

theorem set_of_own (ho : o.isArray = false) (hp : o.own? key = some p) (value : Value) :
    o.set key value = (p.writable, if p.writable then
      { o with properties := Properties.put { p with value } o.properties } else o) := by
  rw [← Properties.write_eq_put hp]
  cases hwritable : p.writable <;> simp [set, ho, hp, hwritable]

theorem set_of_own_eq_none (ho : o.isArray = false) (hnone : o.own? key = none) (value : Value) :
    o.set key value =
      (true, { o with properties := Properties.put { key, value } o.properties }) := by
  simp [set, ho, hnone, define_of_not_isArray ho]

theorem delete_of_own_eq_none (hnone : o.own? key = none) : o.delete key = (true, o) := by
  have hsame : Properties.erase key o.properties = o.properties :=
    List.eraseP_of_forall_not fun p hp hkey => Properties.not_mem_of_lookup_eq_none hnone
      (List.mem_map.mpr ⟨p, hp, beq_iff_eq.mp hkey⟩)
  simp [delete, hnone, hsame]

/-- A call on an object that is no array does what it does on the map that the object
holds, and changes nothing but its properties. -/
theorem reply_holds (ho : o.isArray = false) (h : Properties.Holds o.properties m)
    (call : PropertyCall) :
    (o.reply call).1 = (m.reply call).1 ∧
      ∃ t, Properties.Holds t (m.reply call).2 ∧ (o.reply call).2 = { o with properties := t } := by
  cases call with
  | define p => exact ⟨rfl, _, h.put p, define_of_not_isArray ho p⟩
  | set key value =>
    have hown : o.own? key = m.property? key := h.found key
    cases hp : m.property? key with
    | none =>
      simp only [reply, PropertyMap.reply, hp, set_of_own_eq_none ho (hown.trans hp)]
      exact ⟨trivial, _, h.put _, rfl⟩
    | some p =>
      simp only [reply, PropertyMap.reply, hp, set_of_own ho (hown.trans hp)]
      cases p.writable with
      | true => exact ⟨rfl, _, h.put _, rfl⟩
      | false => exact ⟨rfl, _, h, rfl⟩
  | delete key =>
    have hown : o.own? key = m.property? key := h.found key
    cases hp : m.property? key with
    | none =>
      simp only [reply, PropertyMap.reply, hp, delete_of_own_eq_none (hown.trans hp)]
      exact ⟨trivial, _, h, rfl⟩
    | some p =>
      simp only [reply, PropertyMap.reply, hp]
      cases hfree : p.configurable with
      | true =>
        rw [delete_of_configurable (hown.trans hp) hfree]
        exact ⟨rfl, _, h.erase key, rfl⟩
      | false =>
        rw [delete_of_fixed (hown.trans hp) hfree]
        exact ⟨rfl, _, h, rfl⟩

end Object
end Retention
