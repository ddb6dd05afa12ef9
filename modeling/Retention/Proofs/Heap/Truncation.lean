import Mathlib.Data.List.Nodup
import Retention.Proofs.Heap.Arrays

/-!
# Truncation, one element at a time

An array is shortened by deleting its elements from the highest index down, up to the
first that cannot be deleted (`Object.setLengthStepwise`). The program looks for that
element first, and drops all elements behind it at once.

* `Properties.truncatedLength_eq_of`: what a truncation stops at.
* `Object.deleteInTurn_spec`: the loop deletes what a truncation drops.
* `Heap.setLength_eq_stepwise`: setting a length is the loop, and keeps everything below
  the length that is reached.
-/

namespace Retention

/-! ## Where a truncation stops -/

namespace Properties

variable {t : Properties} {p q : Property} {key : PropertyKey} {value : Value} {length n i : Nat}

theorem le_blockedLength (length n : Nat) (p : Property) : n ≤ blockedLength length n p := by
  by_cases hp : ∃ i, p.Blocks length i
  · obtain ⟨i, hp⟩ := hp
    rw [blockedLength_of_blocks hp]
    exact Nat.le_max_left n (i + 1)
  · exact Nat.le_of_eq (blockedLength_of_not_blocks (fun i hi => hp ⟨i, hi⟩) n).symm

theorem le_foldl_blockedLength (length n : Nat) (t : Properties) :
    n ≤ t.foldl (blockedLength length) n := by
  induction t generalizing n with
  | nil => exact Nat.le_refl n
  | cons q rest ih => exact Nat.le_trans (le_blockedLength length n q) (ih _)

theorem le_truncatedLength (length : Nat) (t : Properties) : length ≤ truncatedLength length t :=
  le_foldl_blockedLength length length t

theorem lt_foldl_blockedLength (hp : p ∈ t) (hblocks : p.Blocks length i) (n : Nat) :
    i < t.foldl (blockedLength length) n := by
  induction t generalizing n with
  | nil => cases hp
  | cons q rest ih =>
    rw [List.foldl_cons]
    rcases List.mem_cons.mp hp with rfl | hp
    · have hstep : i < blockedLength length n p := by
        rw [blockedLength_of_blocks hblocks]
        exact Nat.le_max_right n (i + 1)
      exact Nat.lt_of_lt_of_le hstep (le_foldl_blockedLength length _ rest)
    · exact ih hp _

/-- A truncation stops behind every element that blocks it. -/
theorem lt_truncatedLength (hp : p ∈ t) (hblocks : p.Blocks length i) :
    i < truncatedLength length t :=
  lt_foldl_blockedLength hp hblocks length

/-- What a truncation stops at: the length or the end of a blocking element, whichever is
the highest. -/
theorem truncatedLength_eq_of (hle : length ≤ n)
    (hattained : n = length ∨ ∃ p ∈ t, ∃ i, p.Blocks length i ∧ n = i + 1)
    (hbound : ∀ p ∈ t, ∀ i, p.Blocks length i → i < n) : truncatedLength length t = n := by
  refine Nat.le_antisymm ?_ ?_
  · rcases truncatedLength_cases length t with heq | ⟨p, hp, i, hblocks, heq⟩
    · rwa [heq]
    · rw [heq]
      exact hbound p hp i hblocks
  · rcases hattained with rfl | ⟨p, hp, i, hblocks, rfl⟩
    · exact le_truncatedLength n t
    · exact lt_truncatedLength hp hblocks

/-! ## Tables that hold each key once -/

theorem erase_eq_filter (ht : (t.map Property.key).Nodup) (key : PropertyKey) :
    erase key t = t.filter (·.key ≠ key) := by
  induction t with
  | nil => rfl
  | cons q rest ih =>
    rw [List.map_cons, List.nodup_cons] at ht
    unfold erase at ih ⊢
    by_cases hq : q.key = key
    · have hrest : ∀ r ∈ rest, decide (r.key ≠ key) = true := fun r hr =>
        decide_eq_true fun hkey => ht.1 (List.mem_map.mpr ⟨r, hr, hkey.trans hq.symm⟩)
      rw [List.eraseP_cons_of_pos (by simpa using hq), List.filter_cons_of_neg (by simpa using hq),
        List.filter_eq_self.mpr hrest]
    · rw [List.eraseP_cons_of_neg (by simpa using hq), List.filter_cons_of_pos (by simpa using hq),
        ih ht.2]

theorem write_eq_map (ht : (t.map Property.key).Nodup) (key : PropertyKey) (value : Value) :
    write key value t = t.map fun q => if q.key = key then { q with value } else q := by
  induction t with
  | nil => rfl
  | cons q rest ih =>
    rw [List.map_cons, List.nodup_cons] at ht
    unfold write
    rw [List.map_cons]
    by_cases hq : q.key = key
    · rw [if_pos hq, if_pos hq]
      refine congrArg _ ((List.map_congr_left fun r hr => ?_).trans (List.map_id rest)).symm
      exact if_neg fun hkey => ht.1 (List.mem_map.mpr ⟨r, hr, hkey.trans hq.symm⟩)
    · rw [if_neg hq, if_neg hq, ih ht.2]

/-- A truncation keeps a table whose elements all lie below. -/
theorem truncate_eq_self (h : ∀ p ∈ t, ∀ i, p.key.arrayIndex? = some i → i < n) :
    truncate n t = t := by
  refine List.filter_eq_self.mpr fun p hp => (Option.all_eq_true _ _).mpr fun i hi => ?_
  exact decide_eq_true (h p hp i hi)

/-- An element that can be deleted does not block a truncation. -/
theorem truncatedLength_erase (ht : (t.map Property.key).Nodup) (hp : p ∈ t)
    (hfree : p.configurable = true) :
    truncatedLength length (erase p.key t) = truncatedLength length t := by
  refine truncatedLength_eq_of (le_truncatedLength length t) ?_ fun q hq i hblocks =>
    lt_truncatedLength (List.mem_of_mem_eraseP hq) hblocks
  refine (truncatedLength_cases length t).imp_right fun ⟨q, hq, i, hblocks, heq⟩ => ?_
  refine ⟨q, mem_erase_of_ne hq fun hkey => ?_, i, hblocks, heq⟩
  have hfixed := hblocks.fixed
  rw [List.inj_on_of_nodup_map ht hq hp hkey, hfree] at hfixed
  cases hfixed

/-- A truncation drops an element at or beyond the length, whether it was deleted before
or not. -/
theorem truncate_erase (ht : (t.map Property.key).Nodup) (hi : key.arrayIndex? = some i)
    (hle : n ≤ i) : truncate n (erase key t) = truncate n t := by
  unfold truncate
  rw [erase_eq_filter ht, List.filter_filter]
  refine List.filter_congr fun p _ => ?_
  by_cases hp : p.key = key
  · have hcut : p.key.arrayIndex?.all (· < n) = false := by
      rw [hp, hi]
      exact decide_eq_false (Nat.not_lt.mpr hle)
    rw [hcut, Bool.false_and]
  · rw [decide_eq_true hp, Bool.and_true]

/-- The indices that are left when an element was deleted. -/
theorem exists_mem_erase_iff (ht : (t.map Property.key).Nodup) (hi : key.arrayIndex? = some i)
    {j : Nat} : (∃ p ∈ erase key t, p.key.arrayIndex? = some j) ↔
      j ≠ i ∧ ∃ p ∈ t, p.key.arrayIndex? = some j := by
  simp only [erase_eq_filter ht, List.mem_filter, decide_eq_true_eq]
  constructor
  · rintro ⟨p, ⟨hp, hne⟩, hj⟩
    refine ⟨fun heq => hne ?_, p, hp, hj⟩
    exact PropertyKey.arrayIndex?_injective (heq ▸ hj) hi
  · rintro ⟨hne, p, hp, hj⟩
    refine ⟨p, ⟨hp, fun hkey => hne ?_⟩, hj⟩
    exact Option.some.inj (hj.symm.trans (hkey ▸ hi))

/-- A truncation does not stop behind the highest element if that can be deleted. -/
theorem truncatedLength_le_of_configurable (ht : (t.map Property.key).Nodup) (hp : p ∈ t)
    (hi : p.key.arrayIndex? = some i) (hfree : p.configurable = true) (hle : length ≤ i)
    (hhighest : ∀ q ∈ t, ∀ j, q.key.arrayIndex? = some j → j ≤ i) :
    truncatedLength length t ≤ i := by
  rcases truncatedLength_cases length t with heq | ⟨q, hq, j, hblocks, heq⟩
  · rwa [heq]
  · rw [heq]
    refine Nat.lt_of_le_of_ne (hhighest q hq j hblocks.index) ?_
    rintro rfl
    have hfixed := hblocks.fixed
    rw [List.inj_on_of_nodup_map ht hq hp
      (PropertyKey.arrayIndex?_injective hblocks.index hi), hfree] at hfixed
    cases hfixed

/-- The table of an array that is cut to a length, or as near to it as its elements allow. -/
def cut (length : Nat) (t : Properties) : Properties :=
  write .length (.number (.ofNat (truncatedLength length t))) (truncate (truncatedLength length t) t)

/-- A table that was cut has its `length` where the truncation stopped. -/
theorem Bounded.cut {bound : Int} (h : Bounded t p bound) (length : Nat) :
    Bounded (cut length t) { p with value := .number (.ofNat (truncatedLength length t)) }
      (truncatedLength length t) :=
  (h.truncate _).write_length _

theorem cut_eq_map (ht : (t.map Property.key).Nodup) (length : Nat) :
    cut length t = (truncate (truncatedLength length t) t).map fun p =>
      if p.key = .length then { p with value := .number (.ofNat (truncatedLength length t)) }
      else p :=
  write_eq_map (ht.sublist (List.filter_sublist.map _)) _ _

end Properties

/-! ## Deletion in turn -/

namespace Properties

/-- The indices in use at or beyond a length, from the highest down. -/
def indicesFrom (length : Nat) (t : Properties) : List Nat :=
  (((sortedElements t).map Prod.fst).filter (length ≤ ·)).reverse

variable {t : Properties} {length i : Nat}

theorem mem_indicesFrom :
    i ∈ indicesFrom length t ↔ length ≤ i ∧ ∃ p ∈ t, p.key.arrayIndex? = some i := by
  unfold indicesFrom
  simp only [List.mem_reverse, List.mem_filter, List.mem_map, Prod.exists, exists_and_right,
    exists_eq_right, mem_sortedElements_iff, decide_eq_true_eq]
  exact and_comm

theorem pairwise_indicesFrom (ht : (t.map Property.key).Nodup) (length : Nat) :
    (indicesFrom length t).Pairwise fun i j => j < i :=
  List.pairwise_reverse.mpr
    ((List.pairwise_map.mpr (pairwise_sortedElements ht)).filter _)

end Properties

namespace Object

/-- Deletes the elements of the given indices one after the other, up to the first that
cannot be deleted, and tells which one that is. -/
def deleteInTurn (o : Object) : List Nat → Option Nat × Object
  | [] => (none, o)
  | i :: rest =>
    let deleted := o.delete (.ofIndex i)
    if deleted.1 then deleteInTurn deleted.2 rest else (some i, o)

/-- Sets an array's length by deleting the elements beyond it, from the highest down. An
element that cannot be deleted ends this: the array then ends behind it. -/
def setLengthStepwise (o : Object) (length : Nat) : Bool × Object :=
  let deleted := o.deleteInTurn (Properties.indicesFrom length o.properties)
  let reached := deleted.1.elim length (· + 1)
  (deleted.1.isNone,
    { deleted.2 with
      properties := Properties.write .length (.number (.ofNat reached)) deleted.2.properties })

/-- The object with another length: its elements below the length and everything that is
no element stay as they are, in their order. -/
def resized (o : Object) (length : Nat) : Object :=
  { o with properties :=
      (o.properties.filter fun p => p.key.arrayIndex?.all (· < length)).map fun p =>
        if p.key = .length then { p with value := .number (.ofNat length) } else p }

variable {o : Object} {p : Property} {indices : List Nat} {length : Nat}

theorem delete_of_configurable {key : PropertyKey} (hp : o.own? key = some p)
    (hfree : p.configurable = true) :
    o.delete key = (true, { o with properties := Properties.erase key o.properties }) := by
  simp [delete, hp, hfree]

theorem delete_of_fixed {key : PropertyKey} (hp : o.own? key = some p)
    (hfixed : p.configurable = false) : o.delete key = (false, o) := by
  simp [delete, hp, hfixed]

/-- Deleting all elements at or beyond a length in turn, from the highest down, comes to a
truncation. -/
theorem deleteInTurn_spec (ho : (o.properties.map Property.key).Nodup)
    (hdown : indices.Pairwise fun i j => j < i)
    (hindices : ∀ i, i ∈ indices ↔ length ≤ i ∧ ∃ p ∈ o.properties, p.key.arrayIndex? = some i) :
    (o.deleteInTurn indices).1.elim length (· + 1) =
        Properties.truncatedLength length o.properties ∧
      (o.deleteInTurn indices).2 = { o with
        properties := Properties.truncate (Properties.truncatedLength length o.properties)
          o.properties } ∧
      ∀ i ∈ (o.deleteInTurn indices).1, length ≤ i := by
  induction indices generalizing o with
  | nil =>
    have hbelow : ∀ p ∈ o.properties, ∀ i, p.key.arrayIndex? = some i → i < length :=
      fun p hp i hi => Nat.lt_of_not_le fun hle =>
        absurd ((hindices i).mpr ⟨hle, p, hp, hi⟩) List.not_mem_nil
    have hreached : Properties.truncatedLength length o.properties = length :=
      Properties.truncatedLength_of_not_blocks fun p hp i hblocks =>
        Nat.not_lt.mpr hblocks.beyond (hbelow p hp i hblocks.index)
    rw [hreached, Properties.truncate_eq_self hbelow]
    exact ⟨rfl, rfl, fun i hi => nomatch hi⟩
  | cons i rest ih =>
    rw [List.pairwise_cons] at hdown
    obtain ⟨hle, p, hp, hpi⟩ := (hindices i).mp List.mem_cons_self
    have hkey : p.key = .ofIndex i := PropertyKey.eq_ofIndex_of_arrayIndex? hpi
    have hown : o.own? (.ofIndex i) = some p := (Properties.lookup_eq_some_iff ho).mpr ⟨hp, hkey⟩
    have hhighest : ∀ q ∈ o.properties, ∀ j, q.key.arrayIndex? = some j → j ≤ i := by
      intro q hq j hj
      by_cases hlength : length ≤ j
      · rcases List.mem_cons.mp ((hindices j).mpr ⟨hlength, q, hq, hj⟩) with rfl | hrest
        · exact Nat.le_refl j
        · exact Nat.le_of_lt (hdown.1 j hrest)
      · omega
    unfold deleteInTurn
    cases hfree : p.configurable with
    | true =>
      -- the loop goes on with a table that is truncated to the same length
      rw [delete_of_configurable hown hfree]
      have hrest : ∀ j, j ∈ rest ↔ length ≤ j ∧
          ∃ q ∈ Properties.erase (.ofIndex i) o.properties, q.key.arrayIndex? = some j := fun j => by
        rw [Properties.exists_mem_erase_iff ho (hkey ▸ hpi), and_left_comm, ← hindices j,
          List.mem_cons]
        exact ⟨fun hj => ⟨Nat.ne_of_lt (hdown.1 j hj), .inr hj⟩, fun ⟨hne, hj⟩ => hj.resolve_left hne⟩
      obtain ⟨hreached, hleft, hbeyond⟩ := ih
        (o := { o with properties := Properties.erase (.ofIndex i) o.properties })
        (ho.sublist (List.eraseP_sublist.map _)) hdown.2 hrest
      have hsame : Properties.truncatedLength length (Properties.erase (.ofIndex i) o.properties) =
          Properties.truncatedLength length o.properties :=
        hkey ▸ Properties.truncatedLength_erase ho hp hfree
      dsimp only at hreached hleft
      rw [hsame] at hreached hleft
      rw [Properties.truncate_erase ho (hkey ▸ hpi)
        (Properties.truncatedLength_le_of_configurable ho hp hpi hfree hle hhighest)] at hleft
      exact ⟨hreached, hleft, hbeyond⟩
    | false =>
      -- the loop ends, and nothing lies beyond the element that ends it
      rw [delete_of_fixed hown hfree]
      have hreached : Properties.truncatedLength length o.properties = i + 1 :=
        Properties.truncatedLength_eq_of (Nat.le_succ_of_le hle)
          (.inr ⟨p, hp, i, ⟨hpi, hfree, hle⟩, rfl⟩) fun q hq j hblocks =>
            Nat.lt_succ_of_le (hhighest q hq j hblocks.index)
      rw [hreached, Properties.truncate_eq_self fun q hq j hj =>
        Nat.lt_succ_of_le (hhighest q hq j hj)]
      exact ⟨rfl, rfl, fun j hj => Option.some.inj hj ▸ hle⟩

/-- Setting a length that can be written. -/
theorem setLength_of_writable (hp : o.own? .length = some p) (hwritable : p.writable = true)
    (ho : (o.properties.map Property.key).Nodup) (length : Nat) :
    o.setLength length = (Properties.truncatedLength length o.properties == length,
      { o with properties := Properties.cut length o.properties }) := by
  have hkept := ((Properties.bounded_of_lookup ho hp).truncate
    (Properties.truncatedLength length o.properties)).lookup
  simp [setLength, hp, hwritable, Properties.writeLength, hkept, Properties.cut]

theorem setLengthStepwise_eq (ho : (o.properties.map Property.key).Nodup) (length : Nat) :
    o.setLengthStepwise length = (Properties.truncatedLength length o.properties == length,
      { o with properties := Properties.cut length o.properties }) := by
  obtain ⟨hreached, hleft, hbeyond⟩ := deleteInTurn_spec ho
    (Properties.pairwise_indicesFrom ho length) fun _ => Properties.mem_indicesFrom
  have hdone : (o.deleteInTurn (Properties.indicesFrom length o.properties)).1.isNone =
      (Properties.truncatedLength length o.properties == length) := by
    rw [← hreached]
    cases hblocked : (o.deleteInTurn (Properties.indicesFrom length o.properties)).1 with
    | none => exact (beq_self_eq_true length).symm
    | some i =>
      have hle := hbeyond i hblocked
      refine (beq_eq_false_iff_ne.mpr ?_).symm
      show i + 1 ≠ length
      omega
  simp only [setLengthStepwise, hdone, hreached, hleft, Properties.cut]

theorem resized_truncatedLength (ho : (o.properties.map Property.key).Nodup) (length : Nat) :
    o.resized (Properties.truncatedLength length o.properties) =
      { o with properties := Properties.cut length o.properties } := by
  rw [Properties.cut_eq_map ho]
  rfl

end Object

namespace Heap

variable {h : Heap} {ref : ObjectRef} {o : Object} {p : Property} {length : Nat}

theorem update_congr {α : Type} (ho : h.object ref = .ok o) {change change' : Object → α × Object}
    (hsame : change o = change' o) : h.update ref change = h.update ref change' := by
  simp only [update, ho, hsame]

/-- An object whose length can be written is cut to a length as if its elements were
deleted in turn, from the highest down to the first that cannot be deleted. It keeps what
lies below the length that is reached, and every length on the way is in range. -/
theorem setLength_eq_stepwise (ho : h.object ref = .ok o)
    (hdistinct : (o.properties.map Property.key).Nodup) (hp : p ∈ o.properties)
    (hkey : p.key = .length) (hwritable : p.writable = true) (hle : length ≤ arrayIndexLimit) :
    h.update ref (·.setLength length) = h.update ref (·.setLengthStepwise length) ∧
      (∃ reached, length ≤ reached ∧ reached ≤ arrayIndexLimit ∧
        h.update ref (·.setLength length) =
          h.update ref fun o => (reached == length, o.resized reached)) ∧
      ∀ q ∈ o.properties, ∀ i, q.key.arrayIndex? = some i → i + 1 ≤ arrayIndexLimit := by
  have hown : o.own? .length = some p := (Properties.lookup_eq_some_iff hdistinct).mpr ⟨hp, hkey⟩
  have hset := Object.setLength_of_writable hown hwritable hdistinct length
  refine ⟨update_congr ho (hset.trans (Object.setLengthStepwise_eq hdistinct length).symm), ?_,
    fun q _ i hi => PropertyKey.arrayIndex?_lt hi⟩
  refine ⟨_, Properties.le_truncatedLength length o.properties,
    Properties.truncatedLength_le hle o.properties, update_congr ho ?_⟩
  rw [hset, Object.resized_truncatedLength hdistinct]

/-- An array with the highest element that there can be, which cannot be deleted, and
elements that can, in no order. -/
def topHeavy : Object where
  prototype? := none
  properties := [{ key := .string "7", value := .bool true },
    { key := .string "4294967294", value := .null, configurable := false },
    { Properties.lengthProperty 4294967295 with configurable := true },
    { key := .string "name", value := .string "top" }, { key := .string "0", value := .null }]
  kind := .array

theorem setLength_eq_stepwise_topHeavy :
    let h : Heap := { slots := #[.object topHeavy] }
    h.update ⟨0⟩ (·.setLength 2) = h.update ⟨0⟩ (·.setLengthStepwise 2) ∧
      (∃ reached, 2 ≤ reached ∧ reached ≤ arrayIndexLimit ∧
        h.update ⟨0⟩ (·.setLength 2) =
          h.update ⟨0⟩ fun o => (reached == 2, o.resized reached)) ∧
      ∀ q ∈ topHeavy.properties, ∀ i, q.key.arrayIndex? = some i → i + 1 ≤ arrayIndexLimit :=
  setLength_eq_stepwise (p := topHeavy.properties[2]) rfl (by decide) (List.getElem_mem _) rfl rfl
    (by decide)

end Heap
end Retention
