import Mathlib.Data.List.Nodup
import Retention.Interning

/-!
# Interners and their ids

An interner gives each value one id, which says the value's kind and its place
among the values (`Interner.Lawful`). Ids stay what they are
(`Interner.id?_intern_of_id?_eq_some`), and two values never share one
(`Interner.Lawful.injective`).
-/

namespace Retention

theorem Identity.ofValue_eq_ok {v : Value} {i : Identity} : ofValue v = .ok i ↔ v = i.toValue := by
  constructor
  · intro h
    cases v <;> cases h <;> rfl
  · rintro rfl
    exact ofValue_toValue i

theorem Identity.toValue_injective {i j : Identity} (h : i.toValue = j.toValue) : i = j := by
  have hi := ofValue_toValue i
  rw [h, ofValue_toValue] at hi
  cases hi
  rfl

namespace Interner

/-- The ids of an interner are the places of its values. -/
def Lawful (t : Interner) : Prop :=
  ∀ v id, t.id? v = some id ↔ t.values.toList[id.index]? = some v ∧ id.kind = v.kind

variable {t : Interner} {v w : Identity} {id : NodeId}

theorem Lawful.empty : Interner.empty.Lawful := fun v id => by simp [Interner.empty, id?]

theorem Lawful.injective (h : t.Lawful) (hv : t.id? v = some id) (hw : t.id? w = some id) :
    v = w := by
  have hv := ((h v id).mp hv).1
  rw [((h w id).mp hw).1] at hv
  exact (Option.some.inj hv).symm

theorem Lawful.mem_values (h : t.Lawful) (hv : t.id? v = some id) : v ∈ t.values.toList :=
  List.mem_of_getElem? ((h v id).mp hv).1

/-- A value has one place. -/
theorem Lawful.nodup (h : t.Lawful) : t.values.toList.Nodup := by
  refine List.nodup_iff_getElem?_ne_getElem?.mpr fun i j hij hj he => ?_
  have hget := List.getElem?_eq_getElem hj
  have hi := (h _ ⟨t.values.toList[j].kind, i⟩).mpr ⟨he.trans hget, rfl⟩
  have hj := (h _ ⟨t.values.toList[j].kind, j⟩).mpr ⟨hget, rfl⟩
  rw [hi] at hj
  cases hj
  exact Nat.lt_irrefl _ hij

theorem intern_of_some (h : t.id? v = some id) : t.intern v = (id, t) := by
  unfold intern
  rw [h]

theorem intern_of_none (h : t.id? v = none) :
    t.intern v = (⟨v.kind, t.size⟩, ⟨t.ids.insert v ⟨v.kind, t.size⟩, t.values.push v⟩) := by
  unfold intern
  rw [h]

/-- Values keep their ids. -/
theorem id?_intern_of_id?_eq_some (hw : t.id? w = some id) : (t.intern v).2.id? w = some id := by
  cases hv : t.id? v with
  | some id' => rwa [intern_of_some hv]
  | none =>
    rw [intern_of_none hv]
    have hne : (v == w) = false := beq_eq_false_iff_ne.mpr fun he => by rw [he, hw] at hv; cases hv
    rw [id?, Std.HashMap.getElem?_insert, hne, if_neg Bool.false_ne_true]
    exact hw

theorem Lawful.intern (h : t.Lawful) (v : Identity) : (t.intern v).2.Lawful := by
  cases hv : t.id? v with
  | some id' => rwa [intern_of_some hv]
  | none =>
    rw [intern_of_none hv]
    intro w id
    rw [id?, Std.HashMap.getElem?_insert, Array.toList_push, List.getElem?_append]
    by_cases hw : v = w
    · subst hw
      rw [if_pos BEq.rfl, Option.some.injEq]
      constructor
      · rintro rfl
        exact ⟨by simp [size], rfl⟩
      · rintro ⟨hget, hk⟩
        split at hget
        · rw [(h v id).mpr ⟨hget, hk⟩] at hv
          cases hv
        · have hlt := (List.getElem?_eq_some_iff.mp hget).1
          obtain ⟨kind, index⟩ := id
          simp only [List.length_singleton, Array.length_toList] at *
          rw [NodeId.mk.injEq]
          exact ⟨hk.symm, by unfold size; omega⟩
    · rw [beq_eq_false_iff_ne.mpr hw, if_neg Bool.false_ne_true]
      refine (h w id).trans (and_congr_left fun _ => ⟨fun hget => ?_, fun hget => ?_⟩)
      · rw [if_pos (List.getElem?_eq_some_iff.mp hget).1]
        exact hget
      · split at hget
        · exact hget
        · have := List.mem_of_getElem? hget
          exact absurd (List.mem_singleton.mp this).symm hw

end Interner
end Retention
