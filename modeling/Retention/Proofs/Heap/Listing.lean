import Retention.Heap.Property

/-!
# Properties in the order in which they are listed

A guest lists the elements of an object in ascending order, then its other properties.
Nothing is left out (`Properties.mem_ordered`), and the order is told by the keys
(`Properties.ordered_map`).
-/

namespace Retention.Properties

variable {t : Properties} {p : Property} {i : Nat}

theorem mem_elements_iff : (i, p) ∈ elements t ↔ p ∈ t ∧ p.key.arrayIndex? = some i := by
  unfold elements
  simp only [List.mem_filterMap, Option.map_eq_some_iff, Prod.mk.injEq]
  constructor
  · rintro ⟨q, hq, j, hj, rfl, rfl⟩
    exact ⟨hq, hj⟩
  · rintro ⟨hp, hi⟩
    exact ⟨p, hp, i, hi, rfl, rfl⟩

theorem mem_sortedElements_iff :
    (i, p) ∈ sortedElements t ↔ p ∈ t ∧ p.key.arrayIndex? = some i :=
  (List.mergeSort_perm _ _).mem_iff.trans mem_elements_iff

/-- The properties in the order in which a guest lists them are the properties. -/
theorem mem_ordered : p ∈ ordered t ↔ p ∈ t := by
  have hindices : p ∈ (sortedElements t).map Prod.snd ↔
      p ∈ t ∧ p.key.arrayIndex?.isSome = true := by
    rw [List.mem_map, Option.isSome_iff_exists]
    constructor
    · rintro ⟨⟨i, q⟩, hq, rfl⟩
      obtain ⟨hmem, hi⟩ := mem_sortedElements_iff.mp hq
      exact ⟨hmem, i, hi⟩
    · rintro ⟨hp, i, hi⟩
      exact ⟨(i, p), mem_sortedElements_iff.mpr ⟨hp, hi⟩, rfl⟩
  rw [ordered, List.mem_append, List.mem_append, hindices, List.mem_filter, List.mem_filter,
    ← and_or_left, ← and_or_left]
  refine and_iff_left_of_imp fun _ => ?_
  cases hk : p.key with
  | symbol symbol => exact .inr rfl
  | string name =>
    rw [isName]
    cases PropertyKey.arrayIndex? (.string name) with
    | none => exact .inl (.inr rfl)
    | some i => exact .inl (.inl rfl)

theorem isName_eq (key : PropertyKey) :
    isName key = (!isSymbol key && key.arrayIndex?.isNone) := by
  cases key <;> rfl

/-- The order in which a guest lists properties is told by their keys: which are
indices and which are symbols. -/
theorem ordered_map (f : Property → Property)
    (hindex : ∀ p : Property, (f p).key.arrayIndex? = p.key.arrayIndex?)
    (hsymbol : ∀ p : Property, isSymbol (f p).key = isSymbol p.key) (t : Properties) :
    ordered (t.map f) = (ordered t).map f := by
  have hname : ∀ p : Property, isName (f p).key = isName p.key := fun p => by
    rw [isName_eq, isName_eq, hsymbol, hindex]
  have helements : elements (t.map f) = (elements t).map fun ip => (ip.1, f ip.2) := by
    rw [elements, elements, List.filterMap_map, List.map_filterMap]
    congr 1
    funext p
    simp [hindex, Function.comp_def]
  have hsorted : (sortedElements (t.map f)).map Prod.snd =
      ((sortedElements t).map Prod.snd).map f := by
    rw [sortedElements, helements,
      ← List.map_mergeSort (f := fun ip : Nat × Property => (ip.1, f ip.2)) (fun _ _ _ _ => rfl),
      List.map_map, List.map_map]
    rfl
  rw [ordered, ordered, hsorted, List.map_append, List.map_append, List.filter_map,
    List.filter_map]
  simp only [Function.comp_def, hname, hsymbol]

end Retention.Properties
