import Retention.Proofs.Heap.Live

/-!
# What a heap's objects lead to

Following every reference, whatever its strength, from the held values leads to
the values discovered from them (`Heap.Discovered`). In a well-formed heap they
are all there (`Heap.WellFormed.has_of_discovered`).
-/

namespace Retention

/-- An object refers to a value, strongly, weakly or jointly with a key. -/
def Object.RefersTo (o : Object) (v : Value) : Prop :=
  o.HoldsStrongly v ∨ o.HoldsWeakly v ∨ ∃ key, o.HoldsJointly key v

theorem Object.RefersTo.mem_stored {o : Object} {v : Value} (hv : o.RefersTo v) :
    v ∈ o.stored := by
  rcases hv with hv | hv | ⟨key, hv⟩
  · exact hv.mem_stored
  · exact hv.mem_stored
  · exact hv.mem_stored.2.1

namespace Heap

/-- The least set that holds the held objects and symbols, and whatever objects
in it refer to. -/
inductive Discovered (h : Heap) (held : List Value) : Identity → Prop where
  | held {i} (hi : i.toValue ∈ held) : h.Discovered held i
  | refers {ref o i} (hr : h.Discovered held (.object ref)) (ho : h.object ref = .ok o)
    (hi : o.RefersTo i.toValue) : h.Discovered held i

variable {h : Heap} {held held' : List Value} {i : Identity}

/-- More held values lead further. -/
theorem Discovered.mono (hi : h.Discovered held i) (hsub : ∀ v ∈ held, v ∈ held') :
    h.Discovered held' i := by
  induction hi with
  | held hi => exact .held (hsub _ hi)
  | refers _ ho hi ih => exact .refers ih ho hi

/-- What is discovered in a well-formed heap is there. -/
theorem WellFormed.has_of_discovered (hw : h.WellFormed)
    (hheld : ∀ v ∈ held, h.isValid v = true) (hi : h.Discovered held i) : h.has i = true := by
  rw [← isValid_of_ofValue (Identity.ofValue_toValue i)]
  cases hi with
  | held hi => exact hheld _ hi
  | refers _ ho hi => exact hw.valid ho _ hi.mem_stored

end Heap
end Retention
