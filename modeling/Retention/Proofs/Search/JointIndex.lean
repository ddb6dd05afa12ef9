import Mathlib.Tactic.Tauto
import Retention.Search.JointIndex

/-!
# Joint references and their owners

An index of joint references follows the nodes that turn out to be alive: at
every moment each reference waits for exactly those of its owners that are not
alive yet, and has been resolved if there are none (`JointIndex.Tracks`).

* `JointIndex.fst_add`: a new reference is resolved at once if all its owners
  are alive;
* `JointIndex.Tracks.mem_settle`: a node that turns out to be alive resolves
  the references whose last owner it is;
* `JointIndex.length_settle`: what is resolved is not resolved again.
-/

namespace Retention

namespace JointOwnership

variable {α : Type}

/-- What a joint ownership yields when it is resolved. -/
def resolution (j : JointOwnership α) : JointResolution α := ⟨j.child, j.owners, j.tag⟩

/-- A joint ownership after a node turned out to be alive, resolved if it can be. -/
def advance (j : JointOwnership α) (id : NodeId) : JointOwnership α := (j.settle id).fire?.2

theorem fire?_eq (j : JointOwnership α) :
    j.fire? = (if j.fired = false ∧ j.pending = [] then some j.resolution else none,
      { j with fired := j.fired || j.pending.isEmpty }) := by
  obtain ⟨child, owners, pending, tag, fired⟩ := j
  cases fired <;> cases pending <;> simp [fire?, isPending, resolution]

theorem advance_eq (j : JointOwnership α) (id : NodeId) :
    j.advance id =
      { j with
        pending := j.pending.filter (· != id)
        fired := j.fired || (j.pending.filter (· != id)).isEmpty } := by
  rw [advance, fire?_eq]; rfl

@[simp] theorem resolution_advance (j : JointOwnership α) (id : NodeId) :
    (j.advance id).resolution = j.resolution := by rw [advance_eq]; rfl

@[simp] theorem advance_advance (j : JointOwnership α) (id : NodeId) :
    (j.advance id).advance id = j.advance id := by
  simp [advance_eq, List.filter_filter]

/-- A node settles a joint ownership once. -/
theorem fire?_settle_advance (j : JointOwnership α) (id : NodeId) :
    ((j.advance id).settle id).fire?.1 = none := by
  rw [fire?_eq, pending_settle, advance_eq]
  simp [settle, List.filter_filter]

/-- A joint ownership that is resolved now was not, and is from now on. -/
theorem length_fire? (j : JointOwnership α) :
    j.fire?.1.toList.length + (if !j.fire?.2.fired then 1 else 0) = if !j.fired then 1 else 0 := by
  obtain ⟨child, owners, pending, tag, fired⟩ := j
  cases fired <;> cases pending <;> simp [fire?_eq]

end JointOwnership

/-- A node is the only owner of a joint reference that is not alive. -/
def JointResolution.IsLastOwner {α : Type} (r : JointResolution α) (alive : NodeId → Bool)
    (id : NodeId) : Prop :=
  id ∈ r.owners ∧ alive id = false ∧ ∀ o ∈ r.owners, o = id ∨ alive o = true

instance {α : Type} (r : JointResolution α) (alive : NodeId → Bool) (id : NodeId) :
    Decidable (r.IsLastOwner alive id) :=
  inferInstanceAs (Decidable (_ ∧ _))

namespace JointIndex

open JointOwnership (resolution advance)

/-- The joint references of an index. -/
def references (x : JointIndex) : List (JointResolution Nat) := x.joints.toList.map resolution

/-- The number of joint references not resolved yet. -/
def unresolved (x : JointIndex) : Nat := x.joints.toList.countP (!·.fired)

/-- Each joint reference waits for the owners that are not alive, is listed
under them, and is resolved if there are none. -/
structure Tracks (x : JointIndex) (alive : NodeId → Bool) : Prop where
  pending : ∀ j ∈ x.joints.toList, j.pending = j.owners.filter (!alive ·)
  fired : ∀ j ∈ x.joints.toList, j.fired = j.pending.isEmpty
  waiting : ∀ i j, x.joints.toList[i]? = some j → ∀ o ∈ j.pending, i ∈ x.waiting.getD o []

theorem Tracks.empty (alive : NodeId → Bool) : Tracks {} alive where
  pending := by simp
  fired := by simp
  waiting := by simp

/-! ## A new joint reference -/

theorem mem_foldl_listUnder (n : Nat) (pending : List NodeId)
    (waiting : Std.HashMap NodeId (List Nat)) (o : NodeId) (i : Nat) :
    i ∈ (pending.foldl (listUnder n) waiting).getD o [] ↔
      i ∈ waiting.getD o [] ∨ i = n ∧ o ∈ pending := by
  induction pending generalizing waiting with
  | nil => simp
  | cons p rest ih =>
    rw [List.foldl_cons, ih, listUnder, Std.HashMap.getD_insert]
    by_cases hp : p = o
    · subst hp
      simp only [BEq.rfl, ↓reduceIte, List.mem_append, List.mem_cons, true_or, and_true]
      tauto
    · simp only [beq_eq_false_iff_ne.mpr hp, Bool.false_eq_true, ↓reduceIte, List.mem_cons,
        Ne.symm hp, false_or]

/-- The joint ownership that a new reference starts as. -/
theorem joints_add (x : JointIndex) (alive : NodeId → Bool) (child : NodeId) (owners : List NodeId)
    (edge : Nat) :
    (x.add alive child owners edge).2.joints.toList =
      x.joints.toList ++
        [{ child, owners, tag := edge, pending := owners.filter (!alive ·)
           fired := (owners.filter (!alive ·)).isEmpty }] := by
  simp [add, JointOwnership.fire?_eq, JointOwnership.new]

theorem fst_add (x : JointIndex) (alive : NodeId → Bool) (child : NodeId) (owners : List NodeId)
    (edge : Nat) :
    (x.add alive child owners edge).1 =
      if owners.all alive then some ⟨child, owners, edge⟩ else none := by
  simp [add, JointOwnership.fire?_eq, JointOwnership.new, resolution]

theorem references_add (x : JointIndex) (alive : NodeId → Bool) (child : NodeId)
    (owners : List NodeId) (edge : Nat) :
    (x.add alive child owners edge).2.references = x.references ++ [⟨child, owners, edge⟩] := by
  simp [references, joints_add, resolution]

/-- A reference that is resolved when it is made is not counted. -/
theorem unresolved_add (x : JointIndex) (alive : NodeId → Bool) (child : NodeId)
    (owners : List NodeId) (edge : Nat) :
    (x.add alive child owners edge).2.unresolved =
      x.unresolved + if owners.all alive then 0 else 1 := by
  rw [unresolved, joints_add, List.countP_append, List.countP_singleton, ← unresolved]
  by_cases ha : owners.all alive <;> simp_all

theorem waiting_add (x : JointIndex) (alive : NodeId → Bool) (child : NodeId)
    (owners : List NodeId) (edge : Nat) :
    (x.add alive child owners edge).2.waiting =
      (owners.filter (!alive ·)).foldl (listUnder x.joints.size) x.waiting := by
  simp [add, JointOwnership.fire?_eq, JointOwnership.new]

theorem Tracks.add {x : JointIndex} {alive : NodeId → Bool} (h : x.Tracks alive) (child : NodeId)
    (owners : List NodeId) (edge : Nat) : (x.add alive child owners edge).2.Tracks alive where
  pending j hj := by
    rw [joints_add, List.mem_append, List.mem_singleton] at hj
    rcases hj with hj | rfl
    · exact h.pending j hj
    · rfl
  fired j hj := by
    rw [joints_add, List.mem_append, List.mem_singleton] at hj
    rcases hj with hj | rfl
    · exact h.fired j hj
    · rfl
  waiting i j hj o ho := by
    rw [waiting_add, mem_foldl_listUnder]
    rw [joints_add] at hj
    by_cases hi : i < x.joints.toList.length
    · rw [List.getElem?_append_left hi] at hj
      exact .inl (h.waiting i j hj o ho)
    · rw [List.getElem?_append_right (by omega), List.getElem?_singleton] at hj
      split at hj
      · obtain rfl := Option.some.inj hj
        exact .inr ⟨by rw [← Array.length_toList]; omega, ho⟩
      · cases hj

/-! ## A node that turns out to be alive -/

theorem getElem?_settleAt (id : NodeId) (is : List Nat) (joints : Array (JointOwnership Nat))
    (k : Nat) :
    (settleAt id is joints).2.toList[k]? =
      if k ∈ is then joints.toList[k]?.map (·.advance id) else joints.toList[k]? := by
  induction is generalizing joints with
  | nil => simp [settleAt]
  | cons i rest ih =>
    unfold settleAt
    split
    · rename_i hi
      rw [ih]
      by_cases hk : k = i
      · subst hk; simp [hi]
      · simp [hk]
    · rename_i j hj
      show (settleAt id rest (joints.setIfInBounds i (j.advance id))).2.toList[k]? = _
      rw [ih, Array.toList_setIfInBounds, List.getElem?_set]
      by_cases hk : i = k
      · subst hk
        obtain ⟨hlt, hget⟩ := Array.getElem?_eq_some_iff.mp hj
        simp [hlt, hget]
      · simp [hk, Ne.symm hk]

/-- What is resolved is a joint ownership among those visited. -/
theorem mem_settleAt (id : NodeId) (is : List Nat) (joints : Array (JointOwnership Nat))
    (r : JointResolution Nat) :
    r ∈ (settleAt id is joints).1 ↔
      ∃ i ∈ is, ∃ j, joints.toList[i]? = some j ∧ (j.settle id).fire?.1 = some r := by
  induction is generalizing joints with
  | nil => simp [settleAt]
  | cons i rest ih =>
    unfold settleAt
    split
    · rename_i hi
      rw [ih]
      simp [hi]
    · rename_i j hj
      show r ∈ (j.settle id).fire?.1.toList ++
        (settleAt id rest (joints.setIfInBounds i (j.advance id))).1 ↔ _
      obtain ⟨hlt, hget⟩ := Array.getElem?_eq_some_iff.mp hj
      rw [List.mem_append, ih, Array.toList_setIfInBounds]
      constructor
      · rintro (h | ⟨k, hk, j', hj', h⟩)
        · exact ⟨i, List.mem_cons_self, j, by simpa using hj, Option.mem_toList.mp h⟩
        · rw [List.getElem?_set] at hj'
          split at hj'
          · -- the place was visited just before
            simp only [Array.length_toList, hlt, ↓reduceIte, Option.some.injEq] at hj'
            rw [← hj', JointOwnership.fire?_settle_advance] at h
            cases h
          · exact ⟨k, List.mem_cons_of_mem _ hk, j', hj', h⟩
      · rintro ⟨k, hk, j', hj', h⟩
        by_cases hki : i = k
        · subst hki
          simp only [hj, Array.getElem?_toList, Option.some.injEq] at hj'
          exact .inl (Option.mem_toList.mpr (hj' ▸ h))
        · refine .inr ⟨k, (List.mem_cons.mp hk).resolve_left (Ne.symm hki), j', ?_, h⟩
          rwa [List.getElem?_set_ne hki]

theorem length_settleAt (id : NodeId) (is : List Nat) (joints : Array (JointOwnership Nat)) :
    (settleAt id is joints).1.length + (settleAt id is joints).2.toList.countP (!·.fired) =
      joints.toList.countP (!·.fired) := by
  induction is generalizing joints with
  | nil => simp [settleAt]
  | cons i rest ih =>
    unfold settleAt
    split
    · exact ih joints
    · rename_i j hj
      show ((j.settle id).fire?.1.toList ++
          (settleAt id rest (joints.setIfInBounds i (j.advance id))).1).length +
        (settleAt id rest (joints.setIfInBounds i (j.advance id))).2.toList.countP _ = _
      obtain ⟨hlt, hget⟩ := Array.getElem?_eq_some_iff.mp hj
      have hcount := ih (joints.setIfInBounds i (j.advance id))
      rw [Array.toList_setIfInBounds, List.countP_set (by simpa using hlt),
        Array.getElem_toList, hget] at hcount
      have hone : (j.settle id).fire?.1.toList.length + (if !(j.advance id).fired then 1 else 0) =
          if !j.fired then 1 else 0 := JointOwnership.length_fire? (j.settle id)
      have hpos : (!j.fired) = true → 0 < joints.toList.countP (!·.fired) := fun hf =>
        List.countP_pos_iff.mpr ⟨j, by simp [← hget], hf⟩
      rw [List.length_append]
      cases hf : j.fired <;> cases ha : (j.advance id).fired <;>
        simp only [hf, ha, Bool.not_false, Bool.not_true, Bool.false_eq_true, ↓reduceIte,
          forall_const] at hone hcount hpos <;>
        omega

/-- What is resolved is not resolved again. -/
theorem length_settle (x : JointIndex) (id : NodeId) :
    (x.settle id).1.length + (x.settle id).2.unresolved = x.unresolved :=
  length_settleAt id (x.waiting.getD id []) x.joints

theorem getElem?_settle (x : JointIndex) (id : NodeId) (k : Nat) :
    (x.settle id).2.joints.toList[k]? =
      if k ∈ x.waiting.getD id [] then x.joints.toList[k]?.map (·.advance id)
      else x.joints.toList[k]? :=
  getElem?_settleAt id (x.waiting.getD id []) x.joints k

theorem references_settle (x : JointIndex) (id : NodeId) :
    (x.settle id).2.references = x.references := by
  refine List.ext_getElem? fun k => ?_
  rw [references, references, List.getElem?_map, List.getElem?_map, getElem?_settle]
  split
  · cases x.joints.toList[k]? <;> simp
  · rfl

variable {x : JointIndex} {alive : NodeId → Bool}

/-- A joint reference that is not listed under a node does not wait for it. -/
theorem Tracks.advance_of_notMem (h : x.Tracks alive) {id : NodeId} {k : Nat}
    {j : JointOwnership Nat} (hj : x.joints.toList[k]? = some j)
    (hk : k ∉ x.waiting.getD id []) : j.advance id = j := by
  have hp : j.pending.filter (· != id) = j.pending := List.filter_eq_self.mpr fun o ho => by
    rw [bne_iff_ne]
    rintro rfl
    exact hk (h.waiting k j hj o ho)
  have hf := h.fired j (List.mem_of_getElem? hj)
  rw [JointOwnership.advance_eq, hp, ← hf, Bool.or_self]

/-- Every joint reference of the index, after a node turned out to be alive. -/
theorem Tracks.joints_settle (h : x.Tracks alive) (id : NodeId) :
    (x.settle id).2.joints.toList = x.joints.toList.map (·.advance id) := by
  refine List.ext_getElem? fun k => ?_
  rw [getElem?_settle, List.getElem?_map]
  split
  · rfl
  · rename_i hk
    cases hj : x.joints.toList[k]? with
    | none => rfl
    | some j => rw [Option.map_some, h.advance_of_notMem hj hk]

/-- A joint reference is resolved by the node that turns out to be the last of its owners
to be alive. -/
theorem Tracks.fire?_settle (h : x.Tracks alive) {j : JointOwnership Nat}
    (hj : j ∈ x.joints.toList) (id : NodeId) (r : JointResolution Nat) :
    (j.settle id).fire?.1 = some r ↔ j.resolution = r ∧ r.IsLastOwner alive id := by
  have hf : (j.settle id).fired = j.pending.isEmpty := h.fired j hj
  rw [JointOwnership.fire?_eq, hf, JointOwnership.pending_settle, h.pending j hj]
  simp only [List.isEmpty_eq_false_iff_exists_mem, List.mem_filter, Bool.not_eq_eq_eq_not,
    Bool.not_true, List.filter_filter, List.filter_eq_nil_iff, Bool.and_eq_true, bne_iff_ne,
    not_and, Option.ite_none_right_eq_some, Option.some.injEq]
  constructor
  · rintro ⟨⟨⟨o, ho, hoa⟩, hall⟩, rfl⟩
    have hone : ∀ o ∈ j.owners, o = id ∨ alive o = true := fun o ho =>
      or_iff_not_imp_left.mpr fun hne => by simpa using hall o ho hne
    obtain rfl := (hone o ho).resolve_right (by simp [hoa])
    exact ⟨rfl, ho, hoa, hone⟩
  · rintro ⟨rfl, hmem, hid, hone⟩
    refine ⟨⟨⟨id, hmem, hid⟩, fun o ho hne hoa => ?_⟩, rfl⟩
    rw [(hone o ho).resolve_left hne] at hoa
    cases hoa

/-- A node that turns out to be alive resolves the references that it owns and
whose other owners are alive. -/
theorem Tracks.mem_settle (h : x.Tracks alive) {id : NodeId} (hid : alive id = false)
    (r : JointResolution Nat) :
    r ∈ (x.settle id).1 ↔
      r ∈ x.references ∧ id ∈ r.owners ∧ ∀ o ∈ r.owners, o = id ∨ alive o = true := by
  rw [settle, mem_settleAt]
  constructor
  · rintro ⟨k, -, j, hj, hr⟩
    have hj := List.mem_of_getElem? hj
    obtain ⟨rfl, hmem, -, hone⟩ := (h.fire?_settle hj id r).mp hr
    exact ⟨List.mem_map_of_mem hj, hmem, hone⟩
  · rintro ⟨hr, hmem, hone⟩
    obtain ⟨j, hj, rfl⟩ := List.mem_map.mp hr
    obtain ⟨k, hk⟩ := List.mem_iff_getElem?.mp hj
    refine ⟨k, h.waiting k j hk id ?_, j, hk, (h.fire?_settle hj id _).mpr ⟨rfl, hmem, hid, hone⟩⟩
    rw [h.pending j hj, List.mem_filter]
    exact ⟨hmem, by simp [hid]⟩

/-- An index goes on to follow the nodes that are alive. -/
theorem Tracks.settle (h : x.Tracks alive) {id : NodeId} {alive' : NodeId → Bool}
    (ha : ∀ o, alive' o = (id == o || alive o)) : (x.settle id).2.Tracks alive' where
  pending j' hj' := by
    rw [h.joints_settle, List.mem_map] at hj'
    obtain ⟨j, hj, rfl⟩ := hj'
    simp only [JointOwnership.advance_eq, h.pending j hj, List.filter_filter]
    refine List.filter_congr fun o _ => ?_
    rw [ha, Bool.not_or, bne_comm]; rfl
  fired j' hj' := by
    rw [h.joints_settle, List.mem_map] at hj'
    obtain ⟨j, hj, rfl⟩ := hj'
    simp only [JointOwnership.advance_eq, h.fired j hj]
    cases hp : j.pending <;> simp
  waiting k j' hj' o ho := by
    rw [h.joints_settle, List.getElem?_map, Option.map_eq_some_iff] at hj'
    obtain ⟨j, hj, rfl⟩ := hj'
    rw [JointOwnership.advance_eq, List.mem_filter, bne_iff_ne] at ho
    show k ∈ (x.waiting.erase id).getD o []
    rw [Std.HashMap.getD_erase, beq_eq_false_iff_ne.mpr (Ne.symm ho.2)]
    exact h.waiting k j hj o ho.1

end JointIndex
end Retention
