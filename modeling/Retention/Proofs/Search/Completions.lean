import Mathlib.Data.List.Induction
import Mathlib.Data.List.Perm.Basic
import Retention.Proofs.Search.JointIndex

/-!
# Histories of joint indexes

Joint references are added to an index and nodes turn out to be alive, in any order. What
the index resolves, and when, follows from the calls that were made so far.

* `JointIndex.Tracks.fst_settle`: a node resolves the references whose last owner it is, in
  the order in which they were added.
* `JointIndex.Follows.fst_perform`, `JointIndex.Follows.perform`: one call.
* `JointIndex.resolves_once`: any number of calls.
-/

namespace Retention

/-- A call on an index of joint references. -/
inductive JointCall where
  | add (child : NodeId) (owners : List NodeId) (edge : Nat)
  | settle (id : NodeId)
deriving DecidableEq, Repr

/-- The reference that a call adds. -/
def JointCall.added? : JointCall → Option (JointResolution Nat)
  | add child owners edge => some ⟨child, owners, edge⟩
  | settle _ => none

namespace JointIndex

open JointOwnership (resolution advance)

/-! ## The order of what is resolved -/

/-- The places that are listed under a node are in order, and within the index. -/
structure Sorted (x : JointIndex) : Prop where
  sorted : ∀ o, (x.waiting.getD o []).Pairwise (· ≤ ·)
  lt : ∀ o, ∀ i ∈ x.waiting.getD o [], i < x.joints.size

theorem Sorted.empty : Sorted {} where
  sorted := by simp
  lt := by simp

/-- Listing the place after the last keeps lists in order, however often it is listed. -/
theorem pairwise_foldl_listUnder (n : Nat) (pending : List NodeId)
    (waiting : Std.HashMap NodeId (List Nat))
    (hsorted : ∀ o, (waiting.getD o []).Pairwise (· ≤ ·))
    (hle : ∀ o, ∀ i ∈ waiting.getD o [], i ≤ n) (o : NodeId) :
    ((pending.foldl (listUnder n) waiting).getD o []).Pairwise (· ≤ ·) := by
  induction pending generalizing waiting with
  | nil => exact hsorted o
  | cons p rest ih =>
    rw [List.foldl_cons]
    refine ih _ (fun o => ?_) fun o i hi => ?_
    · rw [listUnder, Std.HashMap.getD_insert]
      split
      · refine List.pairwise_append.mpr
          ⟨hsorted p, List.pairwise_singleton _ _, fun i hi k hk => ?_⟩
        rw [List.mem_singleton.mp hk]
        exact hle p i hi
      · exact hsorted o
    · have hmem := (mem_foldl_listUnder n [p] waiting o i).mp hi
      rcases hmem with hold | ⟨rfl, -⟩
      · exact hle o i hold
      · exact Nat.le_refl _

theorem Sorted.add {x : JointIndex} (h : x.Sorted) (alive : NodeId → Bool) (child : NodeId)
    (owners : List NodeId) (edge : Nat) : (x.add alive child owners edge).2.Sorted where
  sorted o := by
    rw [waiting_add]
    exact pairwise_foldl_listUnder _ _ _ h.sorted (fun o i hi => Nat.le_of_lt (h.lt o i hi)) o
  lt o i hi := by
    rw [waiting_add, mem_foldl_listUnder] at hi
    rw [← Array.length_toList, joints_add, List.length_append, List.length_singleton,
      Array.length_toList]
    rcases hi with hi | ⟨rfl, -⟩
    · exact Nat.lt_succ_of_lt (h.lt o i hi)
    · exact Nat.lt_succ_self _

theorem Sorted.settle {x : JointIndex} (h : x.Sorted) (id : NodeId) : (x.settle id).2.Sorted where
  sorted o := by
    show ((x.waiting.erase id).getD o []).Pairwise (· ≤ ·)
    rw [Std.HashMap.getD_erase]
    split
    · exact .nil
    · exact h.sorted o
  lt o i hi := by
    have hi : i ∈ (x.waiting.erase id).getD o [] := hi
    rw [Std.HashMap.getD_erase] at hi
    have hsize : (x.settle id).2.joints.size = x.joints.size := by
      have hlength := congrArg List.length (references_settle x id)
      rwa [references, references, List.length_map, List.length_map, Array.length_toList,
        Array.length_toList] at hlength
    rw [hsize]
    split at hi
    · cases hi
    · exact h.lt o i hi

/-- Where an item comes first among those that yield something, what it yields comes first
too, and an item that yields nothing in its place leaves the rest. -/
theorem filterMap_eq_append_filterMap_set {α β : Type} {f : α → Option β} {l : List α} {i : Nat}
    {a b : α} (ha : l[i]? = some a) (hbefore : ∀ k c, k < i → l[k]? = some c → f c = none)
    (hb : f b = none) : l.filterMap f = (f a).toList ++ (l.set i b).filterMap f := by
  obtain ⟨hlt, hget⟩ := List.getElem?_eq_some_iff.mp ha
  have htake : (l.take i).filterMap f = [] := List.filterMap_eq_nil_iff.mpr fun c hc => by
    obtain ⟨k, hk⟩ := List.mem_iff_getElem?.mp hc
    rw [List.getElem?_take] at hk
    split at hk
    · rename_i hki
      exact hbefore k c hki hk
    · cases hk
  have hsplit : l = l.take i ++ a :: l.drop (i + 1) := by
    rw [← hget, List.getElem_cons_drop, List.take_append_drop]
  have hset : l.set i b = l.take i ++ b :: l.drop (i + 1) := by
    rw [List.set_eq_take_append_cons_drop, if_pos hlt]
  calc
    l.filterMap f = (l.take i ++ a :: l.drop (i + 1)).filterMap f := congrArg _ hsplit
    _ = (f a).toList ++ (l.drop (i + 1)).filterMap f := by
      rw [List.filterMap_append, htake, List.nil_append, List.filterMap_cons]
      cases f a <;> rfl
    _ = (f a).toList ++ (l.set i b).filterMap f := by
      rw [hset, List.filterMap_append, htake, List.nil_append, List.filterMap_cons_none hb]

/-- Visiting places in order resolves what can be resolved in that order, if nothing that is
not visited can be. A place that is listed twice is resolved at the first visit. -/
theorem fst_settleAt (id : NodeId) (is : List Nat) (joints : Array (JointOwnership Nat))
    (hsorted : is.Pairwise (· ≤ ·))
    (hrest : ∀ k j, joints.toList[k]? = some j → k ∉ is → (j.settle id).fire?.1 = none) :
    (settleAt id is joints).1 = joints.toList.filterMap fun j => (j.settle id).fire?.1 := by
  induction is generalizing joints with
  | nil =>
    refine (List.filterMap_eq_nil_iff.mpr fun j hj => ?_).symm
    obtain ⟨k, hk⟩ := List.mem_iff_getElem?.mp hj
    exact hrest k j hk List.not_mem_nil
  | cons i rest ih =>
    obtain ⟨hfirst, hsorted⟩ := List.pairwise_cons.mp hsorted
    unfold settleAt
    split
    · rename_i hi
      refine ih joints hsorted fun k j hj hk => hrest k j hj ?_
      rw [List.mem_cons, not_or]
      refine ⟨fun he => ?_, hk⟩
      rw [he, Array.getElem?_toList, hi] at hj
      cases hj
    · rename_i j hj
      rw [← Array.getElem?_toList] at hj
      have hlt : i < joints.toList.length := (List.getElem?_eq_some_iff.mp hj).1
      -- the places that are left are in order, and the one just visited is done with
      have hother : ∀ k b, (joints.setIfInBounds i (j.advance id)).toList[k]? = some b →
          k ∉ rest → (b.settle id).fire?.1 = none := fun k b hb hk => by
        rw [Array.toList_setIfInBounds, List.getElem?_set] at hb
        split at hb
        · cases hb
          exact JointOwnership.fire?_settle_advance j id
        · rename_i hne
          refine hrest k b hb fun hmem => ?_
          rcases List.mem_cons.mp hmem with he | hmem
          · exact hne he.symm
          · exact hk hmem
      have hbefore : ∀ k b, k < i → joints.toList[k]? = some b → (b.settle id).fire?.1 = none :=
        fun k b hki hb => hrest k b hb fun hmem => by
          rcases List.mem_cons.mp hmem with he | hmem
          · omega
          · have := hfirst k hmem
            omega
      show (j.settle id).fire?.1.toList ++
        (settleAt id rest (joints.setIfInBounds i (j.advance id))).1 = _
      rw [ih _ hsorted hother, Array.toList_setIfInBounds]
      exact (filterMap_eq_append_filterMap_set hj hbefore
        (JointOwnership.fire?_settle_advance j id)).symm

variable {x : JointIndex} {alive : NodeId → Bool}

/-- A node that turns out to be alive resolves the references whose last owner it is, in
the order in which they were added. -/
theorem Tracks.fst_settle (h : x.Tracks alive) (hs : x.Sorted) (id : NodeId) :
    (x.settle id).1 = x.references.filter fun r => r.IsLastOwner alive id := by
  have hrest : ∀ k j, x.joints.toList[k]? = some j → k ∉ x.waiting.getD id [] →
      (j.settle id).fire?.1 = none := fun k j hj hk => by
    rw [← h.advance_of_notMem hj hk]
    exact JointOwnership.fire?_settle_advance j id
  have hyields : ∀ j ∈ x.joints.toList, (j.settle id).fire?.1 =
      Option.guard (fun r => decide (r.IsLastOwner alive id)) j.resolution := fun j hj => by
    refine Option.ext fun r => ?_
    rw [h.fire?_settle hj id r, Option.guard_eq_some_iff, decide_eq_true_eq]
    constructor
    · rintro ⟨rfl, hr⟩
      exact ⟨rfl, hr⟩
    · rintro ⟨rfl, hr⟩
      exact ⟨rfl, hr⟩
  calc
    (x.settle id).1 = x.joints.toList.filterMap fun j => (j.settle id).fire?.1 :=
      fst_settleAt id _ x.joints (hs.sorted id) hrest
    _ = x.joints.toList.filterMap fun j =>
        Option.guard (fun r => decide (r.IsLastOwner alive id)) j.resolution :=
      List.filterMap_congr hyields
    _ = x.references.filter fun r => r.IsLastOwner alive id := by
      rw [← List.filterMap_eq_filter, references, List.filterMap_map]
      rfl

/-- The references that wait are those with an owner that is not alive. -/
theorem Tracks.pending_eq (h : x.Tracks alive) :
    x.pending = x.references.countP fun r => r.owners.any (!alive ·) := by
  rw [JointIndex.pending, ← Array.countP_toList, references, List.countP_map]
  refine List.countP_congr fun j hj => ?_
  rw [JointOwnership.isPending, h.pending j hj]
  simp [resolution]

/-! ## One call -/

/-- Whether a node is among those that calls said to be alive. -/
def settledBy (calls : List JointCall) (id : NodeId) : Bool := decide (.settle id ∈ calls)

/-- The references that calls add. -/
def added (calls : List JointCall) : List (JointResolution Nat) :=
  calls.filterMap JointCall.added?

/-- What a call resolves, and the index after it. The nodes that are alive when a reference
is added are those of the calls made `before`. -/
def perform (x : JointIndex) (before : List JointCall) :
    JointCall → List (JointResolution Nat) × JointIndex
  | .add child owners edge =>
    ((x.add (settledBy before) child owners edge).1.toList,
      (x.add (settledBy before) child owners edge).2)
  | .settle id => x.settle id

/-- What a call should resolve: a reference that it adds, if all the owners are alive
already; or those of the references added before it whose last owner it says to be
alive. -/
def due (before : List JointCall) : JointCall → List (JointResolution Nat)
  | .add child owners edge => if owners.all (settledBy before) then [⟨child, owners, edge⟩] else []
  | .settle id => (added before).filter fun r => r.IsLastOwner (settledBy before) id

/-- An index is what calls made of the empty one. -/
structure Follows (x : JointIndex) (calls : List JointCall) : Prop where
  tracks : x.Tracks (settledBy calls)
  sorted : x.Sorted
  references : x.references = added calls

theorem Follows.empty : Follows {} [] where
  tracks := .empty _
  sorted := .empty
  references := rfl

variable {calls : List JointCall}

theorem settledBy_concat_add (child : NodeId) (owners : List NodeId) (edge : Nat) :
    settledBy (calls ++ [.add child owners edge]) = settledBy calls := by
  funext id
  simp [settledBy]

theorem settledBy_concat_settle (id o : NodeId) :
    settledBy (calls ++ [.settle id]) o = (id == o || settledBy calls o) := by
  rw [Bool.eq_iff_iff, settledBy, settledBy, Bool.or_eq_true, beq_iff_eq, decide_eq_true_eq,
    decide_eq_true_eq, List.mem_append, List.mem_singleton, JointCall.settle.injEq, or_comm]
  exact or_congr_left eq_comm

theorem added_concat_add (child : NodeId) (owners : List NodeId) (edge : Nat) :
    added (calls ++ [.add child owners edge]) = added calls ++ [⟨child, owners, edge⟩] :=
  List.filterMap_append

theorem added_concat_settle (id : NodeId) : added (calls ++ [.settle id]) = added calls := by
  rw [added, List.filterMap_append]
  exact List.append_nil _

/-- A call resolves what it should. -/
theorem Follows.fst_perform (h : x.Follows calls) (call : JointCall) :
    (x.perform calls call).1 = due calls call := by
  cases call with
  | add child owners edge =>
    rw [perform, due, fst_add]
    split <;> rfl
  | settle id =>
    rw [perform, due, ← h.references]
    exact h.tracks.fst_settle h.sorted id

theorem Follows.perform (h : x.Follows calls) (call : JointCall) :
    (x.perform calls call).2.Follows (calls ++ [call]) := by
  cases call with
  | add child owners edge =>
    refine ⟨?_, h.sorted.add _ child owners edge, ?_⟩
    · rw [settledBy_concat_add]
      exact h.tracks.add child owners edge
    · rw [added_concat_add, ← h.references]
      exact references_add x (settledBy calls) child owners edge
  | settle id =>
    refine ⟨h.tracks.settle fun o => settledBy_concat_settle id o, h.sorted.settle id, ?_⟩
    rw [added_concat_settle, ← h.references]
    exact references_settle x id

theorem all_settledBy_of_all (id : NodeId) {owners : List NodeId}
    (h : owners.all (settledBy calls) = true) :
    owners.all (settledBy (calls ++ [.settle id])) = true := by
  rw [List.all_eq_true] at h ⊢
  intro o ho
  rw [settledBy_concat_settle, h o ho, Bool.or_true]

/-- A node is the last owner of what is complete with it and not without it. -/
theorem isLastOwner_iff (r : JointResolution Nat) (id : NodeId) :
    r.IsLastOwner (settledBy calls) id ↔
      r.owners.all (settledBy calls) = false ∧
        r.owners.all (settledBy (calls ++ [.settle id])) = true := by
  simp only [JointResolution.IsLastOwner, List.all_eq_false, List.all_eq_true,
    settledBy_concat_settle, Bool.or_eq_true, beq_iff_eq, Bool.not_eq_true]
  constructor
  · rintro ⟨hmem, hid, hone⟩
    exact ⟨⟨id, hmem, hid⟩, fun o ho => (hone o ho).imp_left Eq.symm⟩
  · rintro ⟨⟨o, ho, hoa⟩, hone⟩
    obtain rfl := (hone o ho).resolve_right (by simp [hoa])
    exact ⟨ho, hoa, fun o' ho' => (hone o' ho').imp_left Eq.symm⟩

/-- What is complete after a call is what was before it, and what the call should resolve. -/
theorem perm_due (calls : List JointCall) (call : JointCall) :
    ((added calls).filter (fun r => r.owners.all (settledBy calls)) ++ due calls call).Perm
      ((added (calls ++ [call])).filter fun r => r.owners.all (settledBy (calls ++ [call]))) := by
  cases call with
  | add child owners edge =>
    rw [added_concat_add, settledBy_concat_add, List.filter_append, due, List.filter_cons,
      List.filter_nil]
  | settle id =>
    have hbefore : ∀ r : JointResolution Nat, r.owners.all (settledBy calls) =
        (r.owners.all (settledBy calls) && r.owners.all (settledBy (calls ++ [.settle id]))) :=
      fun r => by
        cases hr : r.owners.all (settledBy calls) with
        | false => rfl
        | true => rw [all_settledBy_of_all id hr, Bool.and_true]
    have hdue : ∀ r : JointResolution Nat, decide (r.IsLastOwner (settledBy calls) id) =
        (!r.owners.all (settledBy calls) && r.owners.all (settledBy (calls ++ [.settle id]))) :=
      fun r => by
        rw [Bool.eq_iff_iff, decide_eq_true_eq, isLastOwner_iff, Bool.and_eq_true,
          Bool.not_eq_true']
    rw [added_concat_settle, due, List.filter_congr fun r _ => hbefore r,
      List.filter_congr fun r _ => hdue r, ← List.filter_filter, ← List.filter_filter]
    exact List.filter_append_perm _ _

/-! ## Any number of calls -/

/-- What calls resolve, in order, and the index after them, where other calls were made
`before`. -/
def run (x : JointIndex) (before : List JointCall) :
    List JointCall → List (JointResolution Nat) × JointIndex
  | [] => ([], x)
  | call :: rest =>
    ((x.perform before call).1 ++ ((x.perform before call).2.run (before ++ [call]) rest).1,
      ((x.perform before call).2.run (before ++ [call]) rest).2)

theorem fst_run_concat (x : JointIndex) (before calls : List JointCall) (call : JointCall) :
    (x.run before (calls ++ [call])).1 =
      (x.run before calls).1 ++ ((x.run before calls).2.perform (before ++ calls) call).1 := by
  induction calls generalizing x before with
  | nil =>
    show (x.perform before call).1 ++ [] = [] ++ (x.perform (before ++ []) call).1
    rw [List.append_nil, List.append_nil, List.nil_append]
  | cons first rest ih =>
    rw [List.cons_append, run, run, ih, List.append_assoc, List.append_assoc]
    rfl

theorem Follows.run {before : List JointCall} {x : JointIndex} (h : x.Follows before)
    (calls : List JointCall) : (x.run before calls).2.Follows (before ++ calls) := by
  induction calls generalizing x before with
  | nil => rwa [List.append_nil]
  | cons call rest ih =>
    rw [List.append_cons]
    exact ih (h.perform call)

/-- What is resolved is what is complete, each reference as often as it was added. -/
theorem perm_run (calls : List JointCall) :
    ((run {} [] calls).1).Perm
      ((added calls).filter fun r => r.owners.all (settledBy calls)) := by
  induction calls using List.reverseRecOn with
  | nil => exact .nil
  | append_singleton calls call ih =>
    have hfollows : (run {} [] calls).2.Follows calls := Follows.empty.run calls
    rw [fst_run_concat, List.nil_append, hfollows.fst_perform]
    exact (ih.append_right _).trans (perm_due calls call)

/-- What an index resolves in any calls. Whatever was called before, a reference that is
added is resolved at once if all its owners are alive already, and a node resolves those
of the references added so far whose last owner it is: no other owner is missing, however
often the owners are repeated. So of the references added, those whose owners are all
alive were resolved, each once, and the others were not; and as many wait as have an
owner that is not alive. -/
theorem resolves_once (calls : List JointCall) :
    (∀ call, ((run {} [] calls).2.perform calls call).1 = due calls call) ∧
      ((run {} [] calls).1).Perm
        ((added calls).filter fun r => r.owners.all (settledBy calls)) ∧
      (run {} [] calls).2.pending =
        (added calls).countP fun r => r.owners.any (!settledBy calls ·) := by
  have hfollows : (run {} [] calls).2.Follows calls := Follows.empty.run calls
  refine ⟨hfollows.fst_perform, perm_run calls, ?_⟩
  rw [hfollows.tracks.pending_eq, hfollows.references]

end JointIndex
end Retention
