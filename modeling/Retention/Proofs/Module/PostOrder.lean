import Mathlib.Data.List.Chain
import Mathlib.Logic.Relation

/-!
# Post-orders

A walk goes depth first over the nodes that are to be visited, each node after
those that it refers to, in their order. A node that was visited before is passed
over, and so is one that the walk is still below of.

* `PostOrder`: the visits of a walk, in order.
* `PostOrder.unique`: there is one walk at most.
* `PostOrder.fresh`, `PostOrder.mem_iff_reachable`: what is visited, once.
* `PostOrder.seen`: what was visited before, and what waits for a visit.
-/

namespace Retention

open Relation

/-- A visit of a node. -/
structure Visit (α : Type) where
  node : α
  /-- The nodes that the walk is below of, innermost first. -/
  above : List α
  /-- The nodes that were visited before, in order. -/
  finished : List α

variable {α : Type} {targets : α → List α} {above finished todo : List α}
  {visits : List (Visit α)}

/-- The visits of a walk, in order, below some nodes and after visits of others. -/
inductive PostOrder (targets : α → List α) :
    (above finished todo : List α) → List (Visit α) → Prop where
  | nil {above finished : List α} : PostOrder targets above finished [] []
  /-- A node is passed over. -/
  | skip {above finished rest : List α} {s : α} {visits : List (Visit α)}
    (passed : s ∈ above ∨ s ∈ finished) (after : PostOrder targets above finished rest visits) :
    PostOrder targets above finished (s :: rest) visits
  /-- A node is visited after what it refers to. -/
  | visit {above finished rest : List α} {s : α} {below later : List (Visit α)}
    (apart : s ∉ above) (new : s ∉ finished)
    (before : PostOrder targets (s :: above) finished (targets s) below)
    (after : PostOrder targets above (finished ++ below.map Visit.node ++ [s]) rest later) :
    PostOrder targets above finished (s :: rest)
      (below ++ ⟨s, above, finished ++ below.map Visit.node⟩ :: later)

/-- Each visit tells what was visited before it. -/
def Visit.Listed : (finished : List α) → List (Visit α) → Prop
  | _, [] => True
  | finished, v :: rest => v.finished = finished ∧ Listed (finished ++ [v.node]) rest

namespace Visit

theorem listed_append {visits later : List (Visit α)} :
    Listed finished (visits ++ later) ↔
      Listed finished visits ∧ Listed (finished ++ visits.map node) later := by
  induction visits generalizing finished with
  | nil => simp [Listed]
  | cons v rest ih => simp [Listed, ih, and_assoc]

end Visit

/-- Visits are of nodes that differ, and not of those that the walk is below of. -/
structure Fresh (above finished : List α) : Prop where
  nodup : finished.Nodup
  apart : ∀ s ∈ above, s ∉ finished

namespace Fresh

variable {s : α}

theorem enter (h : Fresh above finished) (new : s ∉ finished) : Fresh (s :: above) finished :=
  ⟨h.nodup, List.forall_mem_cons.mpr ⟨new, h.apart⟩⟩

theorem leave (h : Fresh (s :: above) finished) (apart : s ∉ above) :
    Fresh above (finished ++ [s]) := by
  obtain ⟨hs, habove⟩ := List.forall_mem_cons.mp h.apart
  refine ⟨List.nodup_append.mpr ⟨h.nodup, List.pairwise_singleton _ s, ?_⟩, fun x hx => ?_⟩
  · intro x hx y hy hxy
    obtain rfl : y = s := List.mem_singleton.mp hy
    exact hs (hxy ▸ hx)
  · have hne : x ≠ s := fun heq => apart (heq ▸ hx)
    simpa [hne] using habove x hx

end Fresh

namespace PostOrder

/-- One walk after another. -/
theorem append {todo' : List α} {visits' : List (Visit α)}
    (h : PostOrder targets above finished todo visits)
    (h' : PostOrder targets above (finished ++ visits.map Visit.node) todo' visits') :
    PostOrder targets above finished (todo ++ todo') (visits ++ visits') := by
  induction h with
  | nil => simpa using h'
  | skip passed after ih => exact .skip passed (ih h')
  | visit apart new before after _ ih =>
    rw [List.append_assoc, List.cons_append, List.cons_append]
    refine .visit apart new before (ih ?_)
    simpa using h'

/-- There is one walk at most. -/
theorem unique {visits' : List (Visit α)} (h : PostOrder targets above finished todo visits)
    (h' : PostOrder targets above finished todo visits') : visits = visits' := by
  induction h generalizing visits' with
  | nil =>
    cases h'
    rfl
  | skip passed after ih =>
    cases h' with
    | skip _ after' => exact ih after'
    | visit apart new _ _ => exact absurd passed (not_or.mpr ⟨apart, new⟩)
  | visit apart new before after ihbefore ihafter =>
    cases h' with
    | skip passed _ => exact absurd passed (not_or.mpr ⟨apart, new⟩)
    | visit _ _ before' after' =>
      obtain rfl := ihbefore before'
      rw [ihafter after']

/-- Each visit tells what was visited before it. -/
theorem listed (h : PostOrder targets above finished todo visits) :
    Visit.Listed finished visits := by
  induction h with
  | nil => trivial
  | skip _ _ ih => exact ih
  | visit _ _ _ _ ihbefore ihafter => exact Visit.listed_append.mpr ⟨ihbefore, rfl, ihafter⟩

/-- No node is visited twice, nor is one that the walk is below of. -/
theorem fresh (h : PostOrder targets above finished todo visits) (hfresh : Fresh above finished) :
    Fresh above (finished ++ visits.map Visit.node) := by
  induction h with
  | nil => simpa using hfresh
  | skip _ _ ih => exact ih hfresh
  | visit apart new _ _ ihbefore ihafter =>
    have hbelow := ihbefore (hfresh.enter new)
    simpa using ihafter (hbelow.leave apart)

/-- What is to be visited is, unless it was passed over. -/
theorem mem_of_mem_todo (h : PostOrder targets above finished todo visits) {s : α}
    (hs : s ∈ todo) : s ∈ above ∨ s ∈ finished ++ visits.map Visit.node := by
  induction h with
  | nil => cases hs
  | skip passed _ ih =>
    cases List.mem_cons.mp hs with
    | inl heq =>
      subst heq
      exact passed.imp_right (List.mem_append_left _)
    | inr hrest => exact ih hrest
  | visit _ _ _ _ _ ihafter =>
    cases List.mem_cons.mp hs with
    | inl heq => simp [heq]
    | inr hrest => simpa [or_assoc] using ihafter hrest

/-- What a node refers to was visited before it, unless the walk is below of it. -/
theorem seen (h : PostOrder targets above finished todo visits) :
    ∀ v ∈ visits, ∀ t ∈ targets v.node, t ∈ v.finished ∨ t ∈ v.node :: v.above := by
  induction h with
  | nil => simp
  | skip _ _ ih => exact ih
  | visit _ _ before _ ihbefore ihafter =>
    intro v hv
    obtain hv | hv | hv := by simpa using hv
    · exact ihbefore v hv
    · subst hv
      exact fun t ht => (before.mem_of_mem_todo ht).symm
    · exact ihafter v hv

/-- What the walk is below of was not visited before. -/
theorem apart (h : PostOrder targets above finished todo visits) (hfresh : Fresh above finished) :
    ∀ v ∈ visits, ∀ s ∈ v.node :: v.above, s ∉ v.finished := by
  induction h with
  | nil => simp
  | skip _ _ ih => exact ih hfresh
  | visit apart new before _ ihbefore ihafter =>
    have hbelow := before.fresh (hfresh.enter new)
    intro v hv
    obtain hv | rfl | hv := by simpa using hv
    · exact ihbefore (hfresh.enter new) v hv
    · exact hbelow.apart
    · exact ihafter (hbelow.leave apart) v hv

/-- The walk goes down along what nodes refer to. -/
theorem chain (h : PostOrder targets above finished todo visits)
    (htodo : ∀ s ∈ todo, List.IsChain (fun s t => s ∈ targets t) (s :: above)) :
    ∀ v ∈ visits, List.IsChain (fun s t => s ∈ targets t) (v.node :: v.above) := by
  induction h with
  | nil => simp
  | skip _ _ ih => exact ih (List.forall_mem_cons.mp htodo).2
  | visit _ _ _ _ ihbefore ihafter =>
    obtain ⟨hs, hrest⟩ := List.forall_mem_cons.mp htodo
    intro v hv
    obtain hv | rfl | hv := by simpa using hv
    · exact ihbefore (fun t ht => .cons_cons ht hs) v hv
    · exact hs
    · exact ihafter hrest v hv

/-- What was visited before a visit, and what the walk is then below of, is visited
by the walk, unless it was there before. -/
theorem mem_of_mem (h : PostOrder targets above finished todo visits) :
    ∀ v ∈ visits, ∀ s ∈ v.node :: v.above ++ v.finished,
      s ∈ above ++ finished ∨ s ∈ visits.map Visit.node := by
  induction h with
  | nil => simp
  | skip _ _ ih => exact ih
  | visit _ _ _ _ ihbefore ihafter =>
    intro v hv s hs
    obtain hv | rfl | hv := by simpa using hv
    · have := ihbefore v hv s hs
      grind
    · grind
    · have := ihafter v hv s hs
      grind

/-- What is visited is reached from what is to be visited. -/
theorem exists_reachable (h : PostOrder targets above finished todo visits) :
    ∀ v ∈ visits, ∃ s ∈ todo, ReflTransGen (fun s t => t ∈ targets s) s v.node := by
  induction h with
  | nil => simp
  | skip _ _ ih =>
    intro v hv
    obtain ⟨s, hs, hreach⟩ := ih v hv
    exact ⟨s, List.mem_cons_of_mem _ hs, hreach⟩
  | @visit _ _ _ start _ _ _ _ _ _ ihbefore ihafter =>
    intro v hv
    obtain hv | rfl | hv := by simpa using hv
    · obtain ⟨t, ht, hreach⟩ := ihbefore v hv
      exact ⟨start, List.mem_cons_self, .head ht hreach⟩
    · exact ⟨start, List.mem_cons_self, .refl⟩
    · obtain ⟨s, hs, hreach⟩ := ihafter v hv
      exact ⟨s, List.mem_cons_of_mem _ hs, hreach⟩

/-- A walk from one node visits the nodes that are reached from there. -/
theorem mem_iff_reachable {start s : α} (h : PostOrder targets [] [] [start] visits) :
    s ∈ visits.map Visit.node ↔ ReflTransGen (fun s t => t ∈ targets s) start s := by
  constructor
  · intro hs
    obtain ⟨v, hv, rfl⟩ := List.mem_map.mp hs
    obtain ⟨s, hs, hreach⟩ := h.exists_reachable v hv
    rwa [List.mem_singleton.mp hs] at hreach
  · intro hreach
    induction hreach with
    | refl =>
      have := h.mem_of_mem_todo (List.mem_singleton_self start)
      simpa using this
    | tail _ ht ih =>
      obtain ⟨v, hv, rfl⟩ := List.mem_map.mp ih
      have hmem := h.mem_of_mem v hv
      obtain ht | ht := h.seen v hv _ ht
      · have := hmem _ (List.mem_append_right _ ht)
        simpa using this
      · have := hmem _ (List.mem_append_left _ ht)
        simpa using this

end PostOrder
end Retention
