import Mathlib.Data.List.Nodup
import Retention.Proofs.Search.Liveness

/-!
# Confirmations

The resolution that makes a node what it is in the end (`proofOf`) is its first
strong one or, if it has none, its first. The confirmations of a search are
those of the resolutions that have taken effect (`State.Confirms`), although
they are overwritten in place on the way.

The owners of such a resolution have a lower rank than its node
(`Grounded.rank_lt`): nodes are ranked by when they became strongly reached and,
behind all of these, by when they were reached.
-/

namespace Retention.Search

namespace Resolution

/-- The confirmation that a resolution gives, unless its node is held. -/
def confirmation? (r : Resolution) : Option Confirmation :=
  r.edge?.map fun edge => { child := r.child, owners := r.owners, edge, strong := r.strong }

/-- Whether a resolution proves a node. -/
def proves (id : NodeId) (r : Resolution) : Bool := r.child == id

/-- Whether a resolution proves a node strongly. -/
def provesStrongly (id : NodeId) (r : Resolution) : Bool := r.child == id && r.strong

@[simp] theorem proves_iff {id : NodeId} {r : Resolution} : r.proves id = true ↔ r.child = id :=
  beq_iff_eq

@[simp] theorem provesStrongly_iff {id : NodeId} {r : Resolution} :
    r.provesStrongly id = true ↔ r.child = id ∧ r.strong = true := by
  rw [provesStrongly, Bool.and_eq_true, beq_iff_eq]

end Resolution

open Resolution (proves provesStrongly)

/-- The first strong resolution of a node or, if it has none, the first. -/
def proofOf (log : List Resolution) (id : NodeId) : Option Resolution :=
  (log.find? (provesStrongly id)).or (log.find? (proves id))

variable {log : List Resolution} {r : Resolution} {id : NodeId}

theorem proofOf_eq_some (h : proofOf log id = some r) :
    log.find? (provesStrongly id) = some r ∨
      (∀ q ∈ log, q.child = id → q.strong = false) ∧ log.find? (proves id) = some r := by
  rw [proofOf, Option.or_eq_some_iff] at h
  refine h.imp_right fun ⟨hn, hf⟩ => ⟨fun q hq hqc => ?_, hf⟩
  simpa [hqc] using List.find?_eq_none.mp hn q hq

theorem child_of_proofOf (h : proofOf log id = some r) : r.child = id := by
  rcases proofOf_eq_some h with h | ⟨-, h⟩
  · exact (Resolution.provesStrongly_iff.mp (List.find?_some h)).1
  · exact Resolution.proves_iff.mp (List.find?_some h)

theorem mem_of_proofOf (h : proofOf log id = some r) : r ∈ log := by
  rcases proofOf_eq_some h with h | ⟨-, h⟩ <;> exact List.mem_of_find?_eq_some h

theorem exists_proofOf (hr : r ∈ log) : ∃ q, proofOf log r.child = some q := by
  rw [← Option.isSome_iff_exists, proofOf, Option.isSome_or, Bool.or_eq_true]
  exact .inr (List.find?_isSome.mpr ⟨r, hr, by simp⟩)

theorem strong_of_proofOf (h : proofOf log id = some r) :
    r.strong = true ↔ ∃ q ∈ log, q.child = id ∧ q.strong = true := by
  refine ⟨fun hs => ⟨r, mem_of_proofOf h, child_of_proofOf h, hs⟩, fun ⟨q, hq, hqc, hqs⟩ => ?_⟩
  rcases proofOf_eq_some h with h | ⟨hn, -⟩
  · exact (Resolution.provesStrongly_iff.mp (List.find?_some h)).2
  · rw [hn q hq hqc] at hqs; cases hqs

/-! ## A resolution more -/

theorem proofOf_append_of_ne (hne : r.child ≠ id) : proofOf (log ++ [r]) id = proofOf log id := by
  simp [proofOf, List.find?_append, proves, provesStrongly, hne]

/-- The first resolution of a node proves it, and so does the first strong one. -/
theorem proofOf_append_of_new (hnew : (∀ q ∈ log, q.child ≠ r.child) ∨
    r.strong = true ∧ ∀ q ∈ log, q.child = r.child → q.strong = false) :
    proofOf (log ++ [r]) r.child = some r := by
  have hs : log.find? (provesStrongly r.child) = none :=
    List.find?_eq_none.mpr fun q hq hc => by
      obtain ⟨hqc, hqs⟩ := Resolution.provesStrongly_iff.mp hc
      rcases hnew with hn | ⟨-, hn⟩
      · exact hn q hq hqc
      · rw [hn q hq hqc] at hqs; cases hqs
  rw [proofOf, List.find?_append, hs, List.find?_append]
  rcases hnew with hn | ⟨hrs, -⟩
  · have hf : log.find? (proves r.child) = none :=
      List.find?_eq_none.mpr fun q hq => by simpa using hn q hq
    cases hrs : r.strong <;> simp [hf, hrs, proves, provesStrongly]
  · simp [hrs, provesStrongly]

theorem proofOf_append_of_not_new (hr : ∃ q ∈ log, q.child = r.child)
    (hs : r.strong = true → ∃ q ∈ log, q.child = r.child ∧ q.strong = true) :
    proofOf (log ++ [r]) id = proofOf log id := by
  by_cases hid : r.child = id
  · subst hid
    have hf : (log.find? (proves r.child)).isSome = true := by simpa using hr
    obtain ⟨f, hf⟩ := Option.isSome_iff_exists.mp hf
    cases hrs : r.strong with
    | false => simp [proofOf, List.find?_append, hf, hrs, provesStrongly]
    | true =>
      have hg : (log.find? (provesStrongly r.child)).isSome = true := by simpa using hs hrs
      obtain ⟨g, hg⟩ := Option.isSome_iff_exists.mp hg
      simp [proofOf, List.find?_append, hg]
  · exact proofOf_append_of_ne hid

/-! ## Ranks -/

/-- Nodes that are strongly reached come first, in the order of their first
strong resolutions; then all others, in the order of their first resolutions. -/
def rank (log : List Resolution) (id : NodeId) : Nat :=
  if log.any (provesStrongly id) then log.findIdx (provesStrongly id)
  else log.length + log.findIdx (proves id)

theorem Grounded.supportedBy_take (h : Grounded log) {i : Nat} (hr : log[i]? = some r) :
    r.SupportedBy (log.take i) := by
  induction h with
  | nil => simp at hr
  | @snoc log q hlog hq ih =>
    by_cases hi : i < log.length
    · rw [List.getElem?_append_left hi] at hr
      rw [List.take_append_of_le_length (by omega)]
      exact ih hr
    · rw [List.getElem?_append_right (by omega), List.getElem?_singleton] at hr
      split at hr
      · obtain rfl := Option.some.inj hr
        rwa [List.take_append_of_le_length (by omega), List.take_of_length_le (by omega)]
      · cases hr

theorem findIdx_lt_of_mem_take {p : Resolution → Bool} {q : Resolution} {i : Nat}
    (hq : q ∈ log.take i) (hp : p q = true) : log.findIdx p < i := by
  obtain ⟨j, hj⟩ := List.mem_iff_getElem?.mp hq
  rw [List.getElem?_take] at hj
  split at hj
  · rename_i hji
    by_contra hle
    obtain ⟨hlt, rfl⟩ := List.getElem?_eq_some_iff.mp hj
    have hnot := List.not_of_lt_findIdx (show j < log.findIdx p by omega)
    rw [hp] at hnot
    cases hnot
  · cases hj

theorem rank_lt_of_strong {q : Resolution} {i : Nat} (hq : q ∈ log.take i)
    (hqs : q.strong = true) : rank log q.child < i := by
  have hany : log.any (provesStrongly q.child) = true :=
    List.any_eq_true.mpr ⟨q, List.mem_of_mem_take hq, by simp [hqs]⟩
  rw [rank, if_pos hany]
  exact findIdx_lt_of_mem_take hq (by simp [hqs])

theorem rank_lt_of_mem_take {q : Resolution} {i : Nat} (hq : q ∈ log.take i) :
    rank log q.child < log.length + i := by
  rw [rank]
  split
  · rename_i hany
    have := List.findIdx_lt_length.mpr (List.any_eq_true.mp hany)
    omega
  · have := findIdx_lt_of_mem_take (p := proves q.child) hq (by simp)
    omega

/-- The owners of the resolution that proves a node rank below the node. -/
theorem Grounded.rank_lt (h : Grounded log) (hr : proofOf log id = some r) {o : NodeId}
    (ho : o ∈ r.owners) : rank log o < rank log id := by
  rcases proofOf_eq_some hr with hf | ⟨hn, hf⟩
  · -- a strong proof: its owners became strongly reached before it
    have hany : log.any (provesStrongly id) = true :=
      List.any_eq_true.mpr ⟨r, List.mem_of_find?_eq_some hf, List.find?_some hf⟩
    have hs := (Resolution.provesStrongly_iff.mp (List.find?_some hf)).2
    rw [List.find?_eq_getElem?_findIdx] at hf
    obtain ⟨q, hq, rfl, hqs⟩ := h.supportedBy_take hf o ho
    rw [rank.eq_def log id, if_pos hany]
    exact rank_lt_of_strong hq (hqs hs)
  · have hany : ¬log.any (provesStrongly id) = true := by
      simpa using fun q hq hqc => hn q hq hqc
    rw [List.find?_eq_getElem?_findIdx] at hf
    obtain ⟨q, hq, rfl, -⟩ := h.supportedBy_take hf o ho
    rw [rank.eq_def log id, if_neg hany]
    exact rank_lt_of_mem_take hq

/-! ## The confirmations of a search -/

namespace State

variable {s s' : State}

/-- The place of each node's confirmation is known, and there is one for each. -/
def Placed (s : State) : Prop :=
  ∀ (id : NodeId) (i : Nat), s.confirmedAt[id]? = some i ↔
    ∃ c : Confirmation, s.confirmations.toList[i]? = some c ∧ c.child = id

/-- The confirmations are those of the resolutions that have taken effect. Held
nodes are resolved before all others. -/
structure Confirms (s : State) : Prop where
  placed : s.Placed
  heldFirst : s.log.Pairwise fun q r => r.edge? = none → q.edge? = none
  mem_iff : ∀ c, c ∈ s.confirmations.toList ↔
    ∃ r, proofOf s.settled c.child = some r ∧ r.confirmation? = some c

theorem Confirms.init : Confirms {} where
  placed := by simp [Placed]
  heldFirst := .nil
  mem_iff := by simp [settled, log, proofOf]

theorem confirm_of_some {c : Confirmation} {i : Nat} (h : s.confirmedAt[c.child]? = some i) :
    s.confirm c = { s with confirmations := s.confirmations.setIfInBounds i c } := by
  unfold confirm
  rw [h]

theorem confirm_of_none {c : Confirmation} (h : s.confirmedAt[c.child]? = none) :
    s.confirm c =
      { s with
        confirmedAt := s.confirmedAt.insert c.child s.confirmations.size
        confirmations := s.confirmations.push c } := by
  unfold confirm
  rw [h]

theorem Placed.confirm (h : s.Placed) (c : Confirmation) : (s.confirm c).Placed := fun id k => by
  cases hat : s.confirmedAt[c.child]? with
  | some i =>
    obtain ⟨c₀, hc₀, hcc⟩ := (h c.child i).mp hat
    rw [confirm_of_some hat, h id k, Array.toList_setIfInBounds, List.getElem?_set]
    by_cases hik : i = k
    · subst hik
      obtain ⟨hlt, -⟩ := List.getElem?_eq_some_iff.mp hc₀
      rw [if_pos rfl, if_pos hlt, hc₀]
      simp only [Option.some.injEq, exists_eq_left', hcc]
    · rw [if_neg hik]
  | none =>
    rw [confirm_of_none hat, Array.toList_push, Std.HashMap.getElem?_insert, List.getElem?_append]
    by_cases hid : c.child = id
    · subst hid
      rw [if_pos BEq.rfl, Option.some.injEq]
      constructor
      · rintro rfl
        exact ⟨c, by simp, rfl⟩
      · rintro ⟨d, hd, hdc⟩
        split at hd
        · rw [(h c.child k).mpr ⟨d, hd, hdc⟩] at hat; cases hat
        · have hlt := (List.getElem?_eq_some_iff.mp hd).1
          simp only [List.length_singleton, Array.length_toList] at *
          omega
    · rw [beq_eq_false_iff_ne.mpr hid, if_neg Bool.false_ne_true, h id k]
      constructor
      · rintro ⟨d, hd, hdc⟩
        exact ⟨d, by rw [if_pos (List.getElem?_eq_some_iff.mp hd).1]; exact hd, hdc⟩
      · rintro ⟨d, hd, hdc⟩
        split at hd
        · exact ⟨d, hd, hdc⟩
        · obtain rfl : c = d := by
            have := List.mem_of_getElem? hd
            simpa [eq_comm] using this
          exact absurd hdc hid

/-- A node's confirmation takes the place of an earlier one. -/
theorem Placed.mem_confirm (h : s.Placed) (c d : Confirmation) :
    d ∈ (s.confirm c).confirmations.toList ↔
      d = c ∨ d ∈ s.confirmations.toList ∧ d.child ≠ c.child := by
  cases hat : s.confirmedAt[c.child]? with
  | some i =>
    obtain ⟨c₀, hc₀, hcc⟩ := (h c.child i).mp hat
    obtain ⟨hlt, -⟩ := List.getElem?_eq_some_iff.mp hc₀
    rw [confirm_of_some hat, Array.toList_setIfInBounds]
    constructor
    · intro hd
      obtain ⟨k, hk⟩ := List.mem_iff_getElem?.mp hd
      rw [List.getElem?_set] at hk
      split at hk
      · exact .inl (Option.some.inj hk).symm
      · rename_i hne
        refine .inr ⟨List.mem_of_getElem? hk, fun hdc => hne ?_⟩
        rw [(h c.child k).mpr ⟨d, hk, hdc⟩] at hat
        exact (Option.some.inj hat).symm
    · rintro (rfl | ⟨hd, hne⟩)
      · exact List.mem_set hlt _
      · obtain ⟨k, hk⟩ := List.mem_iff_getElem?.mp hd
        refine List.mem_of_getElem? (i := k) ?_
        rwa [List.getElem?_set_ne]
        rintro rfl
        rw [hc₀] at hk
        exact hne (Option.some.inj hk ▸ hcc)
  | none =>
    rw [confirm_of_none hat, Array.toList_push, List.mem_append, List.mem_singleton, or_comm]
    refine or_congr_right ⟨fun hd => ⟨hd, fun hdc => ?_⟩, And.left⟩
    obtain ⟨k, hk⟩ := List.mem_iff_getElem?.mp hd
    rw [(h c.child k).mpr ⟨d, hk, hdc⟩] at hat
    cases hat

/-- A node has one confirmation. -/
theorem Placed.nodup (h : s.Placed) : (s.confirmations.toList.map Confirmation.child).Nodup := by
  rw [List.nodup_iff_getElem?_ne_getElem?]
  intro i j hij hj heq
  obtain ⟨d, hd⟩ : ∃ d, s.confirmations.toList[j]? = some d :=
    ⟨_, List.getElem?_eq_getElem (by simpa using hj)⟩
  rw [List.getElem?_map, List.getElem?_map, hd, Option.map_some, Option.map_eq_some_iff] at heq
  obtain ⟨c, hc, hcd⟩ := heq
  have hci := (h d.child i).mpr ⟨c, hc, hcd⟩
  rw [(h d.child j).mpr ⟨d, hd, rfl⟩] at hci
  exact absurd (Option.some.inj hci) (by omega)

/-- New resolutions that have not taken effect. -/
theorem Confirms.append (h : s.Confirms) (news : List Resolution)
    (hresolved : s.resolved ≤ s.log.length) (hnews : ∀ r ∈ news, r.edge? ≠ none)
    (hlog : s'.log = s.log ++ news) (hr : s'.resolved = s.resolved)
    (hc : s'.confirmations = s.confirmations) (hat : s'.confirmedAt = s.confirmedAt) :
    s'.Confirms where
  placed := by unfold Placed; rw [hc, hat]; exact h.placed
  heldFirst := by
    rw [hlog, List.pairwise_append]
    refine ⟨h.heldFirst, ?_, fun q _ r hr hn => absurd hn (hnews r hr)⟩
    exact List.Pairwise.imp_of_mem (fun _ hr _ hn => absurd hn (hnews _ hr))
      (List.pairwise_of_forall fun _ _ => trivial)
  mem_iff c := by
    rw [hc, settled, hlog, hr, List.take_append_of_le_length hresolved]
    exact h.mem_iff c

/-- A held node, while nothing but held nodes is resolved. -/
theorem Confirms.push (h : s.Confirms) (hresolved : s.resolved ≤ s.log.length)
    (hheld : ∀ q ∈ s.log, q.edge? = none) (r : Resolution) : (s.push r).Confirms where
  placed := h.placed
  heldFirst := by
    rw [push_eq, log_pushAll, List.pairwise_append]
    exact ⟨h.heldFirst, List.pairwise_singleton .., fun q hq _ _ _ => hheld q hq⟩
  mem_iff c := by
    rw [push_eq, settled_pushAll hresolved]
    exact h.mem_iff c

theorem edge?_ne_none_of_mem_propagated {parent : NodeId} {p : Passage}
    (hr : r ∈ s.propagated parent p) : r.edge? ≠ none := by
  unfold propagated at hr
  split at hr
  · rw [List.mem_singleton.mp hr]; simp
  · cases hr

theorem edge?_ne_none_of_mem_tracked {child : NodeId} {owners : List NodeId} {edge : Nat}
    (hr : r ∈ s.tracked child owners edge) : r.edge? ≠ none := by
  unfold tracked at hr
  split at hr
  · rw [List.mem_singleton.mp hr]; simp
  · split at hr
    · rw [List.mem_singleton.mp hr]; simp
    · cases hr

theorem Confirms.propagate (h : s.Confirms) (hresolved : s.resolved ≤ s.log.length)
    (parent : NodeId) (p : Passage) : (s.propagate parent p).Confirms := by
  refine h.append (s.propagated parent p) hresolved
    (fun r => edge?_ne_none_of_mem_propagated) ?_ ?_ ?_ ?_
  all_goals rw [propagate_eq]
  · exact log_pushAll _ _
  all_goals rfl

theorem Confirms.trackJoint (h : s.Confirms) (hresolved : s.resolved ≤ s.log.length)
    (child : NodeId) (owners : List NodeId) (edge : Nat) :
    (s.trackJoint child owners edge).Confirms := by
  refine h.append (s.tracked child owners edge) hresolved
    (fun r => edge?_ne_none_of_mem_tracked) ?_ ?_ ?_ ?_
  all_goals rw [trackJoint_eq]
  · exact log_pushAll _ _
  all_goals rfl

/-- The confirmation of a resolution that takes effect. -/
theorem accept_of_confirmation? {c : Confirmation} (hc : r.confirmation? = some c) :
    (s.accept r).confirmations = (s.confirm c).confirmations ∧
      (s.accept r).confirmedAt = (s.confirm c).confirmedAt := by
  obtain ⟨edge, he, rfl⟩ := Option.map_eq_some_iff.mp hc
  unfold accept confirm
  rw [he]
  cases r.strong <;> simp only [Bool.false_eq_true, ↓reduceIte] <;> split <;> exact ⟨rfl, rfl⟩

theorem accept_of_edge?_eq_none (hr : r.edge? = none) :
    (s.accept r).confirmations = s.confirmations ∧ (s.accept r).confirmedAt = s.confirmedAt := by
  unfold accept
  rw [hr]
  cases r.strong <;> exact ⟨rfl, rfl⟩

/-- Where the resolutions that have taken effect are those of held nodes only,
there are no confirmations. -/
theorem Confirms.eq_nil (h : s.Confirms) (hheld : ∀ q ∈ s.settled, q.edge? = none) :
    s.confirmations.toList = [] := by
  refine List.eq_nil_iff_forall_not_mem.mpr fun c hc => ?_
  obtain ⟨q, hq, hqc⟩ := (h.mem_iff c).mp hc
  rw [Resolution.confirmation?, hheld q (mem_of_proofOf hq)] at hqc
  cases hqc

/-- The confirmations after a resolution that is new took effect. -/
theorem Confirms.mem_accept (h : s.Confirms) (hr : s.resolutions[s.resolved]? = some r)
    (c : Confirmation) :
    c ∈ (s.accept r).confirmations.toList ↔
      r.confirmation? = some c ∨ c ∈ s.confirmations.toList ∧ c.child ≠ r.child := by
  cases hc : r.confirmation? with
  | some d =>
    obtain ⟨edge, -, rfl⟩ := Option.map_eq_some_iff.mp hc
    rw [(accept_of_confirmation? hc).1, h.placed.mem_confirm, Option.some.injEq, eq_comm]
  | none =>
    -- a held node: only held nodes were resolved before it
    have hedge : r.edge? = none := Option.map_eq_none_iff.mp hc
    have hnil := h.eq_nil fun q hq => by
      have hr' : s.log[s.resolved]? = some r := by simpa [log] using hr
      obtain ⟨i, hi, rfl⟩ := List.mem_iff_getElem.mp hq
      obtain ⟨hlt, hget⟩ := List.getElem?_eq_some_iff.mp hr'
      have hil : i < s.log.length ∧ i < s.resolved := by
        have := hi
        simp only [settled, List.length_take] at this
        omega
      rw [show s.settled[i] = s.log[i] from List.getElem_take]
      exact List.pairwise_iff_getElem.mp h.heldFirst i s.resolved hil.1 hlt hil.2 (hget ▸ hedge)
    rw [(accept_of_edge?_eq_none hedge).1, hnil]
    simp

theorem Placed.accept (h : s.Placed) (r : Resolution) : (s.accept r).Placed := by
  unfold Placed
  cases hc : r.confirmation? with
  | some d =>
    rw [(accept_of_confirmation? hc).1, (accept_of_confirmation? hc).2]
    exact h.confirm d
  | none =>
    have hedge : r.edge? = none := Option.map_eq_none_iff.mp hc
    rw [(accept_of_edge?_eq_none hedge).1, (accept_of_edge?_eq_none hedge).2]
    exact h

theorem edge?_ne_none_of_mem_broughtAbout {q : Resolution} (hq : q ∈ s.broughtAbout r) :
    q.edge? ≠ none := by
  rcases mem_broughtAbout.mp hq with ⟨_, _, _, rfl⟩ | ⟨_, _, _, rfl⟩ | ⟨_, _, _, rfl⟩ <;> simp

/-- The next resolution takes effect. -/
theorem Confirms.resolve (h : s.Confirms) (hs : s.Coherent)
    (hr : s.resolutions[s.resolved]? = some r) : (s.next.resolve r).Confirms := by
  have hlt : s.resolved < s.log.length := (Array.getElem?_eq_some_iff.mp hr).1
  by_cases hnew : (s.isNewlyReached r || s.isNewlyStrong r) = true
  · have hproof : proofOf (s.settled ++ [r]) r.child = some r := by
      refine proofOf_append_of_new ?_
      rw [Bool.or_eq_true, isNewlyReached, isNewlyStrong, Bool.and_eq_true, Bool.not_eq_true',
        Bool.not_eq_true', Bool.eq_false_iff, Bool.eq_false_iff, ne_eq, ne_eq, hs.reached_iff,
        hs.strong_iff] at hnew
      simpa using hnew
    have hlog : (s.next.resolve r).log = s.log ++ s.broughtAbout r := log_resolve_of_new hnew
    have haccept := s.accept_next r
    have hres : s.next.resolve r = _ := resolve_of_new (s := s.next) hnew
    refine ⟨?_, ?_, fun c => ?_⟩
    · have := h.placed.accept r
      rw [hres, haccept]
      exact this
    · rw [hlog, List.pairwise_append]
      refine ⟨h.heldFirst, ?_, fun q _ r hr hn => absurd hn (edge?_ne_none_of_mem_broughtAbout hr)⟩
      exact List.Pairwise.imp_of_mem
        (fun _ hr _ hn => absurd hn (edge?_ne_none_of_mem_broughtAbout hr))
        (List.pairwise_of_forall fun _ _ => trivial)
    · have hconf : (s.next.resolve r).confirmations = (s.accept r).confirmations := by
        rw [hres, haccept]; rfl
      rw [hconf, h.mem_accept hr, settled_resolve_of_new hr hnew]
      by_cases hc : r.child = c.child
      · rw [← hc, hproof]
        simp [hc]
      · rw [proofOf_append_of_ne hc, h.mem_iff]
        refine ⟨?_, fun hq => .inr ⟨hq, Ne.symm hc⟩⟩
        rintro (hrc | ⟨hq, -⟩)
        · obtain ⟨_, -, rfl⟩ := Option.map_eq_some_iff.mp hrc
          exact absurd rfl hc
        · exact hq
  · rw [Bool.not_eq_true, Bool.or_eq_false_iff] at hnew
    rw [resolve_of_not_new (s := s.next) hnew.1 hnew.2]
    refine ⟨h.placed, h.heldFirst, fun c => ?_⟩
    rw [settled_next hr, proofOf_append_of_not_new]
    · exact h.mem_iff c
    · have hn : s.reached.contains r.child = true := by simpa [isNewlyReached] using hnew.1
      exact (hs.reached_iff _).mp hn
    · intro hrs
      have hn : s.strong.contains r.child = true := by simpa [isNewlyStrong, hrs] using hnew.2
      exact (hs.strong_iff _).mp hn

end State
end Retention.Search
