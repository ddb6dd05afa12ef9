import Mathlib.Data.List.Basic
import Retention.Proofs.Search.JointIndex
import Retention.Search.State

/-!
# How liveness spreads

The resolutions of a search are a log: they only grow, and those before
`State.resolved` have taken effect. Which nodes are reached, and which strongly,
can be read off the log (`State.Coherent`):

* each resolution is a held node's or follows by a rule (`State.HasRule`) from
  resolutions before it (`Grounded`);
* each rule whose premises are reached has its resolution in the log, a strong
  one if the rule is strong and the premises are strongly reached.

`Coherent.propagate` and `Coherent.trackJoint` add a rule, and `Coherent.resolve`
lets the next resolution take effect.
-/

namespace Retention.Search

open JointOwnership (resolution)

/-- A way in which liveness spreads: once its premises are alive, its child is. -/
structure Rule where
  premises : List NodeId
  child : NodeId
  edge : Nat
  strong : Bool

namespace Resolution

/-- A resolution of a held node. -/
def IsHeld (r : Resolution) : Prop := r.edge? = none ∧ r.owners = [] ∧ r.strong = true

/-- A resolution that follows by a rule, and strongly only if the rule is strong. -/
structure By (r : Resolution) (ρ : Rule) : Prop where
  child : r.child = ρ.child
  owners : r.owners = ρ.premises
  edge : r.edge? = some ρ.edge
  strong : r.strong = true → ρ.strong = true

/-- The owners of a resolution are proven by the log, strongly if it is strong. -/
def SupportedBy (r : Resolution) (log : List Resolution) : Prop :=
  ∀ o ∈ r.owners, ∃ q ∈ log, q.child = o ∧ (r.strong = true → q.strong = true)

theorem SupportedBy.mono {r : Resolution} {log log' : List Resolution} (h : r.SupportedBy log)
    (hsub : ∀ q ∈ log, q ∈ log') : r.SupportedBy log' := fun o ho => by
  obtain ⟨q, hq, hqo⟩ := h o ho
  exact ⟨q, hsub q hq, hqo⟩

end Resolution

/-- A log in which each resolution is supported by those before it. -/
inductive Grounded : List Resolution → Prop where
  | nil : Grounded []
  | snoc {log : List Resolution} {r : Resolution} (h : Grounded log) (hr : r.SupportedBy log) :
    Grounded (log ++ [r])

theorem Grounded.append {log : List Resolution} (h : Grounded log) {news : List Resolution}
    (hn : ∀ r ∈ news, r.SupportedBy log) : Grounded (log ++ news) := by
  induction news generalizing log with
  | nil => rwa [List.append_nil]
  | cons r rest ih =>
    rw [List.append_cons]
    exact ih (.snoc h (hn r List.mem_cons_self)) fun q hq =>
      (hn q (List.mem_cons_of_mem _ hq)).mono fun q hq => List.mem_append_left _ hq

namespace State

/-- The rules of the references found so far. -/
def HasRule (s : State) (ρ : Rule) : Prop :=
  (∃ parent, ∃ p ∈ (s.passages.getD parent #[]).toList,
    ρ = ⟨[parent], p.child, p.edge, p.strong⟩) ∨
  ∃ j ∈ s.reachJoints.references, ρ = ⟨j.owners, j.child, j.tag, true⟩

/-- The resolutions found, in order. -/
def log (s : State) : List Resolution := s.resolutions.toList

/-- The resolutions that have taken effect. -/
def settled (s : State) : List Resolution := s.log.take s.resolved

/-- The log accounts for the nodes that are reached and for the rules that apply. -/
structure Coherent (s : State) : Prop where
  resolved_le : s.resolved ≤ s.log.length
  reached_iff : ∀ id, s.reached.contains id = true ↔ ∃ r ∈ s.settled, r.child = id
  strong_iff : ∀ id, s.strong.contains id = true ↔
    ∃ r ∈ s.settled, r.child = id ∧ r.strong = true
  reachTracks : s.reachJoints.Tracks s.reached.contains
  strongTracks : s.strongJoints.Tracks s.strong.contains
  references_eq : s.strongJoints.references = s.reachJoints.references
  grounded : Grounded s.log
  sound : ∀ r ∈ s.log, r.IsHeld ∨ ∃ ρ, s.HasRule ρ ∧ r.By ρ
  complete : ∀ ρ, s.HasRule ρ → (∀ o ∈ ρ.premises, s.reached.contains o = true) →
    ∃ r ∈ s.log, r.By ρ
  strongComplete : ∀ ρ, s.HasRule ρ → ρ.strong = true →
    (∀ o ∈ ρ.premises, s.strong.contains o = true) → ∃ r ∈ s.log, r.By ρ ∧ r.strong = true

theorem Coherent.init : Coherent {} where
  resolved_le := Nat.zero_le _
  reached_iff := by simp [settled, log]
  strong_iff := by simp [settled, log]
  reachTracks := .empty _
  strongTracks := .empty _
  references_eq := rfl
  grounded := .nil
  sound := by simp [log]
  complete := by simp [HasRule, JointIndex.references]
  strongComplete := by simp [HasRule, JointIndex.references]

variable {s s' : State}

theorem Coherent.reached_of_strong (h : s.Coherent) {id : NodeId}
    (hid : s.strong.contains id = true) : s.reached.contains id = true := by
  obtain ⟨r, hr, hc, -⟩ := (h.strong_iff id).mp hid
  exact (h.reached_iff id).mpr ⟨r, hr, hc⟩

/-- A resolution whose owners are reached, strongly if it is strong, is supported. -/
theorem Coherent.supportedBy_settled (h : s.Coherent) {r : Resolution}
    (hr : ∀ o ∈ r.owners, s.reached.contains o = true)
    (hs : r.strong = true → ∀ o ∈ r.owners, s.strong.contains o = true) :
    r.SupportedBy s.settled := fun o ho => by
  cases hrs : r.strong with
  | false =>
    obtain ⟨q, hq, hqo⟩ := (h.reached_iff o).mp (hr o ho)
    exact ⟨q, hq, hqo, by simp⟩
  | true =>
    obtain ⟨q, hq, hqo, hqs⟩ := (h.strong_iff o).mp (hs hrs o ho)
    exact ⟨q, hq, hqo, fun _ => hqs⟩

/-! ## New resolutions -/

/-- New resolutions, to take effect after those before them. -/
def pushAll (s : State) (news : List Resolution) : State :=
  { s with resolutions := s.resolutions ++ news.toArray }

@[simp] theorem pushAll_nil (s : State) : s.pushAll [] = s := by simp [pushAll]

theorem push_eq (s : State) (r : Resolution) : s.push r = s.pushAll [r] := by
  simp [push, pushAll]

theorem pushAll_pushAll (s : State) (news more : List Resolution) :
    (s.pushAll news).pushAll more = s.pushAll (news ++ more) := by
  simp [pushAll]

@[simp] theorem log_pushAll (s : State) (news : List Resolution) :
    (s.pushAll news).log = s.log ++ news := by
  simp [pushAll, log]

theorem settled_pushAll (h : s.resolved ≤ s.log.length) (news : List Resolution) :
    (s.pushAll news).settled = s.settled := by
  rw [settled, log_pushAll, settled]
  exact List.take_append_of_le_length h

/-- A held node. -/
theorem Coherent.push (h : s.Coherent) {r : Resolution} (hr : r.IsHeld) : (s.push r).Coherent := by
  have hsettled := settled_pushAll h.resolved_le [r]
  have hlog := log_pushAll s [r]
  rw [← push_eq] at hsettled hlog
  exact {
    resolved_le := by rw [hlog, List.length_append]; exact Nat.le_add_right_of_le h.resolved_le
    reached_iff := by rw [hsettled]; exact h.reached_iff
    strong_iff := by rw [hsettled]; exact h.strong_iff
    reachTracks := h.reachTracks
    strongTracks := h.strongTracks
    references_eq := h.references_eq
    grounded := by
      rw [hlog]
      exact .snoc h.grounded fun o ho => by simp [hr.2.1] at ho
    sound := fun q hq => by
      rw [hlog, List.mem_append, List.mem_singleton] at hq
      rcases hq with hq | rfl
      · exact h.sound q hq
      · exact .inl hr
    complete := fun ρ hρ hp => by
      obtain ⟨q, hq, hby⟩ := h.complete ρ hρ hp
      exact ⟨q, hlog ▸ List.mem_append_left _ hq, hby⟩
    strongComplete := fun ρ hρ hs hp => by
      obtain ⟨q, hq, hby⟩ := h.strongComplete ρ hρ hs hp
      exact ⟨q, hlog ▸ List.mem_append_left _ hq, hby⟩ }

/-! ## New rules -/

/-- What a new rule adds to the log: its resolutions, which are supported, at
least one if it applies and a strong one if it applies strongly. -/
structure Applies (s : State) (ρ : Rule) (news : List Resolution) : Prop where
  by_rule : ∀ r ∈ news, r.By ρ
  reached : ∀ r ∈ news, ∀ o ∈ ρ.premises, s.reached.contains o = true
  strong : ∀ r ∈ news, r.strong = true → ∀ o ∈ ρ.premises, s.strong.contains o = true
  complete : (∀ o ∈ ρ.premises, s.reached.contains o = true) → ∃ r ∈ news, r.By ρ
  strongComplete : ρ.strong = true → (∀ o ∈ ρ.premises, s.strong.contains o = true) →
    ∃ r ∈ news, r.By ρ ∧ r.strong = true

/-- A new rule, with what it adds to the log. -/
theorem Coherent.addRule (h : s.Coherent) {ρ : Rule} (news : List Resolution)
    (hrule : ∀ σ, s'.HasRule σ ↔ s.HasRule σ ∨ σ = ρ) (hnews : s.Applies ρ news)
    (hlog : s'.log = s.log ++ news) (hresolved : s'.resolved = s.resolved)
    (hreached : s'.reached = s.reached) (hstrong : s'.strong = s.strong)
    (hrt : s'.reachJoints.Tracks s.reached.contains)
    (hst : s'.strongJoints.Tracks s.strong.contains)
    (href : s'.strongJoints.references = s'.reachJoints.references) : s'.Coherent := by
  have hsettled : s'.settled = s.settled := by
    rw [settled, hlog, hresolved, settled]
    exact List.take_append_of_le_length h.resolved_le
  have hmem : ∀ r, r ∈ s'.log ↔ r ∈ s.log ∨ r ∈ news := by simp [hlog]
  exact {
    resolved_le := by
      rw [hlog, hresolved, List.length_append]; exact Nat.le_add_right_of_le h.resolved_le
    reached_iff := by rw [hsettled, hreached]; exact h.reached_iff
    strong_iff := by rw [hsettled, hstrong]; exact h.strong_iff
    reachTracks := hreached ▸ hrt
    strongTracks := hstrong ▸ hst
    references_eq := href
    grounded := by
      rw [hlog]
      refine h.grounded.append fun r hr =>
        (h.supportedBy_settled ?_ fun hs => ?_).mono fun q => List.mem_of_mem_take
      · rw [(hnews.by_rule r hr).owners]; exact hnews.reached r hr
      · rw [(hnews.by_rule r hr).owners]; exact hnews.strong r hr hs
    sound := fun r hr => by
      rcases (hmem r).mp hr with hr | hr
      · rcases h.sound r hr with hh | ⟨σ, hσ, hby⟩
        · exact .inl hh
        · exact .inr ⟨σ, (hrule σ).mpr (.inl hσ), hby⟩
      · exact .inr ⟨ρ, (hrule ρ).mpr (.inr rfl), hnews.by_rule r hr⟩
    complete := fun σ hσ hp => by
      rw [hreached] at hp
      rcases (hrule σ).mp hσ with hσ | rfl
      · obtain ⟨r, hr, hby⟩ := h.complete σ hσ hp
        exact ⟨r, (hmem r).mpr (.inl hr), hby⟩
      · obtain ⟨r, hr, hby⟩ := hnews.complete hp
        exact ⟨r, (hmem r).mpr (.inr hr), hby⟩
    strongComplete := fun σ hσ hs hp => by
      rw [hstrong] at hp
      rcases (hrule σ).mp hσ with hσ | rfl
      · obtain ⟨r, hr, hby⟩ := h.strongComplete σ hσ hs hp
        exact ⟨r, (hmem r).mpr (.inl hr), hby⟩
      · obtain ⟨r, hr, hby⟩ := hnews.strongComplete hs hp
        exact ⟨r, (hmem r).mpr (.inr hr), hby⟩ }

/-- What a new reference adds to the log. -/
def propagated (s : State) (parent : NodeId) (p : Passage) : List Resolution :=
  if s.reached.contains parent then
    [{ child := p.child, owners := [parent], edge? := some p.edge
       strong := p.strong && s.strong.contains parent }]
  else []

theorem propagate_eq (s : State) (parent : NodeId) (p : Passage) :
    s.propagate parent p =
      { s with passages := s.passages.insert parent ((s.passages.getD parent #[]).push p) }.pushAll
        (s.propagated parent p) := by
  unfold propagate propagated
  split <;> simp [push_eq, *]

theorem hasRule_propagate (s : State) (parent : NodeId) (p : Passage) (σ : Rule) :
    (s.propagate parent p).HasRule σ ↔
      s.HasRule σ ∨ σ = ⟨[parent], p.child, p.edge, p.strong⟩ := by
  rw [propagate_eq]
  simp only [HasRule, pushAll, Std.HashMap.getD_insert]
  constructor
  · rintro (⟨q, p', hp', rfl⟩ | hj)
    · split at hp'
      · rename_i hq
        obtain rfl := eq_of_beq hq
        rw [Array.toList_push, List.mem_append, List.mem_singleton] at hp'
        rcases hp' with hp' | rfl
        · exact .inl (.inl ⟨_, p', hp', rfl⟩)
        · exact .inr rfl
      · exact .inl (.inl ⟨q, p', hp', rfl⟩)
    · exact .inl (.inr hj)
  · rintro ((⟨q, p', hp', rfl⟩ | hj) | rfl)
    · refine .inl ⟨q, p', ?_, rfl⟩
      split
      · rename_i hq
        obtain rfl := eq_of_beq hq
        rw [Array.toList_push]
        exact List.mem_append_left _ hp'
      · exact hp'
    · exact .inr hj
    · exact .inl ⟨parent, p, by simp, rfl⟩

theorem Coherent.propagate (h : s.Coherent) (parent : NodeId) (p : Passage) :
    (s.propagate parent p).Coherent := by
  refine h.addRule (s.propagated parent p) (hasRule_propagate s parent p) ?_
    (by rw [propagate_eq]; simp [log, pushAll]) (by rw [propagate_eq]; rfl)
    (by rw [propagate_eq]; rfl) (by rw [propagate_eq]; rfl)
    (by rw [propagate_eq]; exact h.reachTracks) (by rw [propagate_eq]; exact h.strongTracks)
    (by rw [propagate_eq]; exact h.references_eq)
  unfold propagated
  by_cases hr : s.reached.contains parent = true
  · rw [if_pos hr]
    refine ⟨?_, ?_, ?_, fun _ => ?_, fun hs hp => ?_⟩
    · simp only [List.mem_singleton, forall_eq]
      exact ⟨rfl, rfl, rfl, fun h => (Bool.and_eq_true_iff.mp h).1⟩
    · simpa using hr
    · simp
    · exact ⟨_, List.mem_singleton_self _, rfl, rfl, rfl, fun h => (Bool.and_eq_true_iff.mp h).1⟩
    · refine ⟨_, List.mem_singleton_self _, ⟨rfl, rfl, rfl, fun _ => hs⟩, ?_⟩
      simpa using ⟨hs, hp parent List.mem_cons_self⟩
  · rw [if_neg hr]
    refine ⟨by simp, by simp, by simp, fun hp => ?_, fun _ hp => ?_⟩
    · exact absurd (hp parent List.mem_cons_self) hr
    · exact absurd (h.reached_of_strong (hp parent List.mem_cons_self)) hr

/-- What a new joint reference adds to the log. -/
def tracked (s : State) (child : NodeId) (owners : List NodeId) (edge : Nat) : List Resolution :=
  if owners.all s.strong.contains then [⟨child, owners, some edge, true⟩]
  else if owners.all s.reached.contains then [⟨child, owners, some edge, false⟩]
  else []

theorem trackJoint_eq (s : State) (child : NodeId) (owners : List NodeId) (edge : Nat) :
    s.trackJoint child owners edge =
      { s with
        reachJoints := (s.reachJoints.add s.reached.contains child owners edge).2
        strongJoints := (s.strongJoints.add s.strong.contains child owners edge).2 }.pushAll
        (s.tracked child owners edge) := by
  unfold trackJoint tracked
  simp only
  rw [JointIndex.fst_add, JointIndex.fst_add]
  by_cases hs : owners.all s.strong.contains = true
  · simp only [hs, ↓reduceIte, pushJoint, push_eq]
  · simp only [hs, Bool.false_eq_true, ↓reduceIte]
    by_cases hr : owners.all s.reached.contains = true
    · simp only [hr, ↓reduceIte, pushJoint, push_eq]
    · simp only [hr, Bool.false_eq_true, ↓reduceIte, pushAll_nil]

theorem hasRule_trackJoint (s : State) (child : NodeId) (owners : List NodeId) (edge : Nat)
    (σ : Rule) :
    (s.trackJoint child owners edge).HasRule σ ↔
      s.HasRule σ ∨ σ = ⟨owners, child, edge, true⟩ := by
  rw [trackJoint_eq]
  simp only [HasRule, pushAll, JointIndex.references_add, List.mem_append, List.mem_singleton,
    or_and_right, exists_or, exists_eq_left, or_assoc]

theorem Coherent.trackJoint (h : s.Coherent) (child : NodeId) (owners : List NodeId) (edge : Nat) :
    (s.trackJoint child owners edge).Coherent := by
  refine h.addRule (s.tracked child owners edge) (hasRule_trackJoint s child owners edge) ?_
    (by rw [trackJoint_eq]; simp [log, pushAll]) (by rw [trackJoint_eq]; rfl)
    (by rw [trackJoint_eq]; rfl) (by rw [trackJoint_eq]; rfl)
    (by rw [trackJoint_eq]; exact h.reachTracks.add ..)
    (by rw [trackJoint_eq]; exact h.strongTracks.add ..)
    (by rw [trackJoint_eq]
        simp only [pushAll, JointIndex.references_add, h.references_eq])
  have hsr := fun hs : ∀ o ∈ owners, s.strong.contains o = true => fun o ho =>
    h.reached_of_strong (hs o ho)
  simp only [tracked, List.all_eq_true]
  by_cases hs : ∀ o ∈ owners, s.strong.contains o = true
  · rw [if_pos hs]
    refine ⟨?_, ?_, ?_, fun _ => ?_, fun _ _ => ?_⟩
    · simpa using ⟨rfl, rfl, rfl, fun _ => rfl⟩
    · simpa using hsr hs
    · simpa using hs
    · exact ⟨_, List.mem_singleton_self _, rfl, rfl, rfl, fun _ => rfl⟩
    · exact ⟨_, List.mem_singleton_self _, ⟨rfl, rfl, rfl, fun _ => rfl⟩, rfl⟩
  · rw [if_neg hs]
    by_cases hr : ∀ o ∈ owners, s.reached.contains o = true
    · rw [if_pos hr]
      refine ⟨?_, ?_, ?_, fun _ => ?_, fun _ hp => absurd hp hs⟩
      · simpa using ⟨rfl, rfl, rfl, fun _ => rfl⟩
      · simpa using hr
      · simp
      · exact ⟨_, List.mem_singleton_self _, rfl, rfl, rfl, fun _ => rfl⟩
    · rw [if_neg hr]
      exact ⟨by simp, by simp, by simp, fun hp => absurd hp hr, fun _ hp => absurd hp hs⟩

/-! ## A resolution that takes effect -/

/-- What a node passes on along its references. -/
def passed (s : State) (id : NodeId) (newlyReached : Bool) : List Resolution :=
  ((s.passages.getD id #[]).toList.filter fun p => newlyReached || p.strong).map fun p =>
    { child := p.child, owners := [id], edge? := some p.edge
      strong := p.strong && s.strong.contains id }

theorem foldl_passOn (s : State) (id : NodeId) (newlyReached : Bool) (ps : List Passage) :
    ps.foldl (passOn id newlyReached) s =
      s.pushAll ((ps.filter fun p => newlyReached || p.strong).map fun p =>
        { child := p.child, owners := [id], edge? := some p.edge
          strong := p.strong && s.strong.contains id }) := by
  induction ps generalizing s with
  | nil => simp
  | cons p rest ih =>
    rw [List.foldl_cons, ih, passOn]
    by_cases hp : (newlyReached || p.strong) = true
    · rw [if_pos hp, push_eq, pushAll_pushAll]
      simp only [List.filter_cons, hp, ↓reduceIte, List.map_cons, List.singleton_append]
      rfl
    · simp only [List.filter_cons, hp, Bool.false_eq_true, ↓reduceIte]

/-- The resolutions that joint references give. -/
def joint (strong : JointResolution Nat → Bool) (fired : List (JointResolution Nat)) :
    List Resolution :=
  fired.map fun r =>
    { child := r.child, owners := r.owners, edge? := some r.tag, strong := strong r }

theorem foldl_pushJoint (s : State) (strong : State → JointResolution Nat → Bool)
    (hs : ∀ s news r, strong (pushAll s news) r = strong s r) (fired : List (JointResolution Nat)) :
    fired.foldl (fun s r => pushJoint (strong s r) s r) s = s.pushAll (joint (strong s) fired) := by
  induction fired generalizing s with
  | nil => simp [joint]
  | cons r rest ih =>
    rw [List.foldl_cons, ih, pushJoint, push_eq, pushAll_pushAll]
    simp only [joint, hs, List.map_cons, List.singleton_append]

theorem settleReached_eq (s : State) (id : NodeId) :
    s.settleReached id =
      { s with reachJoints := (s.reachJoints.settle id).2 }.pushAll
        (joint (·.owners.all s.strong.contains) (s.reachJoints.settle id).1) :=
  foldl_pushJoint { s with reachJoints := (s.reachJoints.settle id).2 }
    (fun s r => r.owners.all s.strong.contains) (fun _ _ _ => rfl) _

theorem settleStrong_eq (s : State) (id : NodeId) :
    s.settleStrong id =
      { s with strongJoints := (s.strongJoints.settle id).2 }.pushAll
        (joint (fun _ => true) (s.strongJoints.settle id).1) :=
  foldl_pushJoint { s with strongJoints := (s.strongJoints.settle id).2 }
    (fun _ _ => true) (fun _ _ _ => rfl) _

/-- A resolution takes effect on its node, and nothing is passed on yet. -/
def accept (s : State) (r : Resolution) : State :=
  let s := { s with reached := s.reached.insert r.child }
  let s := if r.strong then { s with strong := s.strong.insert r.child } else s
  match r.edge? with
  | some edge => s.confirm { child := r.child, owners := r.owners, edge, strong := r.strong }
  | none => s

/-- Whether a resolution is the first of its node. -/
def isNewlyReached (s : State) (r : Resolution) : Bool := !s.reached.contains r.child

/-- Whether a resolution is the first strong one of its node. -/
def isNewlyStrong (s : State) (r : Resolution) : Bool := r.strong && !s.strong.contains r.child

variable {r : Resolution}

theorem accept_eq (s : State) (r : Resolution) :
    s.accept r =
      { s with
        reached := s.reached.insert r.child
        strong := if r.strong then s.strong.insert r.child else s.strong
        confirmations := (s.accept r).confirmations
        confirmedAt := (s.accept r).confirmedAt } := by
  unfold accept confirm
  cases r.strong <;> cases r.edge? <;> simp only [Bool.false_eq_true, ↓reduceIte] <;> split <;> rfl

@[simp] theorem log_accept (s : State) (r : Resolution) : (s.accept r).log = s.log := by
  rw [accept_eq]; rfl

theorem contains_reached_accept (s : State) (r : Resolution) (id : NodeId) :
    (s.accept r).reached.contains id = (r.child == id || s.reached.contains id) := by
  rw [accept_eq]; exact Std.HashSet.contains_insert

theorem contains_strong_accept (s : State) (r : Resolution) (id : NodeId) :
    (s.accept r).strong.contains id = (r.strong && r.child == id || s.strong.contains id) := by
  rw [accept_eq]
  cases hr : r.strong
  · simp
  · simp [Std.HashSet.contains_insert]

/-- What a new resolution brings about: what its node passes on, and the joint
references that it settles. -/
def broughtAbout (s : State) (r : Resolution) : List Resolution :=
  (s.accept r).passed r.child (s.isNewlyReached r) ++
    ((if s.isNewlyReached r then
        joint (·.owners.all (s.accept r).strong.contains) (s.reachJoints.settle r.child).1
      else []) ++
      if s.isNewlyStrong r then joint (fun _ => true) (s.strongJoints.settle r.child).1 else [])

theorem resolve_of_new (h : (s.isNewlyReached r || s.isNewlyStrong r) = true) :
    s.resolve r =
      { s.accept r with
        reachJoints :=
          if s.isNewlyReached r then (s.reachJoints.settle r.child).2 else s.reachJoints
        strongJoints :=
          if s.isNewlyStrong r then (s.strongJoints.settle r.child).2 else s.strongJoints }.pushAll
        (s.broughtAbout r) := by
  have hfold := foldl_passOn (s.accept r) r.child (s.isNewlyReached r)
    ((s.accept r).passages.getD r.child #[]).toList
  rw [Array.foldl_toList] at hfold
  have hresolve : s.resolve r =
      (let t := ((s.accept r).passages.getD r.child #[]).foldl
        (passOn r.child (s.isNewlyReached r)) (s.accept r)
      let t := if s.isNewlyReached r then t.settleReached r.child else t
      if s.isNewlyStrong r then t.settleStrong r.child else t) :=
    if_neg (show ¬(!s.isNewlyReached r && !s.isNewlyStrong r) = true by
      revert h; cases s.isNewlyReached r <;> cases s.isNewlyStrong r <;> simp)
  rw [hresolve, hfold, broughtAbout, accept_eq]
  cases s.isNewlyReached r <;> cases s.isNewlyStrong r <;>
    simp [settleReached_eq, settleStrong_eq, pushAll, passed, joint]

theorem resolve_of_not_new (hr : s.isNewlyReached r = false) (hs : s.isNewlyStrong r = false) :
    s.resolve r = s :=
  if_pos (show (!s.isNewlyReached r && !s.isNewlyStrong r) = true by rw [hr, hs]; rfl)

/-! ## Coherence is kept -/

/-- The next resolution is taken from the log. -/
def next (s : State) : State := { s with resolved := s.resolved + 1 }

theorem settled_next (hr : s.resolutions[s.resolved]? = some r) :
    s.next.settled = s.settled ++ [r] := by
  have hr' : s.log[s.resolved]? = some r := by simpa [log] using hr
  show s.log.take (s.resolved + 1) = _
  rw [List.take_add_one, hr']; rfl

theorem accept_next (s : State) (r : Resolution) :
    s.next.accept r = { s.accept r with resolved := s.resolved + 1 } := by
  unfold accept confirm
  cases r.strong <;> cases r.edge? <;> simp only [Bool.false_eq_true, ↓reduceIte] <;> try rfl
  all_goals simp only [next]; split <;> rfl

theorem broughtAbout_next (s : State) (r : Resolution) :
    s.next.broughtAbout r = s.broughtAbout r := by
  rw [broughtAbout, broughtAbout, accept_next]; rfl

theorem log_resolve_of_new (hnew : (s.isNewlyReached r || s.isNewlyStrong r) = true) :
    (s.next.resolve r).log = s.log ++ s.broughtAbout r := by
  rw [resolve_of_new (s := s.next) hnew, log_pushAll, broughtAbout_next]
  exact congrArg (· ++ s.broughtAbout r) (log_accept s.next r)

theorem settled_resolve_of_new (hr : s.resolutions[s.resolved]? = some r)
    (hnew : (s.isNewlyReached r || s.isNewlyStrong r) = true) :
    (s.next.resolve r).settled = s.settled ++ [r] := by
  have hresolved : (s.next.resolve r).resolved = s.resolved + 1 := by
    rw [resolve_of_new (s := s.next) hnew, accept_next]; rfl
  rw [← settled_next hr, settled, log_resolve_of_new hnew, hresolved]
  exact List.take_append_of_le_length (Array.getElem?_eq_some_iff.mp hr).1

theorem mem_broughtAbout {q : Resolution} :
    q ∈ s.broughtAbout r ↔
      (∃ p ∈ (s.passages.getD r.child #[]).toList, (s.isNewlyReached r || p.strong) = true ∧
        q = ⟨p.child, [r.child], some p.edge, p.strong && (s.accept r).strong.contains r.child⟩) ∨
      (s.isNewlyReached r = true ∧ ∃ j ∈ (s.reachJoints.settle r.child).1,
        q = ⟨j.child, j.owners, some j.tag, j.owners.all (s.accept r).strong.contains⟩) ∨
      (s.isNewlyStrong r = true ∧ ∃ j ∈ (s.strongJoints.settle r.child).1,
        q = ⟨j.child, j.owners, some j.tag, true⟩) := by
  have hp : (s.accept r).passages = s.passages := by rw [accept_eq]
  simp only [broughtAbout, passed, joint, hp, List.mem_append, List.mem_map, List.mem_filter,
    List.mem_ite_nil_right, eq_comm (a := q), and_assoc]

/-- The nodes reached after a resolution that takes effect. -/
theorem Coherent.reached_accept (h : s.Coherent) (r : Resolution) (id : NodeId) :
    (s.accept r).reached.contains id = true ↔ ∃ q ∈ s.settled ++ [r], q.child = id := by
  rw [contains_reached_accept, Bool.or_eq_true, beq_iff_eq, h.reached_iff]
  simp only [List.mem_append, List.mem_singleton, or_and_right, exists_or, exists_eq_left]
  exact or_comm

theorem Coherent.strong_accept (h : s.Coherent) (r : Resolution) (id : NodeId) :
    (s.accept r).strong.contains id = true ↔
      ∃ q ∈ s.settled ++ [r], q.child = id ∧ q.strong = true := by
  rw [contains_strong_accept, Bool.or_eq_true, Bool.and_eq_true, beq_iff_eq, h.strong_iff]
  simp only [List.mem_append, List.mem_singleton, or_and_right, exists_or, exists_eq_left]
  rw [or_comm, and_comm (a := r.strong = true)]

theorem contains_reached_accept_of_not_new (hr : s.isNewlyReached r = false) (id : NodeId) :
    (s.accept r).reached.contains id = s.reached.contains id := by
  rw [contains_reached_accept]
  by_cases hid : r.child = id
  · have hold : s.reached.contains r.child = true := by simpa [isNewlyReached] using hr
    rw [← hid, hold, Bool.or_true]
  · rw [beq_eq_false_iff_ne.mpr hid, Bool.false_or]

theorem contains_strong_accept_of_not_new (hs : s.isNewlyStrong r = false) (id : NodeId) :
    (s.accept r).strong.contains id = s.strong.contains id := by
  rw [contains_strong_accept]
  rw [isNewlyStrong, Bool.and_eq_false_iff, Bool.not_eq_false'] at hs
  rcases hs with hs | hs
  · rw [hs, Bool.false_and, Bool.false_or]
  · by_cases hid : r.child = id
    · rw [← hid, hs, Bool.or_true]
    · rw [beq_eq_false_iff_ne.mpr hid, Bool.and_false, Bool.false_or]

/-- The owners of what a resolution brings about are alive once it has taken effect. -/
theorem Coherent.owners_broughtAbout (h : s.Coherent) {q : Resolution} (hq : q ∈ s.broughtAbout r) :
    (∀ o ∈ q.owners, (s.accept r).reached.contains o = true) ∧
      (q.strong = true → ∀ o ∈ q.owners, (s.accept r).strong.contains o = true) ∧
      ∃ ρ, s.HasRule ρ ∧ q.By ρ := by
  rcases mem_broughtAbout.mp hq with ⟨p, hp, -, rfl⟩ | ⟨hn, j, hj, rfl⟩ | ⟨hn, j, hj, rfl⟩
  · refine ⟨?_, fun hs => ?_, _, .inl ⟨r.child, p, hp, rfl⟩, rfl, rfl, rfl, fun hs => ?_⟩
    · simp [contains_reached_accept]
    · simpa using (Bool.and_eq_true_iff.mp hs).2
    · exact (Bool.and_eq_true_iff.mp hs).1
  · have hid : s.reached.contains r.child = false := by simpa [isNewlyReached] using hn
    obtain ⟨hjr, -, hown⟩ := (h.reachTracks.mem_settle hid j).mp hj
    refine ⟨fun o ho => ?_, fun hs => by simpa using hs, _, .inr ⟨j, hjr, rfl⟩, rfl, rfl, rfl,
      fun _ => rfl⟩
    rw [contains_reached_accept, Bool.or_eq_true, beq_iff_eq]
    exact (hown o ho).imp Eq.symm id
  · obtain ⟨hrs, hid⟩ : r.strong = true ∧ s.strong.contains r.child = false := by
      simpa [isNewlyStrong] using hn
    obtain ⟨hjr, -, hown⟩ := (h.strongTracks.mem_settle hid j).mp hj
    have hstrong : ∀ o ∈ j.owners, (s.accept r).strong.contains o = true := fun o ho => by
      rw [contains_strong_accept, hrs, Bool.true_and, Bool.or_eq_true, beq_iff_eq]
      exact (hown o ho).imp Eq.symm id
    refine ⟨fun o ho => ?_, fun _ => hstrong, _, .inr ⟨j, h.references_eq ▸ hjr, rfl⟩, rfl, rfl, rfl,
      fun _ => rfl⟩
    rw [contains_reached_accept, Bool.or_eq_true, beq_iff_eq]
    exact (hown o ho).imp Eq.symm h.reached_of_strong

/-- A rule whose last premise is reached has its resolution brought about. -/
theorem Coherent.exists_broughtAbout (h : s.Coherent) {ρ : Rule} (hρ : s.HasRule ρ)
    (hp : ∀ o ∈ ρ.premises, (s.accept r).reached.contains o = true)
    (hn : ¬∀ o ∈ ρ.premises, s.reached.contains o = true) : ∃ q ∈ s.broughtAbout r, q.By ρ := by
  simp only [contains_reached_accept, Bool.or_eq_true, beq_iff_eq] at hp
  obtain ⟨o, ho, hno⟩ : ∃ o ∈ ρ.premises, ¬s.reached.contains o = true := by simpa using hn
  obtain rfl := (hp o ho).resolve_right hno
  have hnew : s.isNewlyReached r = true := by simpa [isNewlyReached] using hno
  rcases hρ with ⟨parent, p, hpp, rfl⟩ | ⟨j, hj, rfl⟩
  · rw [List.mem_singleton] at ho
    subst ho
    refine ⟨_, mem_broughtAbout.mpr (.inl ⟨p, hpp, by rw [hnew]; rfl, rfl⟩), rfl, rfl, rfl,
      fun hs => (Bool.and_eq_true_iff.mp hs).1⟩
  · have hid : s.reached.contains r.child = false := by simpa using hno
    refine ⟨_, mem_broughtAbout.mpr (.inr (.inl ⟨hnew, j, ?_, rfl⟩)), rfl, rfl, rfl, fun _ => rfl⟩
    exact (h.reachTracks.mem_settle hid j).mpr ⟨hj, ho, fun o ho => (hp o ho).imp Eq.symm id⟩

/-- A strong rule whose last premise is strongly reached has a strong resolution
brought about. -/
theorem Coherent.exists_strong_broughtAbout (h : s.Coherent) {ρ : Rule} (hρ : s.HasRule ρ)
    (hρs : ρ.strong = true) (hp : ∀ o ∈ ρ.premises, (s.accept r).strong.contains o = true)
    (hn : ¬∀ o ∈ ρ.premises, s.strong.contains o = true) :
    ∃ q ∈ s.broughtAbout r, q.By ρ ∧ q.strong = true := by
  obtain ⟨o, ho, hno⟩ : ∃ o ∈ ρ.premises, ¬s.strong.contains o = true := by simpa using hn
  have hpo := hp o ho
  simp only [contains_strong_accept, Bool.or_eq_true, Bool.and_eq_true, beq_iff_eq] at hp
  obtain ⟨hrs, rfl⟩ := (hp o ho).resolve_right hno
  have hid : s.strong.contains r.child = false := by simpa using hno
  have hnew : s.isNewlyStrong r = true := by rw [isNewlyStrong, hrs, hid]; rfl
  rcases hρ with ⟨parent, p, hpp, rfl⟩ | ⟨j, hj, rfl⟩
  · rw [List.mem_singleton] at ho
    subst ho
    have hps : p.strong = true := hρs
    refine ⟨_, mem_broughtAbout.mpr (.inl ⟨p, hpp, by rw [hps, Bool.or_true], rfl⟩),
      ⟨rfl, rfl, rfl, fun _ => hps⟩, ?_⟩
    rw [hps, hpo]; rfl
  · refine ⟨_, mem_broughtAbout.mpr (.inr (.inr ⟨hnew, j, ?_, rfl⟩)),
      ⟨rfl, rfl, rfl, fun _ => rfl⟩, rfl⟩
    exact (h.strongTracks.mem_settle hid j).mpr
      ⟨h.references_eq ▸ hj, ho, fun o ho => (hp o ho).imp (fun e => e.2.symm) id⟩

theorem hasRule_resolve_of_new (hnew : (s.isNewlyReached r || s.isNewlyStrong r) = true)
    (ρ : Rule) :
    (s.resolve r).HasRule ρ ↔ s.HasRule ρ := by
  have href : (if s.isNewlyReached r then (s.reachJoints.settle r.child).2
      else s.reachJoints).references = s.reachJoints.references := by
    split
    · exact JointIndex.references_settle ..
    · rfl
  rw [resolve_of_new hnew, accept_eq]
  simp only [HasRule, pushAll, href]

/-- What a resolution brings about is grounded in what took effect before. -/
theorem Coherent.grounded_broughtAbout (h : s.Coherent)
    (hr : s.resolutions[s.resolved]? = some r) : Grounded (s.log ++ s.broughtAbout r) := by
  have hsub : ∀ q ∈ s.settled ++ [r], q ∈ s.log := by
    rw [← settled_next hr]; exact fun q => List.mem_of_mem_take
  refine h.grounded.append fun q hq o ho => ?_
  obtain ⟨hor, hos, -⟩ := h.owners_broughtAbout hq
  cases hqs : q.strong with
  | false =>
    obtain ⟨q', hq', hqo⟩ := (h.reached_accept r o).mp (hor o ho)
    exact ⟨q', hsub q' hq', hqo, by simp⟩
  | true =>
    obtain ⟨q', hq', hqo, hs⟩ := (h.strong_accept r o).mp (hos hqs o ho)
    exact ⟨q', hsub q' hq', hqo, fun _ => hs⟩

/-- A resolution that is new accounts for what it brings about. -/
theorem Coherent.resolve_of_new (h : s.Coherent) (hr : s.resolutions[s.resolved]? = some r)
    (hnew : (s.isNewlyReached r || s.isNewlyStrong r) = true) : (s.next.resolve r).Coherent := by
  have hlt : s.resolved < s.log.length := (Array.getElem?_eq_some_iff.mp hr).1
  have hlog := log_resolve_of_new hnew
  have hsettled := settled_resolve_of_new hr hnew
  have hrule : ∀ ρ, (s.next.resolve r).HasRule ρ ↔ s.HasRule ρ := hasRule_resolve_of_new hnew
  have hres : s.next.resolve r = _ := State.resolve_of_new (s := s.next) hnew
  rw [accept_next] at hres
  have hreached : (s.next.resolve r).reached = (s.accept r).reached := by rw [hres]; rfl
  have hstrong : (s.next.resolve r).strong = (s.accept r).strong := by rw [hres]; rfl
  have hresolved : (s.next.resolve r).resolved = s.resolved + 1 := by rw [hres]; rfl
  have hrj : (s.next.resolve r).reachJoints = if s.isNewlyReached r then
      (s.reachJoints.settle r.child).2 else s.reachJoints := by rw [hres]; rfl
  have hsj : (s.next.resolve r).strongJoints = if s.isNewlyStrong r then
      (s.strongJoints.settle r.child).2 else s.strongJoints := by rw [hres]; rfl
  exact {
    resolved_le := by rw [hlog, hresolved, List.length_append]; omega
    reached_iff := by rw [hsettled, hreached]; exact h.reached_accept r
    strong_iff := by rw [hsettled, hstrong]; exact h.strong_accept r
    reachTracks := by
      rw [hrj, hreached]
      split
      · exact h.reachTracks.settle (contains_reached_accept s r)
      · rename_i hn
        rw [funext (contains_reached_accept_of_not_new (by simpa using hn))]
        exact h.reachTracks
    strongTracks := by
      rw [hsj, hstrong]
      split
      · rename_i hn
        refine h.strongTracks.settle fun o => ?_
        rw [contains_strong_accept, (Bool.and_eq_true_iff.mp hn).1, Bool.true_and]
      · rename_i hn
        rw [funext (contains_strong_accept_of_not_new (by simpa using hn))]
        exact h.strongTracks
    references_eq := by
      rw [hrj, hsj]
      split <;> split <;> simp only [JointIndex.references_settle, h.references_eq]
    grounded := by rw [hlog]; exact h.grounded_broughtAbout hr
    sound := fun q hq => by
      rw [hlog, List.mem_append] at hq
      rcases hq with hq | hq
      · exact (h.sound q hq).imp_right fun ⟨ρ, hρ, hby⟩ => ⟨ρ, (hrule ρ).mpr hρ, hby⟩
      · obtain ⟨-, -, ρ, hρ, hby⟩ := h.owners_broughtAbout hq
        exact .inr ⟨ρ, (hrule ρ).mpr hρ, hby⟩
    complete := fun ρ hρ hp => by
      rw [hreached] at hp
      rw [hrule] at hρ
      by_cases hold : ∀ o ∈ ρ.premises, s.reached.contains o = true
      · obtain ⟨q, hq, hby⟩ := h.complete ρ hρ hold
        exact ⟨q, hlog ▸ List.mem_append_left _ hq, hby⟩
      · obtain ⟨q, hq, hby⟩ := h.exists_broughtAbout hρ hp hold
        exact ⟨q, hlog ▸ List.mem_append_right _ hq, hby⟩
    strongComplete := fun ρ hρ hs hp => by
      rw [hstrong] at hp
      rw [hrule] at hρ
      by_cases hold : ∀ o ∈ ρ.premises, s.strong.contains o = true
      · obtain ⟨q, hq, hby⟩ := h.strongComplete ρ hρ hs hold
        exact ⟨q, hlog ▸ List.mem_append_left _ hq, hby⟩
      · obtain ⟨q, hq, hby⟩ := h.exists_strong_broughtAbout hρ hs hp hold
        exact ⟨q, hlog ▸ List.mem_append_right _ hq, hby⟩ }

/-- A resolution that is not new proves nothing. -/
theorem Coherent.resolve_of_not_new (h : s.Coherent) (hr : s.resolutions[s.resolved]? = some r)
    (hnr : s.isNewlyReached r = false) (hns : s.isNewlyStrong r = false) :
    (s.next.resolve r).Coherent := by
  rw [State.resolve_of_not_new (s := s.next) hnr hns]
  exact {
    h with
    resolved_le := (Array.getElem?_eq_some_iff.mp hr).1
    reached_iff := fun id => by
      rw [settled_next hr, ← h.reached_accept, contains_reached_accept_of_not_new hnr]; rfl
    strong_iff := fun id => by
      rw [settled_next hr, ← h.strong_accept, contains_strong_accept_of_not_new hns]; rfl }

/-- The next resolution takes effect. -/
theorem Coherent.resolve (h : s.Coherent) (hr : s.resolutions[s.resolved]? = some r) :
    (s.next.resolve r).Coherent := by
  by_cases hnew : (s.isNewlyReached r || s.isNewlyStrong r) = true
  · exact h.resolve_of_new hr hnew
  · rw [Bool.not_eq_true, Bool.or_eq_false_iff] at hnew
    exact h.resolve_of_not_new hr hnew.1 hnew.2

end State
end Retention.Search
