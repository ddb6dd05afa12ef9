import Retention.Proofs.Search.Loops

/-!
# Searches come to an end

The events of a search are in order (`Orderly`): none happens twice, and a node
that is strongly reached was reached before. They are all that happens to objects
and nodes (`Chronicle`). What is queued is paid for by the held values and by the
references (`Metered`). So a search terminates (`search_terminates`), whatever the
heap is and whatever the analyzers do.

* `Chronicle.drains`, `Shifts.metered`: what happens to objects and nodes, and what
  is paid for;
* `Explores.keeps`, `Runs.keeps`: the loops keep both.
-/

namespace Retention.Search

variable {h : Heap} {options : Options} {registry : Registry} {given : Identity → Prop}
  {s s' : State} {events news : List Event} {id : NodeId}

/-! ## No event twice -/

/-- Each event is new, and a node is strongly reached once it is reached. -/
inductive Orderly : List Event → Prop where
  | nil : Orderly []
  | snoc {events : List Event} {e : Event} (h : Orderly events) (hnew : e ∉ events)
    (hreached : ∀ id, e = .strengthen id → .reach id ∈ events) : Orderly (events ++ [e])

theorem Orderly.nodup (h : Orderly events) : events.Nodup := by
  induction h with
  | nil => exact .nil
  | snoc _ hnew _ ih =>
    rw [← List.concat_eq_append]
    exact ih.concat hnew

/-- Before a node is strongly reached it is reached. -/
theorem Orderly.reach_mem (h : Orderly events) {before after : List Event}
    (hevents : events = before ++ .strengthen id :: after) : .reach id ∈ before := by
  have hprefix : before ++ [.strengthen id] <+: events := ⟨after, by simp [hevents]⟩
  clear hevents
  induction h with
  | nil => simp at hprefix
  | @snoc events e _ _ hreached ih =>
    rcases List.prefix_concat_iff.mp hprefix with heq | hprefix
    · obtain ⟨rfl, he⟩ := List.append_inj' heq rfl
      exact hreached id (List.singleton_inj.mp he).symm
    · exact ih hprefix

/-- The events are all that happened to objects and nodes. -/
structure Chronicle (events : List Event) (s : State) : Prop where
  orderly : Orderly events
  reached : ∀ id, s.reached.contains id = true ↔ .reach id ∈ events
  strong : ∀ id, s.strong.contains id = true ↔ .strengthen id ∈ events
  expanded : ∀ ref, .expand ref ∈ events → ref ∈ s.agenda.toList.take s.expanded
  inspected : ∀ kind ref, .inspect kind ref ∈ events → .expand ref ∈ events

namespace Chronicle

theorem init : Chronicle [] {} := ⟨.nil, by simp, by simp, by simp, by simp⟩

/-- What changes neither leaves the events as they are. -/
theorem congr (hc : Chronicle events s) (htally : s'.tally = s.tally)
    (hagenda : s.agenda.toList <+: s'.agenda.toList) : Chronicle events s' := by
  obtain ⟨hreached, htally⟩ := Prod.mk.inj htally
  obtain ⟨hstrong, hexpanded⟩ := Prod.mk.inj htally
  obtain ⟨rest, hrest⟩ := hagenda
  refine ⟨hc.orderly, by rw [hreached]; exact hc.reached, by rw [hstrong]; exact hc.strong,
    fun ref href => ?_, hc.inspected⟩
  rw [hexpanded]
  rw [← hrest, List.take_append]
  exact List.mem_append_left _ (hc.expanded ref href)

/-- A node is reached for the first time. -/
theorem reach (hc : Chronicle events s) (hnew : s.reached.contains id = false)
    (hreached : ∀ o, s'.reached.contains o = (id == o || s.reached.contains o))
    (hstrong : s'.strong = s.strong) (hagenda : s'.agenda = s.agenda)
    (hexpanded : s'.expanded = s.expanded) : Chronicle (events ++ [.reach id]) s' where
  orderly := hc.orderly.snoc
    (fun hmem => Bool.false_ne_true (hnew.symm.trans ((hc.reached id).mpr hmem)))
    fun _ he => by cases he
  reached o := by
    rw [hreached, Bool.or_eq_true, hc.reached, List.mem_append, List.mem_singleton,
      Event.reach.injEq, beq_iff_eq, or_comm, eq_comm]
  strong o := by
    rw [hstrong, hc.strong]
    simp
  expanded ref href := by
    rw [hagenda, hexpanded]
    exact hc.expanded ref (by simpa using href)
  inspected kind ref href := List.mem_append_left _ (hc.inspected kind ref (by simpa using href))

/-- A node that is reached is strongly reached for the first time. -/
theorem strengthen (hc : Chronicle events s) (hnew : s.strong.contains id = false)
    (hid : s.reached.contains id = true)
    (hstrong : ∀ o, s'.strong.contains o = (id == o || s.strong.contains o))
    (hreached : ∀ o, s'.reached.contains o = s.reached.contains o) (hagenda : s'.agenda = s.agenda)
    (hexpanded : s'.expanded = s.expanded) : Chronicle (events ++ [.strengthen id]) s' where
  orderly := hc.orderly.snoc
    (fun hmem => Bool.false_ne_true (hnew.symm.trans ((hc.strong id).mpr hmem)))
    fun o he => by
      cases he
      exact (hc.reached id).mp hid
  reached o := by
    rw [hreached, hc.reached]
    simp
  strong o := by
    rw [hstrong, Bool.or_eq_true, hc.strong, List.mem_append, List.mem_singleton,
      Event.strengthen.injEq, beq_iff_eq, or_comm, eq_comm]
  expanded ref href := by
    rw [hagenda, hexpanded]
    exact hc.expanded ref (by simpa using href)
  inspected kind ref href := List.mem_append_left _ (hc.inspected kind ref (by simpa using href))

/-- The next resolution takes effect. -/
theorem resolve (hc : Chronicle events s) (r : Resolution) :
    Chronicle (events ++ s.rises r) (s.next.resolve r) := by
  have hrecords := records_resolve s r
  have hagenda : (s.next.resolve r).agenda = s.agenda :=
    eq_of_view State.records State.agenda (fun _ => rfl) hrecords
  have hexpanded : (s.next.resolve r).expanded = s.expanded :=
    eq_of_view State.records State.expanded (fun _ => rfl) hrecords
  have hreached : ∀ o, (s.next.resolve r).reached.contains o =
      (s.isNewlyReached r && r.child == o || s.reached.contains o) := s.contains_reached_resolve r
  have hstrong : ∀ o, (s.next.resolve r).strong.contains o =
      (s.isNewlyStrong r && r.child == o || s.strong.contains o) := s.contains_strong_resolve r
  -- first the node is reached, then it is strongly reached
  let s₁ : State := { s with reached := (s.next.resolve r).reached }
  have h₁ : Chronicle (events ++ if s.isNewlyReached r then [.reach r.child] else []) s₁ := by
    cases hr : s.isNewlyReached r with
    | false =>
      simp only [hr, Bool.false_and, Bool.false_or] at hreached
      simp only [Bool.false_eq_true, ↓reduceIte, List.append_nil]
      exact { hc with reached := fun id => by rw [← hc.reached id, ← hreached id] }
    | true =>
      simp only [hr, Bool.true_and] at hreached
      have hnew : s.reached.contains r.child = false := by simpa [State.isNewlyReached] using hr
      exact hc.reach hnew hreached rfl rfl rfl
  rw [State.rises, ← List.append_assoc]
  cases hs : s.isNewlyStrong r with
  | false =>
    simp only [hs, Bool.false_and, Bool.false_or] at hstrong
    simp only [Bool.false_eq_true, ↓reduceIte, List.append_nil]
    refine { h₁ with strong := fun id => by rw [← h₁.strong id, hstrong id], expanded := ?_ }
    rw [hagenda, hexpanded]
    exact h₁.expanded
  | true =>
    simp only [hs, Bool.true_and] at hstrong
    have hnew : s.strong.contains r.child = false := by
      simp only [State.isNewlyStrong, Bool.and_eq_true, Bool.not_eq_true'] at hs
      exact hs.2
    have hid : s₁.reached.contains r.child = true := by
      show (s.next.resolve r).reached.contains r.child = true
      rw [hreached, State.isNewlyReached]
      simp
    exact h₁.strengthen hnew hid hstrong (fun _ => rfl) hagenda hexpanded

/-- The next object of the agenda is expanded. -/
theorem expand (hc : Chronicle events s) (hi : Indexed h s) {ref : ObjectRef}
    (href : s.agenda[s.expanded]? = some ref) :
    Chronicle (events ++ expansion h registry ref) { s with expanded := s.expanded + 1 } := by
  have href' : s.agenda.toList[s.expanded]? = some ref := by rwa [Array.getElem?_toList]
  have htake : s.agenda.toList.take (s.expanded + 1) =
      s.agenda.toList.take s.expanded ++ [ref] := by
    rw [List.take_add_one, href']
    rfl
  have hnew : .expand ref ∉ events := fun hmem => by
    have hnodup := hi.nodup.sublist (List.take_sublist (s.expanded + 1) _)
    rw [htake, List.nodup_append] at hnodup
    exact hnodup.2.2 ref (hc.expanded ref hmem) ref (List.mem_singleton_self ref) rfl
  have hexpand : Chronicle (events ++ [.expand ref]) { s with expanded := s.expanded + 1 } := {
    orderly := hc.orderly.snoc hnew fun _ he => by cases he
    reached := fun id => by rw [hc.reached id]; simp
    strong := fun id => by rw [hc.strong id]; simp
    expanded := fun ref' hmem => by
      show ref' ∈ s.agenda.toList.take (s.expanded + 1)
      rw [htake, List.mem_append, List.mem_singleton]
      rcases List.mem_append.mp hmem with hmem | hmem
      · exact .inl (hc.expanded ref' hmem)
      · exact .inr (Event.expand.inj (List.mem_singleton.mp hmem))
    inspected := fun kind ref' hmem =>
      List.mem_append_left _ (hc.inspected kind ref' (by simpa using hmem)) }
  unfold expansion
  cases (h.builtin? ref).filter fun kind => (registry kind).isSome with
  | none => exact hexpand
  | some kind =>
    have hinspect : .inspect kind ref ∉ events ++ [.expand ref] := fun hmem =>
      hnew (hc.inspected kind ref (by simpa using hmem))
    show Chronicle (events ++ ([.expand ref] ++ [.inspect kind ref])) _
    rw [← List.append_assoc]
    exact {
      orderly := hexpand.orderly.snoc hinspect fun _ he => by cases he
      reached := fun id => by rw [hexpand.reached id]; simp
      strong := fun id => by rw [hexpand.strong id]; simp
      expanded := fun ref' hmem => hexpand.expanded ref' (by simpa using hmem)
      inspected := fun kind' ref' hmem => by
        rcases List.mem_append.mp hmem with hmem | hmem
        · exact List.mem_append_left _ (hexpand.inspected kind' ref' hmem)
        · obtain ⟨-, rfl⟩ := Event.inspect.inj (List.mem_singleton.mp hmem)
          simp }

/-- What the loop over the resolutions leaves. -/
theorem drains (hc : Chronicle events s) (hd : Drains s news s') :
    Chronicle (events ++ news) s' := by
  induction hd generalizing events with
  | done => rwa [List.append_nil]
  | next hr _ ih =>
    rw [← List.append_assoc]
    exact ih (hc.resolve _)

end Chronicle

/-! ## What is queued is paid for -/

/-- Resolutions are those of `n` held values, and three at most for each reference:
one when it is recorded, and two that are due as long as its parent is not reached
or not strongly reached. -/
def Metered (n : Nat) (s : State) : Prop := s.log.length + s.due ≤ n + 3 * s.edges.size

namespace Metered

variable {n : Nat}

theorem congr (hm : Metered n s) (hl : s'.liveness = s.liveness) (he : s'.edges = s.edges) :
    Metered n s' := by
  have hlive : Metered n { s.liveness with edges := s.edges } := hm
  rw [← hl, ← he] at hlive
  exact hlive

/-- What a reference costs: a resolution, and two that are due. -/
def Costs (s t : State) : Prop := t.log.length ≤ s.log.length + 1 ∧ t.due ≤ s.due + 2

/-- A reference waits for its parent, unless it has owners. -/
theorem waiting_push (alive : NodeId → Bool) (edges : Array Edge) (e : Edge) :
    waiting alive (edges.push e).toList ≤
      waiting alive edges.toList + (ofParent e).toNat := by
  rw [Array.toList_push, waiting, List.countP_append, List.countP_singleton, ← waiting]
  cases ofParent e <;> cases alive e.parent <;> simp

theorem costs_record (s : State) (e : Edge) : Costs s (s.record e) := by
  have hr := waiting_push s.reached.contains s.edges e
  have hs := waiting_push s.strong.contains s.edges e
  have hle := Bool.toNat_le (ofParent e)
  refine ⟨Nat.le_succ _, ?_⟩
  show waiting s.reached.contains (s.edges.push e).toList +
    waiting s.strong.contains (s.edges.push e).toList +
    (s.reachJoints.unresolved + s.strongJoints.unresolved) ≤ _
  unfold State.due
  omega

theorem costs_propagate (s : State) (e : Edge) (p : Passage) :
    Costs s ((s.record e).propagate e.parent p) := by
  have hlength : ((s.record e).propagated e.parent p).length ≤ 1 := by
    unfold State.propagated
    split <;> simp
  have hlog : ((s.record e).propagate e.parent p).log =
      s.log ++ (s.record e).propagated e.parent p := by
    rw [State.propagate_eq, State.log_pushAll]
    rfl
  have hdue : ((s.record e).propagate e.parent p).due = (s.record e).due := by
    rw [State.propagate_eq]
    rfl
  unfold Costs
  rw [hlog, hdue, List.length_append]
  exact ⟨by omega, (costs_record s e).2⟩

/-- A joint reference without owners is settled at once. -/
theorem unresolved_add_le (x : JointIndex) (alive : NodeId → Bool) (child : NodeId) (e : Edge) :
    (x.add alive child e.owners e.id).2.unresolved + (ofParent e).toNat ≤ x.unresolved + 1 := by
  rw [JointIndex.unresolved_add]
  cases ho : e.owners with
  | nil =>
    have hparent : ofParent e = true := by rw [ofParent, ho]; rfl
    rw [hparent, List.all_nil]
    simp
  | cons o rest =>
    have hjoint : ofParent e = false := by rw [ofParent, ho]; rfl
    rw [hjoint]
    split <;> simp

theorem costs_trackJoint (s : State) (e : Edge) (child : NodeId) :
    Costs s ((s.record e).trackJoint child e.owners e.id) := by
  have hlength : ((s.record e).tracked child e.owners e.id).length ≤ 1 := by
    unfold State.tracked
    split
    · simp
    · split <;> simp
  have hlog : ((s.record e).trackJoint child e.owners e.id).log =
      s.log ++ (s.record e).tracked child e.owners e.id := by
    rw [State.trackJoint_eq, State.log_pushAll]
    rfl
  have hdue : ((s.record e).trackJoint child e.owners e.id).due =
      waiting s.reached.contains (s.edges.push e).toList +
        waiting s.strong.contains (s.edges.push e).toList +
        ((s.reachJoints.add s.reached.contains child e.owners e.id).2.unresolved +
          (s.strongJoints.add s.strong.contains child e.owners e.id).2.unresolved) := by
    rw [State.trackJoint_eq]
    rfl
  have hr := waiting_push s.reached.contains s.edges e
  have hs := waiting_push s.strong.contains s.edges e
  have hreach := unresolved_add_le s.reachJoints s.reached.contains child e
  have hstrong := unresolved_add_le s.strongJoints s.strong.contains child e
  unfold Costs
  rw [hlog, hdue, List.length_append]
  refine ⟨by omega, ?_⟩
  unfold State.due
  omega

theorem costs_follow (s : State) (e : Edge) (strength : Strength) :
    Costs s ((s.record e).follow options e strength) := by
  unfold State.follow
  split
  · rename_i child _
    cases strength with
    | strong => exact costs_propagate ..
    | weak =>
      show Costs s (if options.strongOnly then s.record e
        else (s.record e).propagate e.parent ⟨child, e.id, false⟩)
      split
      · exact costs_record s e
      · exact costs_propagate ..
    | joint owners => exact costs_trackJoint ..
  · exact costs_record s e

theorem record (hm : Metered n s) (e : Edge) (strength : Strength) :
    Metered n ((s.record e).follow options e strength) := by
  have hedges : ((s.record e).follow options e strength).edges.size = s.edges.size + 1 := by
    rw [eq_of_view State.records State.edges (fun _ => rfl) (records_follow ..)]
    exact Array.size_push ..
  have hcosts : Costs s ((s.record e).follow options e strength) := costs_follow s e strength
  obtain ⟨hlog, hdue⟩ := hcosts
  unfold Metered at hm ⊢
  omega

theorem resolve (hm : Metered n s) (hb : s.Budgeted) (r : Resolution) :
    Metered n (s.next.resolve r) := by
  have hedges : (s.next.resolve r).edges = s.edges :=
    eq_of_view State.records State.edges (fun _ => rfl) (records_resolve s r)
  by_cases hnew : (s.isNewlyReached r || s.isNewlyStrong r) = true
  · have hlog := congrArg List.length (State.log_resolve_of_new hnew)
    have hdue := hb.length_broughtAbout hnew
    rw [List.length_append] at hlog
    unfold Metered at hm ⊢
    rw [hedges]
    omega
  · rw [Bool.not_eq_true, Bool.or_eq_false_iff] at hnew
    rw [State.resolve_of_not_new (s := s.next) hnew.1 hnew.2]
    exact hm

end Metered

/-- Where nothing more is held, every change is paid for. -/
theorem Shift.metered {n : Nat} (hs : Shift h options (fun _ => False) s s') (hsound : Sound s)
    (hm : Metered n s) : Metered n s' := by
  cases hs with
  | enter | mark => exact hm
  | move hmove =>
    cases hmove with
    | discover hd _ => exact hm.congr (by rw [← hd.frame]; rfl) (by rw [← hd.frame]; rfl)
    | hold hv => exact hv.elim
    | record => exact hm.record ..
    | enter | note | expand => exact hm
    | resolve => exact hm.resolve hsound.budgeted _

theorem Shifts.metered {n : Nat} (hs : Shifts h options (fun _ => False) s s') (hsound : Sound s)
    (hm : Metered n s) : Metered n s' :=
  (hs.keep (I := fun s => Sound s ∧ Metered n s)
    (fun hs hI => ⟨hs.sound hI.1, hs.metered hI.1 hI.2⟩) ⟨hsound, hm⟩).2

/-! ## The start -/

theorem Metered.mono {n m : Nat} (hm : Metered n s) (hle : n ≤ m) : Metered m s := by
  unfold Metered at hm ⊢
  omega

/-- What is preserved pays for what is preserved. -/
theorem Metered.of_preserves {α : Type} {n : Nat} {m : Step α} (hm : Metered n s)
    (hp : Preserves (fun s => (s.liveness, s.edges)) m) : Metered n (exec m s).2 := by
  obtain ⟨hl, he⟩ := Prod.mk.inj (hp s)
  exact hm.congr hl he

theorem preserves_hold (v : Value) : Preserves State.tally (hold h v) := by
  unfold hold
  split
  · exact .pure ()
  · exact .bind (preserves_discover (fun _ _ => rfl) _) fun _ => .modify fun _ => rfl

/-- To hold a value queues one resolution at most. -/
theorem metered_hold {n : Nat} (hm : Metered n s) (v : Value) :
    Metered (n + 1) (exec (hold h v) s).2 := by
  unfold hold
  split
  · exact hm.mono (Nat.le_succ n)
  · rename_i i _
    have hdiscover : Metered n (exec (discover h i) s).2 :=
      hm.of_preserves (preserves_discover (fun _ _ => rfl) i)
    rw [exec_bind]
    cases hexec : exec (discover h i) s with
    | mk outcome s₁ =>
      rw [hexec] at hdiscover
      cases outcome with
      | error cause => exact hdiscover.mono (Nat.le_succ n)
      | ok id =>
        have hlog : (s₁.keep id).log.length = s₁.log.length + 1 := by
          rw [State.keep, State.push_eq, State.log_pushAll, List.length_append]
          rfl
        show (s₁.keep id).log.length + s₁.due ≤ n + 1 + 3 * s₁.edges.size
        have hpaid : s₁.log.length + s₁.due ≤ n + 3 * s₁.edges.size := hdiscover
        omega

theorem metered_holdAll {n : Nat} (hm : Metered n s) (held : List Value) :
    Metered (n + held.length) (exec (held.forM (hold h)) s).2 := by
  induction held generalizing n s with
  | nil => exact hm
  | cons v rest ih =>
    have hv : Metered (n + 1) (exec (hold h v) s).2 := metered_hold hm v
    show Metered _ (exec (hold h v >>= fun _ => rest.forM (hold h)) s).2
    rw [exec_bind]
    cases hexec : exec (hold h v) s with
    | mk outcome s₁ =>
      rw [hexec] at hv
      cases outcome with
      | error cause => exact hv.mono (by rw [List.length_cons]; omega)
      | ok _ => exact (ih hv).mono (by rw [List.length_cons]; omega)

/-- What a search has come to before its loops, whether it goes on or not. -/
theorem chronicle_start (target : Value) (held : List Value) :
    Chronicle [] (exec (start h target held) {}).2 ∧
      Metered held.length (exec (start h target held) {}).2 := by
  have htally : Preserves State.tally (start h target held) :=
    .bind (.forM preserves_hold) fun _ => .bind (preserves_identity target) fun _ =>
      preserves_register (fun _ _ => rfl) _
  refine ⟨Chronicle.init.congr (htally {}) ⟨_, rfl⟩, ?_⟩
  have hinit : Metered 0 {} := Nat.le_refl 0
  have hheld : Metered (0 + held.length) (exec (held.forM (hold h)) {}).2 :=
    metered_holdAll hinit held
  rw [Nat.zero_add] at hheld
  unfold start
  rw [exec_bind]
  cases hexec : exec (held.forM (hold h)) {} with
  | mk outcome s₁ =>
    rw [hexec] at hheld
    cases outcome with
    | error cause => exact hheld
    | ok _ =>
      exact hheld.of_preserves (.bind (preserves_identity target) fun _ =>
        preserves_register (fun _ _ => rfl) _)

/-! ## Whole searches -/

theorem Drains.moves {asked : Request → Prop} (hd : Drains s events s') :
    Moves h options asked given s s' := by
  induction hd with
  | done => exact .refl
  | next hr _ ih => exact .trans (.single (.resolve hr)) ih

/-- What an expansion keeps, whether it fails or not. -/
theorem expandBy_keeps {ref : ObjectRef} {outcome : Except Abrupt Unit} {n : Nat}
    (href : s.agenda[s.expanded]? = some ref)
    (hexpand : exec (expandBy h options registry ref) { s with expanded := s.expanded + 1 } =
      (outcome, s'))
    (hi : Indexed h s) (hs : Sound s) (hc : Chronicle events s) (hm : Metered n s) :
    Indexed h s' ∧ Sound s' ∧ Chronicle (events ++ expansion h registry ref) s' ∧ Metered n s' := by
  have hi₁ : Indexed h { s with expanded := s.expanded + 1 } := hi.congr rfl
  have hs₁ : Sound { s with expanded := s.expanded + 1 } := hs.of_liveness rfl rfl
  have hm₁ : Metered n { s with expanded := s.expanded + 1 } := hm
  have hbody : Shifting h options (fun _ => False) (expandBy h options registry ref)
      { s with expanded := s.expanded + 1 } := shifting_expandBy hi₁ ref
  have hpreserves : Preserves State.tally (expandBy h options registry ref) :=
    preserves_expandBy ref
  have htally := hpreserves { s with expanded := s.expanded + 1 }
  rw [hexpand] at htally
  have hshifts := hbody.of_exec_eq hexpand
  exact ⟨hshifts.indexed hi₁, hshifts.sound hs₁,
    (hc.expand hi href).congr htally hshifts.grows.agenda, hshifts.metered hs₁ hm₁⟩

/-- What the loop over the agenda leaves. -/
theorem Explores.keeps {outcome : Except Abrupt Unit × State} {n : Nat}
    (he : Explores h options registry s news outcome) (hi : Indexed h s) (hs : Sound s)
    (hc : Chronicle events s) (hm : Metered n s) :
    Indexed h outcome.2 ∧ Chronicle (events ++ news) outcome.2 ∧ Metered n outcome.2 := by
  induction he generalizing events with
  | done => exact ⟨hi, by rwa [List.append_nil], hm⟩
  | fails href hexpand =>
    obtain ⟨hi', -, hc', hm'⟩ := expandBy_keeps href hexpand hi hs hc hm
    exact ⟨hi', hc', hm'⟩
  | @next s s₁ s₂ ref drained rest outcome href hexpand hdrain hrest ih =>
    obtain ⟨hi₁, hs₁, hc₁, hm₁⟩ := expandBy_keeps href hexpand hi hs hc hm
    have hmoves : Moves h options (fun req => req.entryAt? = none) (fun _ => False) s₁ s₂ :=
      hdrain.moves
    have hc₂ := hc₁.drains hdrain
    rw [← List.append_assoc, ← List.append_assoc]
    exact ih (hmoves.indexed hi₁) (hmoves.sound hs₁) hc₂
      ((Shifts.of_moves hmoves).metered hs₁ hm₁)

/-- The objects that are expanded are different objects of the heap. -/
theorem Chronicle.expansions_le (hc : Chronicle events s) (hi : Indexed h s) :
    (events.filter Event.isExpansion).length ≤ h.size := by
  have hsub : events.filter Event.isExpansion ⊆ s.agenda.toList.map Event.expand := fun e he => by
    obtain ⟨hmem, hexpansion⟩ := List.mem_filter.mp he
    cases e with
    | expand ref => exact List.mem_map_of_mem (List.mem_of_mem_take (hc.expanded ref hmem))
    | inspect | reach | strengthen => cases hexpansion
  have hle := (hc.orderly.nodup.filter _).length_le_of_subset hsub
  rw [List.length_map, Array.length_toList] at hle
  exact Nat.le_trans hle hi.agenda_size_le

/-- What a search leaves, whether it answers or fails. -/
theorem Runs.keeps {target : Value} {held : List Value} {outcome : Except Abrupt Graph × State}
    (hr : Runs h options registry target held events outcome) :
    Chronicle events outcome.2 ∧ Metered held.length outcome.2 ∧
      (events.filter Event.isExpansion).length ≤ h.size := by
  obtain ⟨hc, hm⟩ := chronicle_start (h := h) target held
  cases hr with
  | fails hstart =>
    rw [hstart] at hc hm
    exact ⟨hc, hm, Nat.zero_le _⟩
  | starts hstart hdrain hexplore =>
    obtain ⟨hmoves, -⟩ := (start_spec options target held).of_exec_eq_ok hstart
    rw [hstart] at hc hm
    have hdrains : Moves h options (fun req => req.entryAt? = none) (fun _ => False) _ _ :=
      hdrain.moves
    have hi := hmoves.indexed (.init h)
    have hs := hmoves.sound .init
    obtain ⟨hi', hc', hm'⟩ := hexplore.keeps (hdrains.indexed hi) (hdrains.sound hs)
      (hc.drains hdrain) ((Shifts.of_moves hdrains).metered hs hm)
    exact ⟨hc', hm', hc'.expansions_le hi'⟩

/-- A search comes to an end, whatever the heap is and whatever its analyzers do.
No object is expanded twice or shown to an analyzer twice, so that there are at
most as many expansions as the heap has slots. No node changes more than twice:
it is reached, then strongly reached. The resolutions that are ever queued are
those of the held values and at most three for each reference. -/
theorem search_terminates (h : Heap) (options : Options) (registry : Registry) (target : Value)
    (held : List Value) :
    ∃ events answer s, exec (searchBy h options registry target held) {} = (answer, s) ∧
      Runs h options registry target held events (answer, s) ∧
      (∀ events' outcome, Runs h options registry target held events' outcome →
        events' = events ∧ outcome = (answer, s)) ∧
      events.Nodup ∧
      (events.filter Event.isExpansion).length ≤ h.size ∧
      (∀ before after id, events = before ++ .strengthen id :: after → .reach id ∈ before) ∧
      (∀ id, (s.reached.contains id = true ↔ .reach id ∈ events) ∧
        (s.strong.contains id = true ↔ .strengthen id ∈ events)) ∧
      s.resolutions.size ≤ held.length + 3 * s.edges.size := by
  obtain ⟨events, hruns⟩ := runs_searchBy h options registry target held
  cases hexec : exec (searchBy h options registry target held) {} with
  | mk answer s =>
    rw [hexec] at hruns
    obtain ⟨hc, hm, hle⟩ := hruns.keeps
    have hpaid : s.log.length + s.due ≤ held.length + 3 * s.edges.size := hm
    have hsize : s.log.length = s.resolutions.size := Array.length_toList
    exact ⟨events, answer, s, rfl, hruns, fun events' outcome hr => hr.unique hruns,
      hc.orderly.nodup, hle, fun before after id heq => hc.orderly.reach_mem heq,
      fun id => ⟨hc.reached id, hc.strong id⟩, by omega⟩

end Retention.Search
