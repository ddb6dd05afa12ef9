import Retention.Proofs.Heap.Extension
import Retention.Proofs.Search.Preserving
import Retention.Proofs.Search.Shifting

/-!
# The loops of a search

The two loops of a search without a bound on their steps: resolutions take
effect until none waits (`Drains`), and objects of the agenda are expanded until
none is left or one fails (`Explores`). A run of both (`Runs`) lists what happens
to objects and nodes (`Event`).

Whatever the heap is and whatever the analyzers do, both loops come to an end,
and what they come to is what the search answers (`runs_searchBy`): the bounds
that it works with are never what ends it.
-/

namespace Retention.Search

/-- What happens to an object or a node in the course of a search. -/
inductive Event where
  /-- An object is expanded. -/
  | expand (ref : ObjectRef)
  /-- The analyzer of a kind looks at an object. -/
  | inspect (kind : BuiltinKind) (ref : ObjectRef)
  /-- A node is reached. -/
  | reach (id : NodeId)
  /-- A node is strongly reached. -/
  | strengthen (id : NodeId)
deriving DecidableEq, Repr

/-- Whether an event is the expansion of an object. -/
def Event.isExpansion : Event → Bool
  | .expand _ => true
  | _ => false

/-- What a resolution changes about the liveness of its node. -/
def State.rises (s : State) (r : Resolution) : List Event :=
  (if s.isNewlyReached r then [.reach r.child] else []) ++
    if s.isNewlyStrong r then [.strengthen r.child] else []

/-- Resolutions take effect, in order, until none waits. -/
inductive Drains : State → List Event → State → Prop where
  | done {s : State} (hnone : s.resolutions[s.resolved]? = none) : Drains s [] s
  | next {s s' : State} {r : Resolution} {events : List Event}
    (hr : s.resolutions[s.resolved]? = some r) (hrest : Drains (s.next.resolve r) events s') :
    Drains s (s.rises r ++ events) s'

/-- What the expansion of an object begins with: its analyzer, if its kind has one. -/
def expansion (h : Heap) (registry : Registry) (ref : ObjectRef) : List Event :=
  .expand ref ::
    ((h.builtin? ref).filter fun kind => (registry kind).isSome).toList.map (.inspect · ref)

/-- Objects of the agenda are expanded, each followed by the resolutions that
wait, until none is left or an expansion fails. -/
inductive Explores (h : Heap) (options : Options) (registry : Registry) :
    State → List Event → Except Abrupt Unit × State → Prop where
  | done {s : State} (hnone : s.agenda[s.expanded]? = none) :
    Explores h options registry s [] (.ok (), s)
  | fails {s s' : State} {ref : ObjectRef} {cause : Abrupt}
    (href : s.agenda[s.expanded]? = some ref)
    (hexpand : exec (expandBy h options registry ref) { s with expanded := s.expanded + 1 } =
      (.error cause, s')) :
    Explores h options registry s (expansion h registry ref) (.error cause, s')
  | next {s s₁ s₂ : State} {ref : ObjectRef} {events events' : List Event}
    {outcome : Except Abrupt Unit × State} (href : s.agenda[s.expanded]? = some ref)
    (hexpand : exec (expandBy h options registry ref) { s with expanded := s.expanded + 1 } =
      (.ok (), s₁))
    (hdrain : Drains s₁ events s₂) (hrest : Explores h options registry s₂ events' outcome) :
    Explores h options registry s (expansion h registry ref ++ (events ++ events')) outcome

/-- What a search does before its loops: the held values are held, and the target
is given its node. -/
def start (h : Heap) (target : Value) (held : List Value) : Step NodeId := do
  held.forM (hold h)
  register h (← identity target)

/-- A whole search, with what it answers and the state that it leaves. -/
inductive Runs (h : Heap) (options : Options) (registry : Registry) (target : Value)
    (held : List Value) : List Event → Except Abrupt Graph × State → Prop where
  | fails {cause : Abrupt} {s : State}
    (hstart : exec (start h target held) {} = (.error cause, s)) :
    Runs h options registry target held [] (.error cause, s)
  | starts {id : NodeId} {s s₁ s₂ : State} {events events' : List Event}
    {outcome : Except Abrupt Unit} (hstart : exec (start h target held) {} = (.ok id, s))
    (hdrain : Drains s events s₁)
    (hexplore : Explores h options registry s₁ events' (outcome, s₂)) :
    Runs h options registry target held (events ++ events')
      (outcome.map fun _ => s₂.graph id, s₂)

variable {h : Heap} {options : Options} {registry : Registry} {given : Identity → Prop}
  {s s' : State} {events : List Event}

/-! ## The loops are deterministic -/

theorem Drains.unique {s'' : State} {events' : List Event} (hd : Drains s events s')
    (hd' : Drains s events' s'') : events = events' ∧ s' = s'' := by
  induction hd generalizing events' with
  | done hnone =>
    cases hd' with
    | done => exact ⟨rfl, rfl⟩
    | next hr => cases hnone.symm.trans hr
  | next hr _ ih =>
    cases hd' with
    | done hnone => cases hnone.symm.trans hr
    | next hr' hrest' =>
      cases hr.symm.trans hr'
      obtain ⟨rfl, rfl⟩ := ih hrest'
      exact ⟨rfl, rfl⟩

theorem Explores.unique {outcome outcome' : Except Abrupt Unit × State} {events' : List Event}
    (he : Explores h options registry s events outcome)
    (he' : Explores h options registry s events' outcome') :
    events = events' ∧ outcome = outcome' := by
  induction he generalizing events' with
  | done hnone =>
    cases he' with
    | done => exact ⟨rfl, rfl⟩
    | fails href | next href => cases hnone.symm.trans href
  | fails href hexpand =>
    cases he' with
    | done hnone => cases hnone.symm.trans href
    | fails href' hexpand' =>
      cases href.symm.trans href'
      cases hexpand.symm.trans hexpand'
      exact ⟨rfl, rfl⟩
    | next href' hexpand' =>
      cases href.symm.trans href'
      cases hexpand.symm.trans hexpand'
  | next href hexpand hdrain _ ih =>
    cases he' with
    | done hnone => cases hnone.symm.trans href
    | fails href' hexpand' =>
      cases href.symm.trans href'
      cases hexpand.symm.trans hexpand'
    | next href' hexpand' hdrain' hrest' =>
      cases href.symm.trans href'
      cases hexpand.symm.trans hexpand'
      obtain ⟨rfl, rfl⟩ := hdrain.unique hdrain'
      obtain ⟨rfl, rfl⟩ := ih hrest'
      exact ⟨rfl, rfl⟩

/-- There is one way for a search to run. -/
theorem Runs.unique {target : Value} {held : List Value}
    {outcome outcome' : Except Abrupt Graph × State} {events' : List Event}
    (hr : Runs h options registry target held events outcome)
    (hr' : Runs h options registry target held events' outcome') :
    events = events' ∧ outcome = outcome' := by
  cases hr with
  | fails hstart =>
    cases hr' with
    | fails hstart' =>
      cases hstart.symm.trans hstart'
      exact ⟨rfl, rfl⟩
    | starts hstart' => cases hstart.symm.trans hstart'
  | starts hstart hdrain hexplore =>
    cases hr' with
    | fails hstart' => cases hstart.symm.trans hstart'
    | starts hstart' hdrain' hexplore' =>
      cases hstart.symm.trans hstart'
      obtain ⟨rfl, rfl⟩ := hdrain.unique hdrain'
      obtain ⟨rfl, he⟩ := hexplore.unique hexplore'
      cases he
      exact ⟨rfl, rfl⟩

/-! ## The loops come to an end -/

theorem Shift.sound (hs : Shift h options given s s') (hsound : Sound s) : Sound s' := by
  cases hs with
  | move hm => exact hm.sound hsound
  | enter | mark => exact hsound.of_liveness rfl rfl

theorem Shifts.sound (hs : Shifts h options given s s') (hsound : Sound s) : Sound s' :=
  hs.keep Shift.sound hsound

/-- Steps that leave nothing to resolve are those of the loop. -/
theorem exists_drains_drainWithin {steps : Nat} (hd : (s.drainWithin steps).Drained)
    (hle : (s.drainWithin steps).resolved ≤ (s.drainWithin steps).log.length) :
    ∃ events, Drains s events (s.drainWithin steps) := by
  induction steps generalizing s with
  | zero =>
    refine ⟨[], .done (Array.getElem?_eq_none_iff.mpr ?_)⟩
    have hlength := congrArg List.length hd
    rw [State.settled, List.length_take] at hlength
    have hsize : (s.drainWithin 0).log.length = s.resolutions.size := Array.length_toList
    have hresolved : (s.drainWithin 0).resolved = s.resolved := rfl
    omega
  | succ steps ih =>
    rw [State.drainWithin] at hd hle ⊢
    cases hr : s.resolutions[s.resolved]? with
    | none => exact ⟨[], .done hr⟩
    | some r =>
      rw [hr] at hd hle
      obtain ⟨events, hrest⟩ := ih hd hle
      exact ⟨_, .next hr hrest⟩

/-- Draining runs the loop over the resolutions to its end. -/
theorem exists_drains (hs : Sound s) : ∃ events, Drains s events s.drain :=
  exists_drains_drainWithin hs.drained_drain hs.drain.coherent.resolved_le

/-- Enough steps run the loop over the agenda to its end. -/
theorem exists_explores {steps : Nat} (hi : Indexed h s) (hs : Sound s)
    (hsteps : h.size ≤ s.expanded + steps) :
    ∃ events, Explores h options registry s events
      (exec (expandAll (expandBy h options registry) steps) s) := by
  induction steps generalizing s with
  | zero =>
    exact ⟨[], .done (Array.getElem?_eq_none_iff.mpr (Nat.le_trans hi.agenda_size_le hsteps))⟩
  | succ steps ih =>
    rw [expandAll, exec_bind, exec_get]
    dsimp only
    cases href : s.agenda[s.expanded]? with
    | none => exact ⟨[], .done href⟩
    | some ref =>
      let s₁ : State := { s with expanded := s.expanded + 1 }
      have hi₁ : Indexed h s₁ := hi.congr rfl
      have hs₁ : Sound s₁ := hs.of_liveness rfl rfl
      have hbody : Shifting h options (fun _ => False) (expandBy h options registry ref) s₁ :=
        shifting_expandBy hi₁ ref
      dsimp only
      rw [exec_bind, exec_modify]
      dsimp only
      rw [exec_bind]
      cases hexec : exec (expandBy h options registry ref) s₁ with
      | mk outcome s₂ =>
        cases outcome with
        | error cause => exact ⟨_, .fails href hexec⟩
        | ok _ =>
          have hshifts := hbody.of_exec_eq hexec
          have hs₂ := hshifts.sound hs₁
          have hx₂ : s₂.expanded = s.expanded + 1 := by
            have hpreserves : Preserves State.tally (expandBy h options registry ref) :=
              preserves_expandBy ref
            have htally := hpreserves s₁
            rw [hexec] at htally
            exact congrArg (·.2.2) htally
          have hx₃ : s₂.drain.expanded = s.expanded + 1 :=
            (eq_of_view State.records State.expanded (fun _ => rfl) (records_drain s₂)).trans hx₂
          obtain ⟨events, hdrain⟩ := exists_drains hs₂
          obtain ⟨events', hrest⟩ := ih ((hshifts.indexed hi₁).of_records (records_drain s₂))
            hs₂.drain (by omega)
          exact ⟨_, .next href hexec hdrain hrest⟩

/-! ## Whole searches -/

theorem searchBy_eq (target : Value) (held : List Value) :
    searchBy h options registry target held = do
      let id ← start h target held
      modify State.drain
      expandAll (expandBy h options registry) h.size
      return (← get).graph id := by
  simp only [searchBy, start, bind_assoc]

/-- What the start of a search leaves. -/
theorem start_spec (options : Options) (target : Value) (held : List Value) :
    WP (start h target held) True {} fun _ s =>
      Moves h options (fun req => req.entryAt? = none) (Given held) {} s ∧ s.expanded = 0 := by
  unfold start
  have hholds : WP (held.forM (hold h)) True {} fun _ s =>
      Moves h options (fun req => req.entryAt? = none) (Given held) {} s ∧ _ :=
    holdAll_spec fun _ _ => .inr trivial
  refine .bind (hholds.mono ?_)
  rintro _ s₁ ⟨hm₁, hx₁, -⟩
  unfold identity
  cases Identity.ofValue target with
  | error violation => exact .bind (.throw trivial)
  | ok i =>
    refine .bind (.pure ((register_spec (hm₁.indexed (.init h)) (.inr trivial)).mono ?_))
    rintro id s₂ ⟨hd₂, hi₂, -⟩
    refine ⟨hm₁.trans (.single (.discover hd₂ hi₂)), ?_⟩
    rw [← hd₂.frame]
    exact hx₁

/-- A search comes to an end, whatever the heap is and whatever its analyzers do. -/
theorem runs_searchBy (h : Heap) (options : Options) (registry : Registry) (target : Value)
    (held : List Value) : ∃ events, Runs h options registry target held events
      (exec (searchBy h options registry target held) {}) := by
  rw [searchBy_eq, exec_bind]
  cases hstart : exec (start h target held) {} with
  | mk outcome s =>
    cases outcome with
    | error cause => exact ⟨[], .fails hstart⟩
    | ok id =>
      obtain ⟨hm, hx⟩ := (start_spec options target held).of_exec_eq_ok hstart
      have hs := hm.sound .init
      have hx' : s.drain.expanded = 0 :=
        (eq_of_view State.records State.expanded (fun _ => rfl) (records_drain s)).trans hx
      obtain ⟨events, hdrain⟩ := exists_drains hs
      have hi := (hm.indexed (.init h)).of_records (records_drain s)
      have hexplores : ∃ events, Explores h options registry s.drain events
          (exec (expandAll (expandBy h options registry) h.size) s.drain) :=
        exists_explores hi hs.drain (by omega)
      obtain ⟨events', hexplore⟩ := hexplores
      dsimp only
      rw [exec_bind, exec_modify]
      dsimp only
      rw [exec_bind]
      cases hexec : exec (expandAll (expandBy h options registry) h.size) s.drain with
      | mk outcome s₂ =>
        rw [hexec] at hexplore
        have hruns := Runs.starts hstart hdrain hexplore
        cases outcome with
        | error cause => exact ⟨_, hruns⟩
        | ok _ => exact ⟨_, hruns⟩

end Retention.Search
