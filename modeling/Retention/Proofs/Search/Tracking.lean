import Retention.Proofs.Search.Performing

/-!
# Searches and the requests that they perform

A search performs the requests of one object of its agenda after another. What
each request keeps, in view of the requests before it, and what the search does
in between keeps as well (`Tracks`) holds in the end of all requests that were
made (`Tracks.search`).

* `requestsOf`: the requests that are made for an object.
* `State.requested`: the requests made so far.
-/

namespace Retention.Search

/-- What is asked for when an object is expanded. -/
def requestsOf (h : Heap) (analyzers : AnalyzerTable) (ref : ObjectRef) : List Request :=
  (requestsFor h analyzers ref).toOption.getD []

/-- A move that no request makes is one of any search. -/
theorem Move.of_none {h : Heap} {options : Options} {asked : Request → Prop}
    {given : Identity → Prop} {s s' : State}
    (hm : Move h options (fun _ => False) given s s') : Move h options asked given s s' := by
  cases hm with
  | discover hd hi => exact .discover hd hi
  | hold hv hid hlog => exact .hold hv hid hlog
  | record hreq => exact hreq.elim
  | enter hreq => exact hreq.elim
  | note => exact .note
  | expand => exact .expand
  | resolve hr => exact .resolve hr

/-- What a search with the given held values keeps true of the requests that it
has performed. -/
structure Tracks (h : Heap) (options : Options) (given : Identity → Prop)
    (I : List Request → State → Prop) : Prop where
  init : I [] {}
  indexed : ∀ {reqs s}, I reqs s → Indexed h s
  /-- A move that no request makes. -/
  move : ∀ {reqs s s'}, Move h options (fun _ => False) given s s' → I reqs s → I reqs s'
  perform : ∀ {reqs s} (req : Request), I reqs s →
    WP (perform h options req) True s fun _ s' => I (reqs ++ [req]) s'

variable {h : Heap} {options : Options} {analyzers : AnalyzerTable} {given : Identity → Prop}
  {I : List Request → State → Prop} {reqs : List Request} {s s' : State} {held : List Value}

/-- What the objects of the agenda up to the cursor ask for. -/
def State.requested (s : State) (h : Heap) (analyzers : AnalyzerTable) : List Request :=
  (s.agenda.toList.take s.expanded).flatMap (requestsOf h analyzers)

/-- The cursor passes one object. -/
theorem State.requested_next (hg : Grows s s') (hx : s'.expanded = s.expanded + 1)
    {ref : ObjectRef} (href : s.agenda.toList[s.expanded]? = some ref) :
    s'.requested h analyzers = s.requested h analyzers ++ requestsOf h analyzers ref := by
  obtain ⟨news, hnews⟩ := hg.agenda
  have hlt := (List.getElem?_eq_some_iff.mp href).1
  have htake : s'.agenda.toList.take s'.expanded = s.agenda.toList.take s.expanded ++ [ref] := by
    rw [hx, ← hnews, List.take_append_of_le_length hlt, List.take_add_one, href]
    rfl
  rw [State.requested, htake, List.flatMap_append, List.flatMap_singleton, State.requested]

/-- The cursor is at the end of the agenda. -/
theorem State.requested_of_le (hle : s.agenda.size ≤ s.expanded) :
    s.requested h analyzers = s.agenda.toList.flatMap (requestsOf h analyzers) := by
  rw [State.requested, List.take_of_length_le (by rwa [Array.length_toList])]

namespace Tracks

section Steps

variable (ht : Tracks h options given I)

include ht

theorem moves (hm : Moves h options (fun _ => False) given s s') (hs : I reqs s) : I reqs s' :=
  hm.keep ht.move hs

theorem drain (hs : I reqs s) : I reqs s.drain := ht.moves (.drainWithin _) hs

theorem wp_perform (hs : I reqs s) (req : Request) :
    WP (Search.perform h options req) True s fun _ s' =>
      I (reqs ++ [req]) s' ∧ Grows s s' ∧ s'.expanded = s.expanded := by
  have hspec : WP (Search.perform h options req) True s fun _ s' =>
      Moves h options (· = req) given s s' ∧ _ :=
    perform_spec (ht.indexed hs) rfl (.inr trivial)
  refine ((ht.perform req hs).and hspec).mono ?_
  rintro _ s' ⟨hs', hm, -, hx⟩
  exact ⟨hs', hm.grows, hx⟩

theorem wp_expand (hs : I reqs s) (ref : ObjectRef) :
    WP (expand h options analyzers ref) True s fun _ s' =>
      I (reqs ++ requestsOf h analyzers ref) s' ∧ Grows s s' ∧ s'.expanded = s.expanded := by
  unfold expand
  refine .bind (.lift (fun news hnews => ?_) fun _ _ => trivial)
  have hrequests : requestsOf h analyzers ref = news := by rw [requestsOf, hnews]; rfl
  rw [hrequests]
  refine WP.forM (I := fun behind s' => I (reqs ++ behind) s' ∧ Grows s s' ∧
    s'.expanded = s.expanded) ?_ ⟨by rwa [List.append_nil], .refl s, rfl⟩
  rintro behind req ahead s₁ - ⟨hs₁, hg₁, hx₁⟩
  refine (ht.wp_perform hs₁ req).mono ?_
  rintro _ s₂ ⟨hs₂, hg₂, hx₂⟩
  rw [List.append_assoc] at hs₂
  exact ⟨hs₂, hg₁.trans hg₂, hx₂.trans hx₁⟩

theorem wp_expandWithin {steps : Nat} (hs : I (s.requested h analyzers) s)
    (hsteps : h.size ≤ s.expanded + steps) :
    WP (expandWithin h options analyzers steps) True s fun _ s' =>
      I (s'.agenda.toList.flatMap (requestsOf h analyzers)) s' := by
  induction steps generalizing s with
  | zero =>
    rw [State.requested_of_le (Nat.le_trans (ht.indexed hs).agenda_size_le hsteps)] at hs
    exact .pure hs
  | succ steps ih =>
    unfold expandWithin
    refine .bind (.get ?_)
    split
    · rename_i hnone
      rw [State.requested_of_le (Array.getElem?_eq_none_iff.mp hnone)] at hs
      exact .pure hs
    · rename_i ref href
      let s₁ : State := { s with expanded := s.expanded + 1 }
      have hg₁ : Grows s s₁ := ⟨id, List.prefix_rfl, id, List.prefix_rfl⟩
      have hs₁ : I (s.requested h analyzers) s₁ := ht.move .expand hs
      refine .bind (.modify (.bind ((ht.wp_expand hs₁ ref).mono ?_)))
      rintro _ s₂ ⟨hs₂, hg₂, hx₂⟩
      have href' : s.agenda.toList[s.expanded]? = some ref := by simpa using href
      have hx₃ : s₂.drain.expanded = s.expanded + 1 :=
        (eq_of_view State.records State.expanded (fun _ => rfl) (records_drain s₂)).trans hx₂
      have hg₃ := hg₁.trans (hg₂.trans (grows_drain s₂))
      have hs₃ : I (s₂.drain.requested h analyzers) s₂.drain := by
        rw [State.requested_next hg₃ hx₃ href']
        exact ht.drain hs₂
      exact .bind (.modify (ih hs₃ (by omega)))

end Steps

/-- A search that answers has performed what the objects of its agenda asked for. -/
theorem search (ht : Tracks h options (Given held) I) (target : Value) :
    WP (search h options analyzers target held) True {} fun _ s' =>
      I (s'.agenda.toList.flatMap (requestsOf h analyzers)) s' := by
  unfold Search.search
  have hholds : WP (held.forM (hold h)) True {} fun _ s =>
      Moves h options (fun _ => False) (Given held) {} s ∧ _ :=
    holdAll_spec fun _ _ => .inr trivial
  refine .bind (hholds.mono ?_)
  rintro _ s₁ ⟨hm₁, hx₁, -⟩
  unfold identity
  cases Identity.ofValue target with
  | error violation => exact .bind (.throw trivial)
  | ok i =>
    refine .bind (.pure (.bind ((register_spec (hm₁.indexed (.init h)) (.inr trivial)).mono ?_)))
    rintro id s₂ ⟨hd₂, hi₂, -⟩
    have hs₂ : I [] s₂ := ht.moves (hm₁.trans (.single (.discover hd₂ hi₂))) ht.init
    have hx₃ : s₂.drain.expanded = 0 := by
      rw [eq_of_view State.records State.expanded (fun _ => rfl) (records_drain s₂), ← hd₂.frame]
      exact hx₁
    have hnone : s₂.drain.requested h analyzers = [] := by
      rw [State.requested, hx₃]
      rfl
    refine .bind (.modify (.bind ((ht.wp_expandWithin (hnone ▸ ht.drain hs₂)
      (Nat.le_add_left ..)).mono ?_)))
    exact fun _ s₄ hs₄ => .bind (.get (.pure hs₄))

end Tracks

end Retention.Search
