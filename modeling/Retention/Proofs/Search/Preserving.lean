import Retention.Proofs.Search.Analysis
import Retention.Proofs.Search.Performing

/-!
# What requests leave alone

A step preserves a view of the state if the view is the same after it, whether
it fails or not (`Preserves`). Discovery preserves what does not tell of
discovered values. What an analyzer asks for, and the references that an object
has on its own, leave alone which nodes are reached and how many objects are
expanded (`preserves_expandBy`): only resolutions change the one, and only the
loop over the agenda the other.
-/

namespace Retention.Search

variable {α β γ : Type} {view : State → γ}

/-- The view is the same after a step, whether it fails or not. -/
def Preserves (view : State → γ) (m : Step α) : Prop := ∀ s, view (exec m s).2 = view s

namespace Preserves

theorem pure (a : α) : Preserves view (pure a : Step α) := fun _ => rfl

theorem throw (cause : Abrupt) : Preserves view (throw cause : Step α) := fun _ => rfl

theorem get : Preserves view get := fun _ => rfl

theorem lift (x : Except Abrupt α) : Preserves view (liftM x : Step α) := fun s =>
  congrArg (fun outcome => view outcome.2) (exec_lift x s)

theorem modify {f : State → State} (hf : ∀ s, view (f s) = view s) :
    Preserves view (modify f) := hf

theorem modifyGet {f : State → α × State} (hf : ∀ s, view (f s).2 = view s) :
    Preserves view (modifyGet f : Step α) := hf

theorem bind {m : Step α} {f : α → Step β} (hm : Preserves view m)
    (hf : ∀ a, Preserves view (f a)) : Preserves view (m >>= f) := fun s => by
  have hs := hm s
  rw [exec_bind]
  cases he : exec m s with
  | mk outcome s' =>
    rw [he] at hs
    cases outcome with
    | ok a => exact (hf a s').trans hs
    | error cause => exact hs

theorem map (f : α → β) {m : Step α} (hm : Preserves view m) : Preserves view (f <$> m) := by
  rw [← bind_pure_comp]
  exact bind hm fun a => pure (f a)

theorem forM {items : List α} {f : α → Step Unit} (hf : ∀ a, Preserves view (f a)) :
    Preserves view (items.forM f) := by
  induction items with
  | nil => exact pure ()
  | cons a rest ih => exact bind (hf a) fun _ => ih

theorem mapM {items : List α} {f : α → Step β} (hf : ∀ a, Preserves view (f a)) :
    Preserves view (items.mapM f) := by
  rw [← List.mapM'_eq_mapM]
  induction items with
  | nil => exact pure []
  | cons a rest ih => exact bind (hf a) fun _ => bind ih fun _ => pure _

end Preserves

/-! ## Discovery -/

variable {h : Heap} {options : Options} {registry : Registry}

section Discovery

variable (hview : ∀ s t : State, view (s.reindex t) = view s)

include hview

theorem preserves_register (i : Identity) : Preserves view (register h i) := by
  refine .bind .get fun s => ?_
  split
  · exact .pure _
  · exact .bind (.lift _) fun builtin => .modifyGet fun s => hview s (s.enter i builtin)

theorem preserves_discover (i : Identity) : Preserves view (discover h i) := by
  refine .bind (preserves_register hview i) fun id => ?_
  cases i with
  | object ref =>
    refine .bind (.modify fun s => ?_) fun _ => .pure _
    split
    · rfl
    · exact hview s { s with scheduled := s.scheduled.insert id, agenda := s.agenda.push ref }
  | symbol ref => exact .bind (.pure ()) fun _ => .pure _

omit hview in
theorem preserves_identity (v : Value) : Preserves view (identity v) := by
  unfold identity
  split
  · exact .pure _
  · exact .throw _

theorem preserves_nodeFor (v : Value) : Preserves view (nodeFor h v) :=
  .bind (preserves_identity v) (preserves_discover hview)

theorem preserves_describe (v : Value) : Preserves view (describe h v) := by
  unfold describe
  split
  · exact .bind (preserves_discover hview _) fun _ => .pure _
  · exact .pure _

theorem preserves_ownerIds (strength : Strength) : Preserves view (ownerIds h strength) := by
  cases strength with
  | joint owners => exact .mapM (preserves_nodeFor hview)
  | strong | weak => exact .pure []

theorem preserves_childNode (child : Value) : Preserves view (childNode h child) := by
  unfold childNode
  split
  · exact .map _ (preserves_discover hview _)
  · exact .pure _

end Discovery

/-! ## Requests -/

/-- Which nodes are reached, and how many objects are expanded. -/
def State.tally (s : State) : Std.HashSet NodeId × Std.HashSet NodeId × Nat :=
  (s.reached, s.strong, s.expanded)

theorem tally_carry (parent child : NodeId) (edge : Nat) (owners : List NodeId)
    (strength : Strength) (s : State) :
    (carry options parent child edge owners strength s).tally = s.tally := by
  have hpropagate : ∀ p, (s.propagate parent p).tally = s.tally := fun p => by
    rw [State.propagate_eq]
    rfl
  cases strength with
  | strong => exact hpropagate _
  | weak =>
    unfold carry
    dsimp only
    split
    · rfl
    · exact hpropagate _
  | joint _ =>
    show (s.trackJoint child owners edge).tally = _
    rw [State.trackJoint_eq]
    rfl

theorem preserves_addEdge (parent : ObjectRef) (kind : EdgeKind) (child : Value)
    (strength : Strength) :
    Preserves State.tally (addEdge h options parent kind child strength) := by
  have hview : ∀ s t : State, (s.reindex t).tally = s.tally := fun _ _ => rfl
  rw [addEdge_eq]
  refine .bind (preserves_discover hview _) fun parentId =>
    .bind (preserves_childNode hview child) fun childId? => ?_
  unfold addBetween
  split
  · exact .pure _
  refine .bind (.modifyGet fun s => ?_) fun isNew => ?_
  · split <;> rfl
  split
  · exact .pure _
  refine .bind (preserves_ownerIds hview strength) fun owners => .bind (.modifyGet fun s => rfl)
    fun edge => .bind (preserves_describe hview child) fun endpoint => .bind (.modify fun s => rfl)
    fun _ => ?_
  cases childId? with
  | some childId => exact .modify fun s => tally_carry _ _ _ _ _ s
  | none => exact .pure _

theorem preserves_addEntry (collection : ObjectRef) (index : Nat) (key : Value)
    (keyStrength : Strength) (value? : Option (Value × Strength)) :
    Preserves State.tally (addEntry h options collection index key keyStrength value?) := by
  have hview : ∀ s t : State, (s.reindex t).tally = s.tally := fun _ _ => rfl
  have hvalue : Preserves State.tally (describeValue h value?) := by
    cases value? with
    | some value => exact .map _ (preserves_describe hview _)
    | none => exact .pure _
  rw [addEntry_eq]
  refine .bind (preserves_discover hview _) fun _ => .bind (preserves_describe hview key) fun _ =>
    .bind hvalue fun _ => .bind (.modifyGet fun s => rfl) fun _ => .bind (.modify fun s => rfl)
    fun _ => .bind (preserves_addEdge _ _ _ _) fun _ => ?_
  cases value? with
  | some value => exact preserves_addEdge _ _ _ _
  | none => exact .pure _

theorem preserves_perform (req : Request) : Preserves State.tally (perform h options req) := by
  have hview : ∀ s t : State, (s.reindex t).tally = s.tally := fun _ _ => rfl
  cases req with
  | edge => exact preserves_addEdge _ _ _ _
  | entry => exact preserves_addEntry _ _ _ _ _
  | symbolProperty =>
    exact .bind (preserves_nodeFor hview _) fun _ => .bind (preserves_addEdge _ _ _ _) fun _ =>
      preserves_addEdge _ _ _ _
  | node value => exact .map _ (preserves_nodeFor hview value)
  | noteOptions => exact .modify fun s => rfl
  | fail cause => exact .throw cause

/-- An analyzer leaves these alone, whatever it asks for. -/
theorem preserves_analyze (analysis : Analysis) :
    Preserves State.tally (analyze h options analysis) := by
  induction analysis with
  | done => exact .pure ()
  | fail cause => exact .throw cause
  | ask req next ih =>
    intro s
    have hreq : (exec (answer h options req) s).2.tally = s.tally := by
      have hperform : (exec (perform h options req) s).2.tally = s.tally := preserves_perform req s
      rwa [exec_perform] at hperform
    unfold analyze
    rw [exec_bind, exec_attempt]
    exact (ih _ _).trans hreq

theorem preserves_expandBy (ref : ObjectRef) :
    Preserves State.tally (expandBy h options registry ref) := by
  unfold expandBy
  refine .bind (.lift _) fun o => ?_
  split
  · exact .bind (preserves_analyze _) fun _ => .forM preserves_perform
  · exact .bind (.pure ()) fun _ => .forM preserves_perform

end Retention.Search
