import Retention.Proofs.Search.Certificate

/-!
# The two modes of a search

Whether weak references count changes what is known about liveness and nothing
that is recorded: two searches that differ in it find the same nodes,
references and entries, or fail alike (`alike_search`). What the one confirms
by strong references alone, the other confirms strongly (`modes_agree`).
-/

namespace Retention

/-- Two graphs with the same target, nodes, references and entries. -/
structure Graph.SameFindings (g g' : Graph) : Prop where
  target : g'.target = g.target
  nodes : g'.nodes = g.nodes
  edges : g'.edges = g.edges
  entries : g'.entries = g.entries

/-- Two graphs of one heap, the first by strong references alone: what it holds
or confirms, the second holds or confirms strongly. -/
structure Graph.Agrees (g g' : Graph) : Prop extends g.SameFindings g' where
  confirmed_iff : ∀ id, (g.Holds id ∨ ∃ c ∈ g.confirmations, c.child = id) ↔
    g'.Holds id ∨ ∃ c ∈ g'.confirmations, c.child = id ∧ c.strong = true
  succeeded_iff : g.succeeded = true ↔
    g'.Holds g'.target ∨ ∃ c ∈ g'.confirmations, c.child = g'.target ∧ c.strong = true

namespace Search

variable {α β : Type} {h : Heap} {options options' : Options} {analyzers : AnalyzerTable}
  {target : Value} {held : List Value}

/-- Two steps answer the same and record the same, whatever is known about
liveness. -/
def Alike (m n : Step α) : Prop := Agree (fun s t => s.records = t.records) Eq m n

namespace Alike

theorem pure (a : α) : Alike (pure a) (pure a) := Agree.pure rfl

theorem throw (cause : Abrupt) : Alike (throw cause : Step α) (throw cause) := Agree.throw cause

theorem lift (x : Except Abrupt α) : Alike (liftM x) (liftM x) := Agree.lift

theorem bind {m n : Step α} {f g : α → Step β} (h : Alike m n) (hf : ∀ a, Alike (f a) (g a)) :
    Alike (m >>= f) (n >>= g) :=
  Agree.bind h fun a _ he => he ▸ hf a

theorem map {m n : Step α} (h : Alike m n) (f : α → β) : Alike (f <$> m) (f <$> n) :=
  Agree.map h fun _ _ => congrArg f

theorem modify {f : State → State} (hf : ∀ s, (f s).records = (f s.records).records) :
    Alike (modify f) (modify f) :=
  Agree.modify fun s t hst => by rw [hf s, hst, ← hf t]

theorem modifyGet {f : State → α × State} (hanswer : ∀ s, (f s).1 = (f s.records).1)
    (hf : ∀ s, (f s).2.records = (f s.records).2.records) : Alike (modifyGet f) (modifyGet f) :=
  Agree.modifyGet fun s t hst =>
    ⟨by rw [hanswer s, hst, ← hanswer t], by rw [hf s, hst, ← hf t]⟩

end Alike

/-! ## The steps of discovery -/

theorem alike_register (h : Heap) (v : Identity) : Alike (register h v) (register h v) := by
  unfold register
  refine Agree.bind .get fun s t hst => ?_
  rw [eq_of_view State.records State.interner (fun _ => rfl) hst]
  split
  · exact Alike.pure _
  · exact Alike.bind (.lift _) fun builtin => .modifyGet (fun _ => rfl) fun _ => rfl

theorem alike_discover (h : Heap) (v : Identity) : Alike (discover h v) (discover h v) := by
  unfold discover
  refine .bind (alike_register h v) fun id => ?_
  cases v with
  | object ref =>
    refine .bind (.modify fun s => ?_) fun _ => .pure id
    show _ = (if s.scheduled.contains id then s.records else _).records
    split <;> rfl
  | symbol ref => exact .bind (.pure ()) fun _ => .pure id

theorem alike_identity (v : Value) : Alike (identity v) (identity v) := by
  unfold identity
  split
  · exact .pure _
  · exact .throw _

theorem alike_nodeFor (h : Heap) (v : Value) : Alike (nodeFor h v) (nodeFor h v) :=
  .bind (alike_identity v) (alike_discover h)

theorem alike_describe (h : Heap) (v : Value) : Alike (describe h v) (describe h v) := by
  unfold describe
  split
  · exact .bind (alike_discover h _) fun id => .pure _
  · exact .pure _

theorem alike_ownerIds (h : Heap) (strength : Strength) :
    Alike (ownerIds h strength) (ownerIds h strength) := by
  unfold ownerIds
  split
  · exact Agree.mapM (alike_nodeFor h) _
  · exact .pure _
  · exact .pure _

theorem alike_freshEdge : Alike freshEdge freshEdge := .modifyGet (fun _ => rfl) fun _ => rfl

/-! ## References and entries -/

section

variable (hprim : options.recordPrimitives = options'.recordPrimitives)
include hprim

omit hprim in
theorem alike_addNew {parentId : NodeId} {kind : EdgeKind} {child : Value} {strength : Strength}
    {childId? : Option NodeId} :
    Alike (addNew h options parentId kind child strength childId?)
      (addNew h options' parentId kind child strength childId?) := by
  unfold addNew
  refine .bind (alike_ownerIds h strength) fun owners => .bind alike_freshEdge fun edge => ?_
  refine .bind (alike_describe h child) fun endpoint => .bind (.modify fun _ => rfl) fun _ => ?_
  split
  · exact Agree.modify fun s t hst => by rw [records_carry, records_carry, hst]
  · exact .pure ()

theorem alike_addBetween {parentId : NodeId} {kind : EdgeKind} {child : Value}
    {strength : Strength} {childId? : Option NodeId} :
    Alike (addBetween h options parentId kind child strength childId?)
      (addBetween h options' parentId kind child strength childId?) := by
  unfold addBetween markRecorded
  rw [hprim]
  split
  · exact .pure ()
  refine .bind (.modifyGet (fun s => ?_) fun s => ?_) fun isNew => ?_
  · show _ = (if s.recorded.contains _ then _ else _ : Bool × State).1
    split <;> rfl
  · show _ = (if s.recorded.contains _ then _ else _ : Bool × State).2.records
    split <;> rfl
  split
  · exact .pure ()
  · exact alike_addNew

theorem alike_addEdge {parent : ObjectRef} {kind : EdgeKind} {child : Value}
    {strength : Strength} :
    Alike (addEdge h options parent kind child strength)
      (addEdge h options' parent kind child strength) := by
  rw [addEdge_eq, addEdge_eq]
  refine .bind (alike_discover h _) fun parentId => .bind ?_ fun _ => alike_addBetween hprim
  unfold childNode
  split
  · exact .map (alike_discover h _) some
  · exact .pure none

theorem alike_addEntry {collection : ObjectRef} {i : Nat} {key : Value} {keyStrength : Strength}
    {value? : Option (Value × Strength)} :
    Alike (addEntry h options collection i key keyStrength value?)
      (addEntry h options' collection i key keyStrength value?) := by
  rw [addEntry_eq, addEntry_eq]
  refine .bind (alike_discover h _) fun collectionId => ?_
  refine .bind (alike_describe h key) fun keyEnd => ?_
  refine .bind ?_ fun valueEnd? => .bind alike_freshEdge fun id => .bind (.modify fun _ => rfl) ?_
  · unfold describeValue
    split
    · exact .map (alike_describe h _) some
    · exact .pure none
  refine fun _ => .bind (alike_addEdge hprim) fun _ => ?_
  split
  · exact alike_addEdge hprim
  · exact .pure ()

theorem alike_perform (req : Request) : Alike (perform h options req) (perform h options' req) := by
  cases req with
  | edge => exact alike_addEdge hprim
  | entry => exact alike_addEntry hprim
  | symbolProperty parent symbol value =>
    exact .bind (alike_nodeFor h _) fun id =>
      .bind (alike_addEdge hprim) fun _ => alike_addEdge hprim
  | node value => exact .map (alike_nodeFor h value) _
  | noteOptions => exact .modify fun _ => rfl
  | fail cause => exact .throw cause

theorem alike_expand (ref : ObjectRef) :
    Alike (expand h options analyzers ref) (expand h options' analyzers ref) :=
  .bind (.lift _) fun reqs => Agree.forM (alike_perform hprim) reqs

end

/-! ## Whole searches -/

theorem alike_drain : Alike (modify State.drain) (modify State.drain) :=
  Agree.modify fun s t hst => by rw [records_drain, records_drain, hst]

theorem alike_expandWithin (hprim : options.recordPrimitives = options'.recordPrimitives)
    (steps : Nat) :
    Alike (expandWithin h options analyzers steps) (expandWithin h options' analyzers steps) := by
  induction steps with
  | zero => exact .pure ()
  | succ steps ih =>
    unfold expandWithin
    refine Agree.bind .get fun s t hst => ?_
    rw [eq_of_view State.records State.agenda (fun _ => rfl) hst,
      eq_of_view State.records State.expanded (fun _ => rfl) hst]
    split
    · exact Alike.pure ()
    · exact Alike.bind (.modify fun _ => rfl) fun _ =>
        .bind (alike_expand hprim _) fun _ => .bind alike_drain fun _ => ih

theorem alike_hold (h : Heap) (v : Value) : Alike (hold h v) (hold h v) := by
  unfold hold
  split
  · exact .pure ()
  · exact .bind (alike_discover h _) fun id => .modify fun _ => rfl

/-- Two searches that differ in their mode alone find the same, or fail alike. -/
theorem alike_search (hprim : options.recordPrimitives = options'.recordPrimitives) :
    Agree (fun s t => s.records = t.records) Graph.SameFindings
      (search h options analyzers target held) (search h options' analyzers target held) := by
  refine Agree.bind (.forM (alike_hold h) held) fun _ _ _ => .bind (alike_identity target) ?_
  rintro i _ rfl
  refine Agree.bind (alike_register h i) ?_
  rintro id _ rfl
  refine .bind alike_drain fun _ _ _ => .bind (alike_expandWithin hprim h.size) fun _ _ _ => ?_
  refine .bind .get fun s t hst => .pure ⟨rfl, ?_, ?_, ?_⟩
  · exact congrArg Array.toList (eq_of_view State.records State.nodes (fun _ => rfl) hst).symm
  · exact congrArg Array.toList (eq_of_view State.records State.edges (fun _ => rfl) hst).symm
  · exact congrArg Array.toList (eq_of_view State.records State.entries (fun _ => rfl) hst).symm

/-- The graphs of two searches that find the same, the first by strong
references alone. -/
theorem agrees_of_sameFindings {g g' : Graph} (hsame : g.SameFindings g')
    (hrun : (run h options .builtin target held).1 = .ok g) (hmode : options.strongOnly = true)
    (hrun' : (run h options' .builtin target held).1 = .ok g') : g.Agrees g' := by
  obtain ⟨s, hexec⟩ := exists_exec_of_run hrun
  obtain ⟨t, hexec'⟩ := exists_exec_of_run hrun'
  obtain ⟨targetId, hf, -, rfl⟩ := finished_of_exec hexec
  obtain ⟨targetId', hf', -, rfl⟩ := finished_of_exec hexec'
  have hs := hf.settled fun _ hreq => hreq.isOwned_builtin
  have ht := hf'.settled fun _ hreq => hreq.isOwned_builtin
  have hlive : ∀ id, (s.graph targetId).Live true id ↔ (t.graph targetId').Live true id :=
    fun id => ⟨.congr hsame.nodes hsame.edges, .congr hsame.nodes.symm hsame.edges.symm⟩
  refine { hsame with confirmed_iff := fun id => ?_, succeeded_iff := ?_ }
  · rw [← ht.live_strongly_iff, ← hlive, hs.live_strongly_iff]
    refine or_congr_right (exists_congr fun c => and_congr_right fun hc => ?_)
    exact (and_iff_left (hs.strong hmode targetId hc)).symm
  · have hreached := hs.reached_iff_live targetId targetId
    rw [hmode] at hreached
    rw [← ht.live_strongly_iff, ← hlive, hsame.target]
    exact hreached

/-- Two searches that differ in their mode alone publish graphs that agree, or
fail alike, and on a well-formed heap they do not fail. -/
theorem modes_agree (h : Heap) (recordPrimitives : Bool) (target : Value) (held : List Value) :
    ((∃ g g',
        (run h { strongOnly := true, recordPrimitives } .builtin target held).1 = .ok g ∧
        (run h { strongOnly := false, recordPrimitives } .builtin target held).1 = .ok g' ∧
        g.Agrees g') ∨
      ∃ cause,
        (run h { strongOnly := true, recordPrimitives } .builtin target held).1 = .error cause ∧
        (run h { strongOnly := false, recordPrimitives } .builtin target held).1 = .error cause) ∧
      (h.WellFormed → target.hasIdentity = true → (∀ v ∈ target :: held, h.isValid v = true) →
        ∃ g, (run h { strongOnly := true, recordPrimitives } .builtin target held).1 = .ok g) := by
  constructor
  · have halike : Agree _ Graph.SameFindings
        (search h { strongOnly := true, recordPrimitives } .builtin target held)
        (search h { strongOnly := false, recordPrimitives } .builtin target held) :=
      alike_search rfl
    rcases halike.outcomes (s := {}) (t := {}) rfl with
      ⟨g, g', s, t, hs, ht, hsame⟩ | ⟨cause, s, t, hs, ht⟩
    · have hrun := congrArg Prod.fst hs
      have hrun' := congrArg Prod.fst ht
      exact .inl ⟨g, g', hrun, hrun', agrees_of_sameFindings hsame hrun rfl hrun'⟩
    · exact .inr ⟨cause, congrArg Prod.fst hs, congrArg Prod.fst ht⟩
  · intro hw hidentity hvalid
    exact exists_run_eq_ok (fun _ hreq => hreq.isValid_builtin hw) hidentity
      (hvalid target List.mem_cons_self) fun v hv => hvalid v (List.mem_cons_of_mem _ hv)

theorem modes_agree_oneEntry :
    ∃ g g', (run .oneEntry {} .builtin (.object ⟨2⟩) [.object ⟨0⟩]).1 = .ok g ∧
      (run .oneEntry { strongOnly := false } .builtin (.object ⟨2⟩) [.object ⟨0⟩]).1 = .ok g' ∧
      g.Agrees g' := by
  obtain ⟨hagree, hok⟩ := modes_agree .oneEntry true (.object ⟨2⟩) [.object ⟨0⟩]
  obtain ⟨g, hrun⟩ := hok Heap.wellFormed_oneEntry rfl (by decide)
  refine hagree.resolve_right fun ⟨cause, hfail, _⟩ => ?_
  rw [hrun] at hfail
  cases hfail

end Search
end Retention
