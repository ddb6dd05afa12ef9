import Retention.Proofs.Heap.Extension
import Retention.Proofs.Search.Analyzers

/-!
# Why a search fails

A search fails for an invalid handle, for a broken invariant, or because an
analyzer gives it up (`fault_of_run_eq_error`). So it throws no value unless an
analyzer does.

* `FailsOnly`: the causes for which a step fails, put together from its parts.
* `failsOnly_search`: the causes for which a search fails, if they are the causes
  for which its requests do.
-/

namespace Retention.Search

variable {α β : Type} {P : Abrupt → Prop}

/-- A step only fails for causes that satisfy `P`. -/
def FailsOnly (P : Abrupt → Prop) (m : Step α) : Prop :=
  ∀ s cause s', exec m s = (.error cause, s') → P cause

namespace FailsOnly

theorem pure (a : α) : FailsOnly P (pure a) := fun _ _ _ h => by cases h

theorem get : FailsOnly P get := fun _ _ _ h => by cases h

theorem modifyGet (f : State → α × State) : FailsOnly P (modifyGet f) := fun _ _ _ h => by cases h

theorem modify (f : State → State) : FailsOnly P (modify f) := modifyGet fun s => ((), f s)

theorem throw {cause : Abrupt} (hc : P cause) : FailsOnly P (throw cause : Step α) :=
  fun _ _ _ h => by
    cases h
    exact hc

theorem bind {m : Step α} {f : α → Step β} (hm : FailsOnly P m) (hf : ∀ a, FailsOnly P (f a)) :
    FailsOnly P (m >>= f) := fun s cause s' h => by
  rw [exec_bind] at h
  cases he : exec m s with
  | mk outcome s₁ =>
    rw [he] at h
    cases outcome with
    | ok a => exact hf a s₁ cause s' h
    | error cause' =>
      cases h
      exact hm s _ _ he

/-- What a step answers can be told if it does nothing else. -/
theorem lift_bind {x : Except Abrupt α} {f : α → Step β} (hx : ∀ cause, x = .error cause → P cause)
    (hf : ∀ a, x = .ok a → FailsOnly P (f a)) : FailsOnly P (liftM x >>= f) :=
  fun s cause s' h => by
    rw [exec_bind, exec_lift] at h
    cases x with
    | ok a => exact hf a rfl s cause s' h
    | error cause' =>
      cases h
      exact hx _ rfl

theorem map {m : Step α} (f : α → β) (hm : FailsOnly P m) : FailsOnly P (f <$> m) := by
  rw [← bind_pure_comp]
  exact bind hm fun a => pure (f a)

theorem forM {items : List α} {f : α → Step Unit} (hf : ∀ a ∈ items, FailsOnly P (f a)) :
    FailsOnly P (items.forM f) := by
  induction items with
  | nil => exact pure ()
  | cons a rest ih =>
    exact bind (hf a List.mem_cons_self) fun _ => ih fun b hb => hf b (List.mem_cons_of_mem a hb)

theorem mapM {items : List α} {f : α → Step β} (hf : ∀ a ∈ items, FailsOnly P (f a)) :
    FailsOnly P (items.mapM f) := by
  rw [← List.mapM'_eq_mapM]
  induction items with
  | nil => exact pure []
  | cons a rest ih =>
    exact bind (hf a List.mem_cons_self) fun _ =>
      bind (ih fun b hb => hf b (List.mem_cons_of_mem a hb)) fun _ => pure _

end FailsOnly
end Search

/-- The owners that a strength names are objects and symbols. -/
def Strength.Identified : Strength → Prop
  | .joint owners => ∀ v ∈ owners, v.hasIdentity = true
  | .strong | .weak => True

/-- What a request needs a node for is an object or a symbol. -/
def Request.Identified : Request → Prop
  | .edge _ _ _ strength => strength.Identified
  | .entry _ _ _ keyStrength value? =>
    keyStrength.Identified ∧ ∀ value strength, value? = some (value, strength) → strength.Identified
  | .node value => value.hasIdentity = true
  | .symbolProperty .. | .noteOptions | .fail _ => True

namespace Search

/-! ## The steps of a search -/

variable {P : Abrupt → Prop} {h : Heap} {options : Options} {analyzers : AnalyzerTable}

section Steps

variable (hinvalid : P .invalidHandle)

include hinvalid

theorem failsOnly_register (i : Identity) : FailsOnly P (register h i) := by
  refine .bind .get fun s => ?_
  split
  · exact .pure _
  · refine .lift_bind (fun cause hc => ?_) fun builtin _ => .modifyGet _
    cases i with
    | object ref =>
      cases hk : h.kind ref with
      | ok k =>
        rw [builtinName, hk] at hc
        cases hc
      | error cause' =>
        rw [builtinName, hk] at hc
        exact Except.error.inj hc ▸ Heap.eq_invalidHandle_of_kind hk ▸ hinvalid
    | symbol ref =>
      cases hs : h.symbol ref with
      | ok s =>
        rw [builtinName, hs] at hc
        cases hc
      | error cause' =>
        rw [builtinName, hs] at hc
        exact Except.error.inj hc ▸ Heap.eq_invalidHandle_of_symbol hs ▸ hinvalid

theorem failsOnly_discover (i : Identity) : FailsOnly P (discover h i) := by
  refine .bind (failsOnly_register hinvalid i) fun id => ?_
  cases i with
  | object ref => exact .bind (.modify _) fun _ => .pure _
  | symbol ref => exact .bind (.pure ()) fun _ => .pure _

omit hinvalid in
theorem failsOnly_identity {v : Value}
    (hv : v.hasIdentity = true ∨ ∀ violation, P (.broken violation)) :
    FailsOnly P (identity v) := by
  unfold identity
  split
  · exact .pure _
  · rename_i violation hviolation
    refine .throw (hv.resolve_left (fun hidentity => ?_) violation)
    cases v <;> cases hidentity <;> cases hviolation

theorem failsOnly_nodeFor {v : Value}
    (hv : v.hasIdentity = true ∨ ∀ violation, P (.broken violation)) :
    FailsOnly P (nodeFor h v) :=
  .bind (failsOnly_identity hv) (failsOnly_discover hinvalid)

theorem failsOnly_describe (v : Value) : FailsOnly P (describe h v) := by
  unfold describe
  split
  · exact .bind (failsOnly_discover hinvalid _) fun _ => .pure _
  · exact .pure _

theorem failsOnly_ownerIds {strength : Strength}
    (hs : strength.Identified ∨ ∀ violation, P (.broken violation)) :
    FailsOnly P (ownerIds h strength) := by
  cases strength with
  | joint owners => exact .mapM fun v hv => failsOnly_nodeFor hinvalid (hs.imp_left (· v hv))
  | strong | weak => exact .pure []

theorem failsOnly_childNode (child : Value) : FailsOnly P (childNode h child) := by
  unfold childNode
  split
  · exact .map _ (failsOnly_discover hinvalid _)
  · exact .pure _

theorem failsOnly_addEdge (parent : ObjectRef) (kind : EdgeKind) (child : Value)
    {strength : Strength} (hs : strength.Identified ∨ ∀ violation, P (.broken violation)) :
    FailsOnly P (addEdge h options parent kind child strength) := by
  rw [addEdge_eq]
  refine .bind (failsOnly_discover hinvalid _) fun parentId =>
    .bind (failsOnly_childNode hinvalid child) fun childId? => ?_
  unfold addBetween
  split
  · exact .pure _
  refine .bind (.modifyGet _) fun isNew => ?_
  split
  · exact .pure _
  refine .bind (failsOnly_ownerIds hinvalid hs) fun owners => .bind (.modifyGet _) fun edge =>
    .bind (failsOnly_describe hinvalid child) fun endpoint => .bind (.modify _) fun _ => ?_
  cases childId? with
  | some childId => exact .modify _
  | none => exact .pure _

theorem failsOnly_addEntry {collection : ObjectRef} {index : Nat} {key : Value}
    {keyStrength : Strength} {value? : Option (Value × Strength)}
    (hreq : (Request.entry collection index key keyStrength value?).Identified ∨
      ∀ violation, P (.broken violation)) :
    FailsOnly P (addEntry h options collection index key keyStrength value?) := by
  have hvalue : FailsOnly P (describeValue h value?) := by
    cases value? with
    | some value => exact .map _ (failsOnly_describe hinvalid _)
    | none => exact .pure _
  rw [addEntry_eq]
  refine .bind (failsOnly_discover hinvalid _) fun _ =>
    .bind (failsOnly_describe hinvalid key) fun _ =>
    .bind hvalue fun _ => .bind (.modifyGet _) fun _ => .bind (.modify _) fun _ =>
    .bind (failsOnly_addEdge hinvalid _ _ _ (hreq.imp_left And.left)) fun _ => ?_
  cases value? with
  | some value =>
    exact failsOnly_addEdge hinvalid _ _ _ (hreq.imp_left fun hreq => hreq.2 _ _ rfl)
  | none => exact .pure _

theorem failsOnly_perform {req : Request}
    (hreq : req.Identified ∨ ∀ violation, P (.broken violation))
    (hfail : ∀ cause, req = .fail cause → P cause) : FailsOnly P (perform h options req) := by
  cases req with
  | edge parent kind child strength => exact failsOnly_addEdge hinvalid _ _ _ hreq
  | entry collection index key keyStrength value? => exact failsOnly_addEntry hinvalid hreq
  | symbolProperty parent symbol value =>
    exact .bind (failsOnly_nodeFor hinvalid (.inl rfl)) fun id =>
      .bind (failsOnly_addEdge hinvalid _ _ _ (.inl trivial)) fun _ =>
      failsOnly_addEdge hinvalid _ _ _ (.inl trivial)
  | node value => exact .map _ (failsOnly_nodeFor hinvalid hreq)
  | noteOptions => exact .modify _
  | fail cause => exact .throw (hfail cause rfl)

theorem failsOnly_hold (v : Value) : FailsOnly P (hold h v) := by
  unfold hold
  split
  · exact .pure _
  · exact .bind (failsOnly_discover hinvalid _) fun _ => .modify _

variable (hreqs : ∀ req, Requested h analyzers req → FailsOnly P (perform h options req))

include hreqs

theorem failsOnly_expand (ref : ObjectRef) : FailsOnly P (expand h options analyzers ref) := by
  unfold expand
  refine .lift_bind (fun cause hc => ?_) fun reqs hmem => .forM fun req hreq =>
    hreqs req ⟨ref, reqs, hmem, hreq⟩
  unfold requestsFor at hc
  cases ho : h.object ref with
  | ok o =>
    rw [ho] at hc
    cases hc
  | error cause' =>
    rw [ho] at hc
    cases hc
    exact Heap.eq_invalidHandle_of_object ho ▸ hinvalid

theorem failsOnly_expandWithin (steps : Nat) :
    FailsOnly P (expandWithin h options analyzers steps) := by
  induction steps with
  | zero => exact .pure ()
  | succ steps ih =>
    refine .bind .get fun s => ?_
    split
    · exact .pure ()
    · exact .bind (.modify _) fun _ => .bind (failsOnly_expand hinvalid hreqs _) fun _ =>
        .bind (.modify _) fun _ => ih

/-- A search fails for an invalid handle, and for what fails the requests that it
performs. -/
theorem failsOnly_search {target : Value}
    (htarget : target.hasIdentity = true ∨ ∀ violation, P (.broken violation))
    (held : List Value) : FailsOnly P (search h options analyzers target held) :=
  .bind (.forM fun v _ => failsOnly_hold hinvalid v) fun _ =>
    .bind (failsOnly_identity htarget) fun i => .bind (failsOnly_register hinvalid i) fun id =>
    .bind (.modify _) fun _ => .bind (failsOnly_expandWithin hinvalid hreqs _) fun _ =>
    .bind .get fun s => .pure (s.graph id)

end Steps

/-- A reason for a search to fail. -/
inductive Fault (h : Heap) (analyzers : AnalyzerTable) : Abrupt → Prop where
  | invalidHandle : Fault h analyzers .invalidHandle
  | broken (violation : Violation) : Fault h analyzers (.broken violation)
  | requested {cause : Abrupt} : Requested h analyzers (.fail cause) → Fault h analyzers cause

/-- A search fails only for an invalid handle, for a broken invariant, or
because an analyzer gives it up. -/
theorem fault_of_run_eq_error {target : Value} {held : List Value} {cause : Abrupt}
    (hrun : (run h options analyzers target held).1 = .error cause) : Fault h analyzers cause := by
  have hreqs : ∀ req, Requested h analyzers req →
      FailsOnly (Fault h analyzers) (perform h options req) := fun req hreq =>
    failsOnly_perform .invalidHandle (.inr .broken) fun _ hcause => .requested (hcause ▸ hreq)
  exact failsOnly_search .invalidHandle hreqs (.inr .broken) held {} cause _ (Prod.ext hrun rfl)

/-! ## Analyzers that give up -/

/-- What is asked for an object is asked by its analyzer, or for its prototype
and properties. -/
theorem Requested.exists_mem {req : Request} (hreq : Requested h analyzers req) :
    ∃ ref o, h.object ref = .ok o ∧
      ((∃ analyze, analyzers o.kind.builtin = some analyze ∧ req ∈ analyze h ref) ∨
        req ∈ ownRequests ref o) := by
  obtain ⟨ref, reqs, hreqs, hreq⟩ := hreq
  cases ho : h.object ref with
  | error cause =>
    rw [requestsFor, ho] at hreqs
    cases hreqs
  | ok o =>
    rw [requestsFor, ho] at hreqs
    refine ⟨ref, o, ho, ?_⟩
    cases hanalyze : analyzers o.kind.builtin with
    | none =>
      simp only [bind, Except.bind, pure, Except.pure, hanalyze] at hreqs
      cases hreqs
      exact .inr hreq
    | some analyze =>
      simp only [bind, Except.bind, pure, Except.pure, hanalyze] at hreqs
      cases hreqs
      exact (List.mem_append.mp hreq).imp_left fun hmem => ⟨analyze, rfl, hmem⟩

/-- The built-in analyzers give up for an invalid handle or a broken invariant. -/
theorem fault_of_mem_slotRequests {kind : BuiltinKind} {ref : ObjectRef} {cause : Abrupt}
    (hmem : .fail cause ∈ slotRequests kind h ref) :
    cause = .invalidHandle ∨ ∃ violation, cause = .broken violation := by
  unfold slotRequests at hmem
  split at hmem
  · rename_i cause' hk
    cases List.mem_singleton.mp hmem
    exact .inl (Heap.eq_invalidHandle_of_kind hk)
  · split at hmem
    · exact nomatch isReference_of_mem_kindRequests hmem
    · cases List.mem_singleton.mp hmem
      exact .inr ⟨_, rfl⟩

end Retention.Search
