import Retention.Proofs.Search.Analysis
import Retention.Proofs.Search.Exploration

/-!
# What requests do when they may fail

An analyzer may go on after a request that failed, and what the request did before
it failed stays done. Whether it fails or not, a request makes moves, records
entries whose ends have nodes, and may remember a reference that it then does not
record (`Shift`). So does a whole search (`searchBy_shifts`).
-/

namespace Retention.Search

variable {h : Heap} {options : Options} {given : Identity → Prop} {s s' t : State} {α β : Type}

namespace State

/-- An id is that of a value. -/
def Knows (s : State) (id : NodeId) : Prop := ∃ i, s.interner.id? i = some id

/-- The node at an endpoint, if there is one, is that of a value. -/
def KnowsEnd (s : State) (e : Endpoint) : Prop := ∀ id, e.node? = some id → s.Knows id

/-- The nodes of an entry are those of values. -/
structure KnowsEntry (s : State) (c : CollectionEntry) : Prop where
  collection : s.Knows c.collection
  key : s.KnowsEnd c.key
  value : ∀ e, c.value? = some e → s.KnowsEnd e

end State

theorem Grows.knows (hg : Grows s s') {id : NodeId} (hid : s.Knows id) : s'.Knows id :=
  hid.imp fun _ => hg.ids

theorem Grows.knowsEnd (hg : Grows s s') {e : Endpoint} (he : s.KnowsEnd e) : s'.KnowsEnd e :=
  fun id hid => hg.knows (he id hid)

theorem Grows.knowsEntry (hg : Grows s s') {c : CollectionEntry} (hc : s.KnowsEntry c) :
    s'.KnowsEntry c :=
  ⟨hg.knows hc.collection, hg.knowsEnd hc.key, fun e he => hg.knowsEnd (hc.value e he)⟩

theorem knows_of_names {v : Value} {id : NodeId} (hv : s.interner.Names v id) : s.Knows id := by
  obtain ⟨i, -, hid⟩ := hv
  exact ⟨i, hid⟩

theorem knowsEnd_of_denotes {v : Value} {e : Endpoint} (he : s.interner.Denotes v e) :
    s.KnowsEnd e := fun _ hid => knows_of_names (he.names hid)

variable (h options given) in
/-- One change that requests make to a search: a move that records no entry, an
entry, or a reference that is remembered. -/
inductive Shift : State → State → Prop where
  | move {s s' : State} (hm : Move h options (fun req => req.entryAt? = none) given s s') :
    Shift s s'
  | enter {s : State} {c : CollectionEntry} (hc : s.KnowsEntry c) (hid : c.id = s.nextEdge) :
    Shift s { s with nextEdge := s.nextEdge + 1, entries := s.entries.push c }
  | mark {s : State} (key : NodeId × EdgeKind × Option NodeId) :
    Shift s { s with recorded := s.recorded.insert key }

variable (h options given) in
/-- Any number of changes. -/
def Shifts : State → State → Prop := Relation.ReflTransGen (Shift h options given)

theorem Shift.grows (hs : Shift h options given s s') : Grows s s' := by
  cases hs with
  | move hm => exact hm.grows
  | enter => exact ⟨id, List.prefix_rfl, id, List.prefix_rfl⟩
  | mark key =>
    refine ⟨id, List.prefix_rfl, fun hk => ?_, List.prefix_rfl⟩
    exact Std.HashSet.contains_insert.trans (by rw [hk, Bool.or_true])

theorem Shift.indexed (hs : Shift h options given s s') (hi : Indexed h s) : Indexed h s' := by
  cases hs with
  | move hm => exact hm.indexed hi
  | enter | mark => exact hi.congr rfl

namespace Shifts

theorem refl : Shifts h options given s s := Relation.ReflTransGen.refl

theorem trans (h₁ : Shifts h options given s s') (h₂ : Shifts h options given s' t) :
    Shifts h options given s t := Relation.ReflTransGen.trans h₁ h₂

theorem single (hs : Shift h options given s s') : Shifts h options given s s' :=
  Relation.ReflTransGen.single hs

theorem of_moves (hm : Moves h options (fun req => req.entryAt? = none) given s s') :
    Shifts h options given s s' :=
  Relation.ReflTransGen.mono (fun _ _ hm => Shift.move hm) s s' hm

theorem discover (hd : Discovers s s') (hi : Indexed h s') : Shifts h options given s s' :=
  single (.move (.discover hd hi))

/-- What every change keeps is kept by any number of them. -/
theorem keep {I : State → Prop} (hkeep : ∀ {s s'}, Shift h options given s s' → I s → I s')
    (hs : Shifts h options given s s') (hI : I s) : I s' := by
  induction hs with
  | refl => exact hI
  | tail _ hs ih => exact hkeep hs ih

theorem grows (hs : Shifts h options given s s') : Grows s s' :=
  hs.keep (I := Grows s) (fun hs hg => hg.trans hs.grows) (.refl s)

theorem indexed (hs : Shifts h options given s s') (hi : Indexed h s) : Indexed h s' :=
  hs.keep Shift.indexed hi

end Shifts

/-! ## Steps that shift a search -/

variable (h options given) in
/-- Whether it fails or not, a step makes only such changes. -/
def Shifting (m : Step α) (s : State) : Prop := Shifts h options given s (exec m s).2

namespace Shifting

variable {m : Step α}

theorem pure (a : α) : Shifting h options given (pure a : Step α) s := Shifts.refl

theorem throw (cause : Abrupt) : Shifting h options given (throw cause : Step α) s := Shifts.refl

theorem bind {f : α → Step β} (hm : Shifting h options given m s)
    (hf : ∀ a s', exec m s = (.ok a, s') → Shifting h options given (f a) s') :
    Shifting h options given (m >>= f) s := by
  unfold Shifting at hm ⊢
  rw [exec_bind]
  cases hexec : exec m s with
  | mk outcome s' =>
    rw [hexec] at hm
    cases outcome with
    | ok a => exact hm.trans (hf a s' hexec)
    | error cause => exact hm

theorem map {f : α → β} (hm : Shifting h options given m s) :
    Shifting h options given (f <$> m) s := by
  rw [← bind_pure_comp]
  exact hm.bind fun _ _ _ => .pure _

/-- A step that changes the state only if it does not fail. -/
theorem of_wp (hok : WP m True s fun _ s' => Shifts h options given s s')
    (hfail : ∀ cause s', exec m s = (.error cause, s') → s' = s) :
    Shifting h options given m s := by
  unfold Shifting
  cases hexec : exec m s with
  | mk outcome s' =>
    cases outcome with
    | ok a => exact hok.of_exec_eq_ok hexec
    | error cause =>
      rw [hfail cause s' hexec]
      exact .refl

/-- What a step that does not fail leaves. -/
theorem of_exec_eq {outcome : Except Abrupt α} (hm : Shifting h options given m s)
    (hexec : exec m s = (outcome, s')) : Shifts h options given s s' := by
  unfold Shifting at hm
  rwa [hexec] at hm

theorem wp (hm : Shifting h options given m s) :
    WP m True s fun _ s' => Shifts h options given s s' := by
  unfold WP
  cases hexec : exec m s with
  | mk outcome s' =>
    cases outcome with
    | ok a => exact hm.of_exec_eq hexec
    | error cause => trivial

theorem forM {items : List α} {f : α → Step Unit} (hi : Indexed h s)
    (hf : ∀ a ∈ items, ∀ s, Indexed h s → Shifting h options given (f a) s) :
    Shifting h options given (items.forM f) s := by
  induction items generalizing s with
  | nil => exact .pure ()
  | cons a rest ih =>
    have ha := hf a List.mem_cons_self s hi
    refine .bind ha fun _ s' hexec => ih ((ha.of_exec_eq hexec).indexed hi) fun b hb => ?_
    exact hf b (List.mem_cons_of_mem _ hb)

end Shifting

/-! ## Discovery -/

theorem exec_register_error {v : Identity} {cause : Abrupt}
    (hexec : exec (register h v) s = (.error cause, s')) : s' = s := by
  unfold register at hexec
  rw [exec_bind, exec_get] at hexec
  simp only at hexec
  split at hexec
  · cases hexec
  · rw [exec_bind, exec_lift] at hexec
    cases hb : builtinName h v <;> rw [hb] at hexec <;> cases hexec
    rfl

theorem exec_discover_error {v : Identity} {cause : Abrupt}
    (hexec : exec (discover h v) s = (.error cause, s')) : s' = s := by
  unfold discover at hexec
  rw [exec_bind] at hexec
  cases hr : exec (register h v) s with
  | mk outcome s₁ =>
    rw [hr] at hexec
    cases outcome with
    | ok id => cases v <;> cases hexec
    | error cause' =>
      cases hexec
      exact exec_register_error hr

theorem shifting_discover (hi : Indexed h s) (v : Identity) :
    Shifting h options given (discover h v) s :=
  .of_wp ((discover_spec hi (.inr trivial)).mono fun _ _ ⟨hd, hi', _⟩ => .discover hd hi')
    fun _ _ => exec_discover_error

theorem shifting_nodeFor (hi : Indexed h s) (v : Value) :
    Shifting h options given (nodeFor h v) s := by
  unfold nodeFor identity
  cases Identity.ofValue v with
  | ok i => exact shifting_discover hi i
  | error violation => exact .throw _

theorem shifting_describe (hi : Indexed h s) (v : Value) :
    Shifting h options given (describe h v) s := by
  unfold describe
  cases Identity.ofValue v with
  | ok i => exact .bind (shifting_discover hi i) fun _ _ _ => .pure _
  | error violation => exact .pure _

theorem shifting_ownerIds (hi : Indexed h s) (strength : Strength) :
    Shifting h options given (ownerIds h strength) s := by
  cases strength with
  | strong | weak => exact .pure _
  | joint owners =>
    show Shifting h options given (owners.mapM (nodeFor h)) s
    rw [← List.mapM'_eq_mapM]
    induction owners generalizing s with
    | nil => exact .pure _
    | cons owner rest ih =>
      have howner : Shifting h options given (nodeFor h owner) s := shifting_nodeFor hi owner
      refine .bind howner fun _ s' hexec => ?_
      exact .bind (ih ((howner.of_exec_eq hexec).indexed hi)) fun _ _ _ => .pure _

/-! ## Requests -/

/-- The values that have nodes are there in the heap. -/
theorem isValid_of_names (hi : Indexed h s) {v : Value} {id : NodeId}
    (hv : s.interner.Names v id) : v.hasIdentity = true ∧ h.isValid v = true := by
  obtain ⟨i, hov, hid⟩ := hv
  rw [Heap.isValid_of_ofValue hov, Identity.ofValue_eq_ok.mp hov]
  exact ⟨by cases i <;> rfl, hi.has i (hi.lawful.mem_values hid)⟩

theorem isValid_of_endsAt (hi : Indexed h s) {child : Value} {childId? : Option NodeId}
    (hc : s.EndsAt child childId?) : h.isValid child = true := by
  unfold State.EndsAt at hc
  cases hov : Identity.ofValue child with
  | ok i =>
    rw [hov] at hc
    obtain ⟨id, -, hid, -⟩ := hc
    exact (isValid_of_names hi ⟨i, hov, hid⟩).2
  | error violation => rw [Heap.isValid, hov]

/-- Owners that all have nodes are there in the heap. -/
theorem isValid_of_owns (hi : Indexed h s) {ids : List NodeId} {strength : Strength}
    (ho : s.interner.Owns ids strength) : strength.IsValid h := by
  cases strength with
  | strong | weak => trivial
  | joint owners =>
    have howns : List.Forall₂ s.interner.Names owners ids := ho
    intro v hv
    obtain ⟨id, -, hnames⟩ := (exists_of_forall₂ howns).1 v hv
    exact isValid_of_names hi hnames

/-- A reference that is new is recorded unless the nodes of its owners cannot be
found: it is only remembered then. -/
theorem shifting_addNew (hi : Indexed h s) {parent : ObjectRef} {kind : EdgeKind} {child : Value}
    {strength : Strength} {parentId : NodeId} {childId? : Option NodeId}
    (hp : s.interner.Names (.object parent) parentId) (hc : s.EndsAt child childId?)
    (hnew : s.recorded.contains (parentId, kind, childId?) = false)
    (hprim : childId? = none → options.recordPrimitives = true) :
    Shifts h options given s (exec (addNew h options parentId kind child strength childId?)
      { s with recorded := s.recorded.insert (parentId, kind, childId?) }).2 := by
  let s₁ : State := { s with recorded := s.recorded.insert (parentId, kind, childId?) }
  have hmark : Shifts h options given s s₁ := .single (.mark _)
  have hi₁ : Indexed h s₁ := hi.congr rfl
  have howners : Shifting h options given (ownerIds h strength) s₁ := shifting_ownerIds hi₁ strength
  show Shifts h options given s (exec (addNew h options parentId kind child strength childId?) s₁).2
  cases hexec : exec (ownerIds h strength) s₁ with
  | mk outcome s₂ =>
    cases outcome with
    | error cause =>
      rw [addNew, exec_bind, hexec]
      exact hmark.trans (howners.of_exec_eq hexec)
    | ok ids =>
      -- nothing that comes after the owners can fail
      have hspec : WP (ownerIds h strength) True s₁ _ := ownerIds_spec hi₁ (.inr trivial)
      obtain ⟨-, hi₂, howns⟩ := hspec.of_exec_eq_ok hexec
      have hadd : WP (addNew h options parentId kind child strength childId?) False s₁ fun _ s' =>
          Moves h options (fun req => req.entryAt? = none) given s s' ∧ _ :=
        addNew_spec hi (rfl : (Request.edge parent kind child strength).entryAt? = none) .edge hp hc
          (.inl (isValid_of_endsAt hi hc)) (.inl (isValid_of_owns hi₂ howns)) hnew hprim
      obtain ⟨_, s', hs', hm, -⟩ := hadd.exists_ok
      rw [hs']
      exact .of_moves hm

theorem shifting_addEdge (hi : Indexed h s) (parent : ObjectRef) (kind : EdgeKind) (child : Value)
    (strength : Strength) :
    Shifting h options given (addEdge h options parent kind child strength) s := by
  rw [addEdge_eq]
  have hparent : Shifting h options given (discover h (.object parent)) s :=
    shifting_discover hi (.object parent)
  refine .bind hparent fun parentId s₁ hexec₁ => ?_
  have hspec₁ : WP (discover h (.object parent)) True s _ := discover_spec hi (.inr trivial)
  obtain ⟨hd₁, hi₁, hpid, -⟩ := hspec₁.of_exec_eq_ok hexec₁
  have hspec₂ : WP (childNode h child) True s₁ _ := childNode_spec hi₁ (.inr trivial)
  have hchild : Shifting h options given (childNode h child) s₁ := by
    unfold childNode
    cases Identity.ofValue child with
    | ok i => exact .map (shifting_discover hi₁ i)
    | error violation => exact .pure _
  refine .bind hchild fun childId? s₂ hexec₂ => ?_
  obtain ⟨hd₂, hi₂, hc⟩ := hspec₂.of_exec_eq_ok hexec₂
  unfold addBetween markRecorded
  split
  · exact .pure ()
  · rename_i hkeep
    have hprim : childId? = none → options.recordPrimitives = true := by
      rintro rfl
      simpa using hkeep
    unfold Shifting
    rw [exec_bind, exec_modifyGet]
    by_cases hrec : s₂.recorded.contains (parentId, kind, childId?) = true
    · rw [if_pos hrec]
      exact .refl
    · rw [if_neg hrec]
      exact shifting_addNew hi₂ ⟨_, rfl, hd₂.ids hpid⟩ hc (Bool.eq_false_iff.mpr hrec) hprim

theorem shifting_addEntry (hi : Indexed h s) (collection : ObjectRef) (i : Nat) (key : Value)
    (keyStrength : Strength) (value? : Option (Value × Strength)) :
    Shifting h options given (addEntry h options collection i key keyStrength value?) s := by
  rw [addEntry_eq]
  have hspec₁ : WP (discover h (.object collection)) True s _ := discover_spec hi (.inr trivial)
  refine .bind (shifting_discover hi _) fun collectionId s₁ hexec₁ => ?_
  obtain ⟨hd₁, hi₁, hid, -⟩ := hspec₁.of_exec_eq_ok hexec₁
  have hspec₂ : WP (describe h key) True s₁ _ := describe_spec hi₁ (.inr trivial)
  refine .bind (shifting_describe hi₁ key) fun keyEnd s₂ hexec₂ => ?_
  obtain ⟨hd₂, hi₂, hkey⟩ := hspec₂.of_exec_eq_ok hexec₂
  have hvalue : Shifting h options given (describeValue h value?) s₂ := by
    unfold describeValue
    split
    · exact .map (shifting_describe hi₂ _)
    · exact .pure _
  refine .bind hvalue fun valueEnd? s₃ hexec₃ => ?_
  obtain ⟨hd₃, hi₃, hvalueEnd⟩ := (describeValue_denotes hi₂ value?).of_exec_eq_ok hexec₃
  let c : CollectionEntry :=
    ⟨s₃.nextEdge, collectionId, i, keyEnd, keyStrength == .strong, valueEnd?⟩
  let s₄ : State := { s₃ with nextEdge := s₃.nextEdge + 1, entries := s₃.entries.push c }
  have hc : s₃.KnowsEntry c := {
    collection := ⟨_, (hd₂.trans hd₃).ids hid⟩
    key := hd₃.grows.knowsEnd (knowsEnd_of_denotes hkey)
    value := fun e he => by
      have hsome : valueEnd? = some e := he
      rw [hsome] at hvalueEnd
      generalize value?.map Prod.fst = v? at hvalueEnd
      cases hvalueEnd with
      | some hdenotes => exact knowsEnd_of_denotes hdenotes }
  have henter : Shifts h options given s₃ s₄ := .single (.enter hc rfl)
  have hi₄ : Indexed h s₄ := hi₃.congr rfl
  unfold Shifting freshEdge
  rw [exec_bind, exec_modifyGet]
  dsimp only
  rw [exec_bind, exec_modify]
  dsimp only
  refine henter.trans (Shifting.bind (shifting_addEdge hi₄ ..) fun _ s₅ hexec₅ => ?_)
  have hi₅ : Indexed h s₅ :=
    ((shifting_addEdge hi₄ .. : Shifting h options given _ s₄).of_exec_eq hexec₅).indexed hi₄
  split
  · exact shifting_addEdge hi₅ ..
  · exact .pure ()

/-- A request shifts a search, whether it fails or not. -/
theorem shifting_perform (hi : Indexed h s) (req : Request) :
    Shifting h options given (perform h options req) s := by
  cases req with
  | edge parent kind child strength => exact shifting_addEdge hi ..
  | entry collection i key keyStrength value? => exact shifting_addEntry hi ..
  | symbolProperty parent symbol value =>
    have hnode : Shifting h options given (nodeFor h (.symbol symbol)) s :=
      shifting_nodeFor hi (.symbol symbol)
    refine .bind hnode fun id s₁ hexec₁ => ?_
    have hi₁ := (hnode.of_exec_eq hexec₁).indexed hi
    refine .bind (shifting_addEdge hi₁ ..) fun _ s₂ hexec₂ => ?_
    have hi₂ : Indexed h s₂ :=
      ((shifting_addEdge hi₁ .. : Shifting h options given _ s₁).of_exec_eq hexec₂).indexed hi₁
    exact shifting_addEdge hi₂ ..
  | node value => exact .map (shifting_nodeFor hi value)
  | noteOptions => exact .single (.move .note)
  | fail cause => exact .throw cause

theorem shifting_analyze (hi : Indexed h s) (analysis : Analysis) :
    Shifting h options given (analyze h options analysis) s := by
  induction analysis generalizing s with
  | done => exact .pure ()
  | fail cause => exact .throw cause
  | ask req next ih =>
    have hreq : Shifts h options given s (exec (answer h options req) s).2 := by
      have hperform : Shifting h options given (perform h options req) s := shifting_perform hi req
      rwa [Shifting, exec_perform] at hperform
    unfold Shifting analyze
    rw [exec_bind, exec_attempt]
    exact hreq.trans (ih _ (hreq.indexed hi))

/-! ## Searches -/

variable {registry : Registry}

theorem shifting_expandBy (hi : Indexed h s) (ref : ObjectRef) :
    Shifting h options given (expandBy h options registry ref) s := by
  unfold expandBy
  refine .bind (.of_wp (.lift (fun _ _ => .refl) fun _ _ => trivial) ?_) fun o s₁ hexec₁ => ?_
  · rintro cause s' hexec
    rw [exec_lift] at hexec
    exact (congrArg Prod.snd hexec).symm
  · obtain rfl : s = s₁ := by
      rw [exec_lift] at hexec₁
      exact congrArg Prod.snd hexec₁
    have hown : ∀ s, Indexed h s → Shifting h options given
        ((ownRequests ref o).forM (perform h options)) s := fun s hi =>
      .forM hi fun req _ s hi => shifting_perform hi req
    split
    · rename_i analysis _
      have hslots : Shifting h options given (analyze h options (analysis options h ref)) s :=
        shifting_analyze hi _
      refine .bind hslots fun _ s₂ hexec₂ => ?_
      exact hown s₂ ((hslots.of_exec_eq hexec₂).indexed hi)
    · exact .bind (.pure ()) fun _ s₂ hexec₂ => by
        cases hexec₂
        exact hown s hi

theorem shifting_expandAll (hi : Indexed h s) (steps : Nat) :
    Shifting h options given (expandAll (expandBy h options registry) steps) s := by
  induction steps generalizing s with
  | zero => exact .pure ()
  | succ steps ih =>
    unfold Shifting expandAll
    rw [exec_bind, exec_get]
    dsimp only
    split
    · exact .refl
    · rename_i ref _
      let s₁ : State := { s with expanded := s.expanded + 1 }
      have hi₁ : Indexed h s₁ := hi.congr rfl
      have hexpand : Shifts h options given s s₁ := .single (.move .expand)
      have hbody : Shifting h options given (expandBy h options registry ref) s₁ :=
        shifting_expandBy hi₁ ref
      rw [exec_bind, exec_modify]
      dsimp only
      refine hexpand.trans (Shifting.bind hbody fun _ s₂ hexec₂ => ?_)
      have hdrain : Shifts h options given s₂ s₂.drain := .of_moves (.drainWithin _)
      exact hdrain.trans (ih (hdrain.indexed ((hbody.of_exec_eq hexec₂).indexed hi₁)))

/-! ## The bound on expansions -/

/-- Objects that were expanded stay so. -/
theorem Shift.expanded_le (hs : Shift h options given s s') : s.expanded ≤ s'.expanded := by
  cases hs with
  | enter | mark => exact Nat.le_refl _
  | move hm =>
    cases hm with
    | discover hd _ =>
      rw [← hd.frame]
      exact Nat.le_refl _
    | hold | note => exact Nat.le_refl _
    | expand => exact Nat.le_succ _
    | @record req parent kind child strength e =>
      have hr := records_follow options (s.record e) e strength
      exact Nat.le_of_eq (eq_of_view State.records State.expanded (fun _ => rfl) hr).symm
    | enter hreq => cases hreq
    | @resolve r =>
      have hr := records_resolve s r
      exact Nat.le_of_eq (eq_of_view State.records State.expanded (fun _ => rfl) hr).symm

theorem Shifts.expanded_le (hs : Shifts h options given s s') : s.expanded ≤ s'.expanded :=
  hs.keep (I := fun t => s.expanded ≤ t.expanded) (fun hs hle => Nat.le_trans hle hs.expanded_le)
    (Nat.le_refl _)

/-- The agenda lists each object of the heap once at most, so that a search comes
to its end when it may expand as many objects as the heap has slots. -/
theorem expandAll_of_size_le (hi : Indexed h s) {steps : Nat}
    (hle : h.size ≤ s.expanded + steps) :
    exec (expandAll (expandBy h options registry) (steps + 1)) s =
      exec (expandAll (expandBy h options registry) steps) s := by
  induction steps generalizing s with
  | zero =>
    have hnone : s.agenda[s.expanded]? = none :=
      Array.getElem?_eq_none_iff.mpr (Nat.le_trans hi.agenda_size_le hle)
    conv_lhs => rw [expandAll, exec_bind, exec_get]
    dsimp only
    rw [hnone]
    rfl
  | succ steps ih =>
    rw [expandAll, exec_bind, exec_get]
    conv_rhs => rw [expandAll, exec_bind, exec_get]
    dsimp only
    split
    · rfl
    · rename_i ref _
      let s₁ : State := { s with expanded := s.expanded + 1 }
      have hi₁ : Indexed h s₁ := hi.congr rfl
      have hbody : Shifting h options (Given []) (expandBy h options registry ref) s₁ :=
        shifting_expandBy hi₁ ref
      simp only [exec_bind, exec_modify]
      cases hexec : exec (expandBy h options registry ref) s₁ with
      | mk outcome s₂ =>
        cases outcome with
        | error cause => rfl
        | ok _ =>
          have hs₂ : Shifts h options (Given []) s₁ s₂.drain :=
            (hbody.of_exec_eq hexec).trans (.of_moves (.drainWithin _))
          have hstep : s.expanded + 1 ≤ s₂.drain.expanded := hs₂.expanded_le
          exact ih (hs₂.indexed hi₁) (by omega)

/-- A search that answers has made such changes, whatever its analyzers do. It
holds the held values, and its target has a node. -/
theorem searchBy_shifts (target : Value) (held : List Value) :
    WP (searchBy h options registry target held) True {} fun g s =>
      Shifts h options (Given held) {} s ∧ (∀ i, Given held i → s.Holds i) ∧
        ∃ id, s.interner.Names target id ∧ g = s.graph id := by
  unfold searchBy
  have hholds : WP (held.forM (hold h)) True {} fun _ s =>
      Moves h options (fun req => req.entryAt? = none) (Given held) {} s ∧ _ :=
    holdAll_spec fun _ _ => .inr trivial
  refine .bind (hholds.mono ?_)
  rintro _ s₁ ⟨hm₁, -, hh₁⟩
  have hs₁ : Shifts h options (Given held) {} s₁ := .of_moves hm₁
  have hi₁ := hs₁.indexed (.init h)
  unfold identity
  cases hov : Identity.ofValue target with
  | error violation => exact .bind (.throw trivial)
  | ok i =>
    refine .bind (.pure (.bind ((register_spec hi₁ (.inr trivial)).mono ?_)))
    rintro id s₂ ⟨hd₂, hi₂, hid₂⟩
    have hs₂ : Shifts h options (Given held) s₁ s₂.drain :=
      .trans (.discover hd₂ hi₂) (.of_moves (.drainWithin _))
    have hexpand : Shifting h options (Given held)
        (expandAll (expandBy h options registry) h.size) s₂.drain :=
      shifting_expandAll (hs₂.indexed hi₁) h.size
    refine .bind (.modify (.bind (hexpand.wp.mono ?_)))
    rintro _ s₃ hs₃
    have hs := hs₂.trans hs₃
    refine .bind (.get (.pure ⟨hs₁.trans hs, fun i hi => hs.grows.holds (hh₁ i hi), ?_⟩))
    exact ⟨id, ⟨i, hov, hs₃.grows.ids ((grows_drain s₂).ids hid₂)⟩, rfl⟩

end Retention.Search
