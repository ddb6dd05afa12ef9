import Retention.Proofs.Search.Moves

/-!
# What requests do

A search performs the requests of one object after another, each as a sequence
of moves, and drains after each object. In the end no object of the agenda is
left, and whatever the requests of an object ask for is recorded
(`State.Performs`).

* `addEdge_spec`, `addEntry_spec`, `perform_spec`: a request;
* `expandWithin_spec`: the objects of the agenda;
* `search_spec`: a whole search.
-/

namespace Retention

/-- The owners of a reference are objects or symbols of a heap. -/
def Strength.IsValid (h : Heap) : Strength → Prop
  | .joint owners => ∀ v ∈ owners, v.hasIdentity = true ∧ h.isValid v = true
  | .strong | .weak => True

/-- What a request refers to is there in a heap, and it is none to give up. -/
def Request.IsValid (h : Heap) : Request → Prop
  | .edge parent _ child strength =>
    h.has (.object parent) = true ∧ h.isValid child = true ∧ strength.IsValid h
  | .entry collection _ key keyStrength value? =>
    h.has (.object collection) = true ∧ h.isValid key = true ∧ keyStrength.IsValid h ∧
      ∀ value strength, value? = some (value, strength) →
        h.isValid value = true ∧ strength.IsValid h
  | .symbolProperty parent symbol value =>
    h.has (.object parent) = true ∧ h.has (.symbol symbol) = true ∧ h.isValid value = true
  | .node value => value.hasIdentity = true ∧ h.isValid value = true
  | .noteOptions => True
  | .fail _ => False

namespace Search

variable {h : Heap} {options : Options} {asked : Request → Prop} {given : Identity → Prop}
  {s s' t : State} {E : Prop}

/-! ## References and entries -/

/-- What a child is recorded as: a node, or nothing for a primitive. The object
that it is will be expanded. -/
def State.EndsAt (s : State) (child : Value) (child? : Option NodeId) : Prop :=
  match Identity.ofValue child with
  | .ok i => ∃ id, child? = some id ∧ s.interner.id? i = some id ∧
      ∀ ref, i = .object ref → ref ∈ s.agenda.toList
  | .error _ => child? = none

/-- A reference is recorded, unless it is one to a primitive that is passed over. -/
def State.Notes (s : State) (options : Options) (parent : ObjectRef) (kind : EdgeKind)
    (child : Value) : Prop :=
  ∃ parentId child?, s.interner.Names (.object parent) parentId ∧ s.EndsAt child child? ∧
    ((child? = none → options.recordPrimitives = true) →
      s.recorded.contains (parentId, kind, child?) = true)

/-- A request is done. -/
def State.Performs (s : State) (options : Options) : Request → Prop
  | .edge parent kind child _ => s.Notes options parent kind child
  | .entry collection i key _ value? =>
    s.Notes options collection (.entryKey i) key ∧
      ∀ value strength, value? = some (value, strength) →
        s.Notes options collection (.entryValue i) value
  | .symbolProperty parent symbol value =>
    s.Notes options parent .symbolKey (.symbol symbol) ∧
      ∃ id, s.interner.Names (.symbol symbol) id ∧ s.Notes options parent (.symbolValue id) value
  | .node _ | .noteOptions | .fail _ => True

theorem Grows.endsAt (hg : Grows s s') {child : Value} {child? : Option NodeId}
    (hc : s.EndsAt child child?) : s'.EndsAt child child? := by
  unfold State.EndsAt at hc ⊢
  split at hc
  · obtain ⟨id, he, hid, hr⟩ := hc
    exact ⟨id, he, hg.ids hid, fun ref hi => hg.agenda.subset (hr ref hi)⟩
  · exact hc

theorem Grows.notes (hg : Grows s s') {parent : ObjectRef} {kind : EdgeKind} {child : Value}
    (hn : s.Notes options parent kind child) : s'.Notes options parent kind child := by
  obtain ⟨parentId, child?, hp, hc, hr⟩ := hn
  exact ⟨parentId, child?, hg.names hp, hg.endsAt hc, fun hprim => hg.recorded (hr hprim)⟩

theorem Grows.performs (hg : Grows s s') {req : Request} (hp : s.Performs options req) :
    s'.Performs options req := by
  cases req with
  | edge => exact hg.notes hp
  | entry => exact ⟨hg.notes hp.1, fun value strength hv => hg.notes (hp.2 value strength hv)⟩
  | symbolProperty =>
    obtain ⟨hk, id, hid, hv⟩ := hp
    exact ⟨hg.notes hk, id, hg.names hid, hg.notes hv⟩
  | node | noteOptions | fail => trivial

/-- A request that is done has its references recorded. -/
theorem State.Performs.notes {req : Request} {parent : ObjectRef} {kind : EdgeKind}
    {child : Value} {strength : Strength} (hp : s.Performs options req)
    (ha : req.Adds s.interner parent kind child strength) : s.Notes options parent kind child := by
  cases ha with
  | edge => exact hp
  | entryKey => exact hp.1
  | entryValue => exact hp.2 _ _ rfl
  | symbolKey => exact hp.1
  | symbolValue hid =>
    obtain ⟨-, id, hid', hv⟩ := hp
    rwa [hid.unique hid']

/-- The node of a child, which is made at first sight. -/
def childNode (h : Heap) (child : Value) : Step (Option NodeId) :=
  match Identity.ofValue child with
  | .ok i => some <$> discover h i
  | .error _ => pure none

/-- Records a reference between nodes that is new. -/
def addNew (h : Heap) (options : Options) (parentId : NodeId) (kind : EdgeKind) (child : Value)
    (strength : Strength) (childId? : Option NodeId) : Step Unit := do
  let owners ← ownerIds h strength
  let edge ← freshEdge
  let endpoint ← describe h child
  modify fun s => { s with
    edges := s.edges.push
      { id := edge, parent := parentId, child := endpoint, kind
        strong := strength != .weak, owners } }
  match childId? with
  | some childId => modify (carry options parentId childId edge owners strength)
  | none => pure ()

/-- Records a reference between nodes, unless the same reference is recorded. -/
def addBetween (h : Heap) (options : Options) (parentId : NodeId) (kind : EdgeKind)
    (child : Value) (strength : Strength) (childId? : Option NodeId) : Step Unit := do
  if childId?.isNone && !options.recordPrimitives then return
  if !(← markRecorded parentId kind childId?) then return
  addNew h options parentId kind child strength childId?

theorem addEdge_eq (h : Heap) (options : Options) (parent : ObjectRef) (kind : EdgeKind)
    (child : Value) (strength : Strength) :
    addEdge h options parent kind child strength = (do
      let parentId ← discover h (.object parent)
      let childId? ← childNode h child
      addBetween h options parentId kind child strength childId?) := by
  unfold addEdge childNode
  cases Identity.ofValue child <;> rfl

theorem childNode_spec (hi : Indexed h s) {child : Value} (hv : h.isValid child = true ∨ E) :
    WP (childNode h child) E s fun child? s' =>
      Discovers s s' ∧ Indexed h s' ∧ s'.EndsAt child child? := by
  unfold childNode State.EndsAt
  cases hov : Identity.ofValue child with
  | error violation => exact .pure ⟨.refl s, hi, rfl⟩
  | ok i =>
    rw [Heap.isValid_of_ofValue hov] at hv
    refine .map ((discover_spec hi hv).mono fun id s' ⟨hd, hi', hid, hr⟩ => ?_)
    exact ⟨hd, hi', id, rfl, hid, hr⟩

/-- A child is recorded as a node if it has an identity. -/
theorem isSome_of_endsAt {child : Value} {child? : Option NodeId} (hc : s.EndsAt child child?) :
    child?.isSome = child.hasIdentity := by
  unfold State.EndsAt at hc
  cases child with
  | object | symbol =>
    obtain ⟨id, rfl, -⟩ := hc
    rfl
  | _ => rw [hc]; rfl

/-- A child is recorded as its node. -/
theorem eq_some_iff_of_endsAt {child : Value} {child? : Option NodeId} (hc : s.EndsAt child child?)
    (id : NodeId) : child? = some id ↔ s.interner.Names child id := by
  unfold State.EndsAt at hc
  split at hc
  · rename_i i hi
    obtain ⟨id', rfl, hid, -⟩ := hc
    have hnames : s.interner.Names child id' := ⟨i, hi, hid⟩
    constructor
    · rintro ⟨⟩
      exact hnames
    · exact fun h => congrArg some (hnames.unique h)
  · rename_i violation hi
    rw [hc]
    refine ⟨nofun, ?_⟩
    rintro ⟨i, hi', -⟩
    cases hi.symm.trans hi'

/-- An endpoint that a value is denoted by is where the value ends. -/
theorem node?_of_denotes {child : Value} {child? : Option NodeId} {e : Endpoint}
    (hc : s.EndsAt child child?) (he : s.interner.Denotes child e) : e.node? = child? := by
  unfold State.EndsAt at hc
  rcases he with ⟨id, ⟨i, hi, hid⟩, rfl⟩ | ⟨hprim, rfl⟩
  · rw [hi] at hc
    obtain ⟨id', rfl, hid', -⟩ := hc
    rw [hid] at hid'
    exact hid'
  · cases child <;> first | exact hc.symm | cases hprim

/-- A reference is recorded around the discovery of its owners and its child. -/
theorem record_of_frames {s₂ s₄ : State} {e : Edge}
    (h₂ : { s with recorded := s.recorded.insert (e.parent, e.kind, e.child.node?) }.reindex s₂ =
      s₂)
    (h₄ : { s₂ with nextEdge := s₂.nextEdge + 1 }.reindex s₄ = s₄) :
    { s₄ with edges := s₄.edges.push e } = (s.reindex s₄).record e :=
  let push (t : State) : State := { t with edges := t.edges.push e }
  let number (t : State) : State := { t with nextEdge := t.nextEdge + 1 }
  let mark (t : State) : State :=
    { t with recorded := t.recorded.insert (e.parent, e.kind, e.child.node?) }
  calc push s₄
    _ = push ((number s₂).reindex s₄) := congrArg push h₄.symm
    _ = push ((number ((mark s).reindex s₂)).reindex s₄) :=
      congrArg (fun t => push ((number t).reindex s₄)) h₂.symm

theorem wp_follow {e : Edge} {childId? : Option NodeId} {strength : Strength}
    {Q : Unit → State → Prop} (hn : e.child.node? = childId?)
    (hQ : Q () (t.follow options e strength)) :
    WP (match childId? with
      | some childId => (modify (carry options e.parent childId e.id e.owners strength) : Step Unit)
      | none => Pure.pure ()) E t Q := by
  subst hn
  unfold State.follow at hQ
  split <;> rename_i hc <;> rw [hc] at hQ
  · exact .modify hQ
  · exact .pure hQ

theorem addNew_spec (hi : Indexed h s) {req : Request} {parent : ObjectRef} {kind : EdgeKind}
    {child : Value} {strength : Strength} {parentId : NodeId} {childId? : Option NodeId}
    (hreq : asked req) (hadds : req.Adds s.interner parent kind child strength)
    (hp : s.interner.Names (.object parent) parentId) (hc : s.EndsAt child childId?)
    (hv : h.isValid child = true ∨ E) (howners : strength.IsValid h ∨ E)
    (hnew : s.recorded.contains (parentId, kind, childId?) = false)
    (hprim : childId? = none → options.recordPrimitives = true) :
    WP (addNew h options parentId kind child strength childId?) E
      { s with recorded := s.recorded.insert (parentId, kind, childId?) } fun _ s' =>
      Moves h options asked given s s' ∧ s'.Notes options parent kind child ∧
        s'.expanded = s.expanded := by
  unfold addNew
  let s₁ := { s with recorded := s.recorded.insert (parentId, kind, childId?) }
  have hi₁ : Indexed h s₁ := hi.congr rfl
  have howners' := howners.imp_left fun (ho : strength.IsValid h) owners
    (he : strength = .joint owners) => show (Strength.joint owners).IsValid h from he ▸ ho
  refine .bind ((ownerIds_spec hi₁ howners').mono fun owners s₂ ⟨hd₂, hi₂, hown⟩ => ?_)
  let s₃ := { s₂ with nextEdge := s₂.nextEdge + 1 }
  have hi₃ : Indexed h s₃ := hi₂.congr rfl
  refine .bind (.modifyGet (.bind ((describe_spec hi₃ hv).mono
    fun endpoint s₄ ⟨hd₄, hi₄, hend⟩ => .bind (.modify ?_))))
  let e : Edge := ⟨s₂.nextEdge, parentId, endpoint, kind, strength != .weak, owners⟩
  have hbase : Discovers s (s.reindex s₄) :=
    (hd₂.congr (s := s) rfl).trans (hd₄.congr (s := s.reindex s₂) rfl)
  have hg₃ : Grows s₂ s₃ := ⟨id, List.prefix_rfl, id, List.prefix_rfl⟩
  have hg₂ : Grows s₂ s₄ := hg₃.trans hd₄.grows
  have hc₄ : s₄.EndsAt child childId? := hg₂.endsAt ((hd₂.congr (s := s) rfl).grows.endsAt hc)
  have hn : e.child.node? = childId? := node?_of_denotes hc₄ hend
  have hnext : e.id = s.nextEdge := by
    show s₂.nextEdge = _
    rw [← hd₂.frame]; rfl
  have hs₅ : { s₄ with edges := s₄.edges.push e } = (s.reindex s₄).record e :=
    record_of_frames (by rw [hn]; exact hd₂.frame) hd₄.frame
  show WP (match childId? with
    | some childId => modify (carry options e.parent childId e.id e.owners strength)
    | none => Pure.pure ()) E { s₄ with edges := s₄.edges.push e } _
  rw [hs₅]
  have hrecs := records_follow options ((s.reindex s₄).record e) e strength
  have hrecords : e.Records (s.reindex s₄).interner parent kind child strength :=
    ⟨hbase.names hp, rfl, hend, rfl, hown.mono hg₂.names⟩
  have hmove : Move h options asked given (s.reindex s₄)
      (((s.reindex s₄).record e).follow options e strength) :=
    .record hreq (hadds.mono hbase.names) hrecords hnext
      (by rw [State.hasRecorded, hn]; exact hnew) (by rw [hn]; exact hprim)
  have hg₅ : Grows s₄ ((s.reindex s₄).record e) := by
    rw [← hs₅]
    exact ⟨id, List.prefix_rfl, id, List.prefix_rfl⟩
  have hg := hg₅.trans (.of_records hrecs (log_prefix_follow options _ e strength))
  refine wp_follow hn ⟨.trans (.single (.discover hbase (hi₄.congr rfl))) (.single hmove), ?_, ?_⟩
  · refine ⟨parentId, childId?, hg.names (hbase.names hp), hg.endsAt hc₄, fun _ => ?_⟩
    rw [eq_of_view State.records State.recorded (fun _ => rfl) hrecs, ← hn]
    exact Std.HashSet.contains_insert_self
  · exact (eq_of_view State.records State.expanded (fun _ => rfl) hrecs).trans rfl

theorem addBetween_spec (hi : Indexed h s) {req : Request} {parent : ObjectRef} {kind : EdgeKind}
    {child : Value} {strength : Strength} {parentId : NodeId} {childId? : Option NodeId}
    (hreq : asked req) (hadds : req.Adds s.interner parent kind child strength)
    (hp : s.interner.Names (.object parent) parentId) (hc : s.EndsAt child childId?)
    (hv : h.isValid child = true ∨ E) (howners : strength.IsValid h ∨ E) :
    WP (addBetween h options parentId kind child strength childId?) E s fun _ s' =>
      Moves h options asked given s s' ∧ s'.Notes options parent kind child ∧
        s'.expanded = s.expanded := by
  unfold addBetween markRecorded
  split
  · rename_i hskip
    rw [Bool.and_eq_true, Option.isNone_iff_eq_none, Bool.not_eq_true'] at hskip
    refine .pure ⟨.refl, ⟨parentId, childId?, hp, hc, fun hprim => ?_⟩, rfl⟩
    rw [hprim hskip.1] at hskip
    cases hskip.2
  · rename_i hkeep
    refine .bind (.modifyGet ?_)
    by_cases hrec : s.recorded.contains (parentId, kind, childId?) = true
    · rw [if_pos hrec]
      exact .pure ⟨.refl, ⟨parentId, childId?, hp, hc, fun _ => hrec⟩, rfl⟩
    · rw [if_neg hrec]
      have hprim : childId? = none → options.recordPrimitives = true := by
        rintro rfl
        simpa using hkeep
      exact addNew_spec hi hreq hadds hp hc hv howners (Bool.eq_false_iff.mpr hrec) hprim

/-- Records a reference, unless it is recorded or one to a primitive that is
passed over. -/
theorem addEdge_spec (hi : Indexed h s) {req : Request} {parent : ObjectRef} {kind : EdgeKind}
    {child : Value} {strength : Strength} (hreq : asked req)
    (hadds : req.Adds s.interner parent kind child strength)
    (hp : h.has (.object parent) = true ∨ E) (hv : h.isValid child = true ∨ E)
    (howners : strength.IsValid h ∨ E) :
    WP (addEdge h options parent kind child strength) E s fun _ s' =>
      Moves h options asked given s s' ∧ s'.Notes options parent kind child ∧
        s'.expanded = s.expanded := by
  rw [addEdge_eq]
  refine .bind ((discover_spec hi hp).mono fun parentId s₁ ⟨hd₁, hi₁, hpid, _⟩ => ?_)
  refine .bind ((childNode_spec hi₁ hv).mono fun childId? s₂ ⟨hd₂, hi₂, hc⟩ => ?_)
  have hd := hd₁.trans hd₂
  refine (addBetween_spec hi₂ hreq (hadds.mono hd.names) ⟨_, rfl, hd₂.ids hpid⟩ hc hv howners).mono
    fun _ s₃ ⟨hm, hn, he⟩ => ⟨.trans (.single (.discover hd hi₂)) hm, hn, ?_⟩
  rw [he, ← hd.frame]; rfl

/-- The endpoint of the value of an entry. -/
def describeValue (h : Heap) : Option (Value × Strength) → Step (Option Endpoint)
  | some (value, _) => some <$> describe h value
  | none => pure none

theorem addEntry_eq (h : Heap) (options : Options) (collection : ObjectRef) (i : Nat) (key : Value)
    (keyStrength : Strength) (value? : Option (Value × Strength)) :
    addEntry h options collection i key keyStrength value? = (do
      let collectionId ← discover h (.object collection)
      let keyEnd ← describe h key
      let valueEnd? ← describeValue h value?
      let id ← freshEdge
      modify fun s => { s with
        entries := s.entries.push
          { id, collection := collectionId, entry := i, key := keyEnd
            keyIsStrong := keyStrength == .strong, value? := valueEnd? } }
      addEdge h options collection (.entryKey i) key keyStrength
      match value? with
      | some (value, strength) => addEdge h options collection (.entryValue i) value strength
      | none => Pure.pure ()) := by
  unfold addEntry describeValue
  cases value? <;> rfl

theorem describeValue_spec (hi : Indexed h s) {value? : Option (Value × Strength)}
    (hv : (∀ value strength, value? = some (value, strength) → h.isValid value = true) ∨ E) :
    WP (describeValue h value?) E s fun _ s' => Discovers s s' ∧ Indexed h s' := by
  unfold describeValue
  split
  · rename_i value strength
    have hv' := hv.imp_left fun hv => hv value strength rfl
    exact .map ((describe_spec hi hv').mono fun _ s' ⟨hd, hi', _⟩ => ⟨hd, hi'⟩)
  · exact .pure ⟨.refl s, hi⟩

theorem addEntry_spec (hi : Indexed h s) {collection : ObjectRef} {i : Nat} {key : Value}
    {keyStrength : Strength} {value? : Option (Value × Strength)}
    (hreq : asked (.entry collection i key keyStrength value?))
    (hv : (Request.entry collection i key keyStrength value?).IsValid h ∨ E) :
    WP (addEntry h options collection i key keyStrength value?) E s fun _ s' =>
      Moves h options asked given s s' ∧
        s'.Performs options (.entry collection i key keyStrength value?) ∧
        s'.expanded = s.expanded := by
  rw [addEntry_eq]
  have hcoll := hv.imp_left fun hv => hv.1
  have hkey := hv.imp_left fun hv => hv.2.1
  have hkeyst := hv.imp_left fun hv => hv.2.2.1
  refine .bind ((discover_spec hi hcoll).mono fun collectionId s₁ ⟨hd₁, hi₁, _⟩ => ?_)
  refine .bind ((describe_spec hi₁ hkey).mono fun keyEnd s₂ ⟨hd₂, hi₂, _⟩ => ?_)
  refine .bind ((describeValue_spec hi₂ (hv.imp_left fun hv value strength he =>
    (hv.2.2.2 value strength he).1)).mono fun valueEnd? s₃ ⟨hd₃, hi₃⟩ => ?_)
  refine .bind (.modifyGet (.bind (.modify ?_)))
  let c : CollectionEntry :=
    ⟨s₃.nextEdge, collectionId, i, keyEnd, keyStrength == .strong, valueEnd?⟩
  let s₄ : State := { s₃ with nextEdge := s₃.nextEdge + 1, entries := s₃.entries.push c }
  have hi₄ : Indexed h s₄ := hi₃.congr rfl
  have hd := hd₁.trans (hd₂.trans hd₃)
  have hm₄ : Moves h options asked given s s₄ :=
    .trans (.single (.discover hd hi₃)) (.single (.enter hreq rfl))
  have he₄ : s₄.expanded = s.expanded := by
    show s₃.expanded = _
    rw [← hd.frame]; rfl
  refine .bind ((addEdge_spec hi₄ hreq .entryKey hcoll hkey hkeyst).mono
    fun _ s₅ ⟨(hm₅ : Moves h options asked given s₄ s₅), hn₅, he₅⟩ => ?_)
  have hi₅ : Indexed h s₅ := hm₅.indexed hi₄
  split
  · rename_i value strength
    have hval := hv.imp_left fun hv => hv.2.2.2 value strength rfl
    refine (addEdge_spec hi₅ hreq .entryValue hcoll (hval.imp_left And.left)
      (hval.imp_left And.right)).mono
      fun _ s₆ ⟨(hm₆ : Moves h options asked given s₅ s₆), hn₆, he₆⟩ => ?_
    refine ⟨hm₄.trans (hm₅.trans hm₆), ⟨hm₆.grows.notes hn₅, fun _ _ he => ?_⟩,
      he₆.trans (he₅.trans he₄)⟩
    cases he
    exact hn₆
  · exact .pure ⟨hm₄.trans hm₅, ⟨hn₅, fun _ _ he => nomatch he⟩, he₅.trans he₄⟩

/-- A request is done, or the search fails. -/
theorem perform_spec (hi : Indexed h s) {req : Request} (hreq : asked req)
    (hv : req.IsValid h ∨ E) :
    WP (perform h options req) E s fun _ s' =>
      Moves h options asked given s s' ∧ s'.Performs options req ∧ s'.expanded = s.expanded := by
  cases req with
  | edge parent kind child strength =>
    exact addEdge_spec hi hreq .edge (hv.imp_left fun hv => hv.1) (hv.imp_left fun hv => hv.2.1)
      (hv.imp_left fun hv => hv.2.2)
  | entry collection i key keyStrength value? => exact addEntry_spec hi hreq hv
  | symbolProperty parent symbol value =>
    have hp := hv.imp_left fun hv => hv.1
    have hsym := hv.imp_left fun hv => hv.2.1
    have hnode : (Value.symbol symbol).hasIdentity = true ∧ h.isValid (.symbol symbol) = true ∨ E :=
      hsym.imp_left fun hv => ⟨rfl, hv⟩
    refine .bind ((nodeFor_spec hi hnode).mono
      fun id s₁ ⟨hd₁, hi₁, hid, _⟩ => ?_)
    refine .bind ((addEdge_spec hi₁ hreq .symbolKey hp hsym (.inl trivial)).mono
      fun _ s₂ ⟨(hm₂ : Moves h options asked given s₁ s₂), hn₂, he₂⟩ => ?_)
    have hid₂ := hm₂.grows.names hid
    refine (addEdge_spec (hm₂.indexed hi₁) hreq (.symbolValue hid₂) hp
      (hv.imp_left fun hv => hv.2.2) (.inl trivial)).mono
      fun _ s₃ ⟨(hm₃ : Moves h options asked given s₂ s₃), hn₃, he₃⟩ => ?_
    refine ⟨.trans (.single (.discover hd₁ hi₁)) (hm₂.trans hm₃),
      ⟨hm₃.grows.notes hn₂, id, hm₃.grows.names hid₂, hn₃⟩, he₃.trans (he₂.trans ?_)⟩
    rw [← hd₁.frame]; rfl
  | node value =>
    refine .bind ((nodeFor_spec hi hv).mono fun id s₁ ⟨hd₁, hi₁, _⟩ => .pure ?_)
    exact ⟨.single (.discover hd₁ hi₁), trivial, by rw [← hd₁.frame]; rfl⟩
  | noteOptions => exact .modify ⟨.single .note, trivial, rfl⟩
  | fail cause => exact .throw (hv.resolve_left id)

/-! ## Expansions -/

/-- What is asked for when the objects of a heap are expanded. -/
def Requested (h : Heap) (analyzers : AnalyzerTable) (req : Request) : Prop :=
  ∃ ref reqs, requestsFor h analyzers ref = .ok reqs ∧ req ∈ reqs

/-- The requests of an object are done. -/
def State.Expands (s : State) (h : Heap) (options : Options) (analyzers : AnalyzerTable)
    (ref : ObjectRef) : Prop :=
  ∀ reqs, requestsFor h analyzers ref = .ok reqs → ∀ req ∈ reqs, s.Performs options req

theorem Grows.expands {analyzers : AnalyzerTable} (hg : Grows s s') {ref : ObjectRef}
    (he : s.Expands h options analyzers ref) : s'.Expands h options analyzers ref :=
  fun reqs hreqs req hreq => hg.performs (he reqs hreqs req hreq)

theorem exists_requestsFor (analyzers : AnalyzerTable) {ref : ObjectRef}
    (hr : h.has (.object ref) = true) : ∃ reqs, requestsFor h analyzers ref = .ok reqs := by
  obtain ⟨o, ho⟩ := Heap.has_object.mp hr
  exact ⟨_, by rw [requestsFor, ho]; rfl⟩

variable {analyzers : AnalyzerTable}

theorem expand_spec (hi : Indexed h s) {ref : ObjectRef} (hr : h.has (.object ref) = true)
    (hvalid : ∀ reqs, requestsFor h analyzers ref = .ok reqs → ∀ req ∈ reqs, req.IsValid h ∨ E) :
    WP (expand h options analyzers ref) E s fun _ s' =>
      Moves h options (Requested h analyzers) given s s' ∧ s'.Expands h options analyzers ref ∧
        s'.expanded = s.expanded := by
  obtain ⟨reqs, hreqs⟩ := exists_requestsFor analyzers hr
  unfold expand
  refine .bind (.lift (fun reqs' hreqs' => ?_) fun cause hc => by rw [hreqs] at hc; cases hc)
  cases hreqs.symm.trans hreqs'
  refine (WP.forM (I := fun behind s' => Moves h options (Requested h analyzers) given s s' ∧
    (∀ req ∈ behind, s'.Performs options req) ∧ s'.expanded = s.expanded)
    (fun behind req ahead s₁ hsplit ⟨hm, hp, he⟩ => ?_) ⟨.refl, by simp, rfl⟩).mono
    fun _ s' ⟨hm, hp, he⟩ => ⟨hm, fun reqs' hreqs' req hreq => ?_, he⟩
  · have hmem : req ∈ reqs := hsplit ▸ List.mem_append_right _ List.mem_cons_self
    have hreq : Requested h analyzers req := ⟨ref, reqs, hreqs, hmem⟩
    refine (perform_spec (hm.indexed hi) hreq (hvalid reqs hreqs req hmem)).mono
      fun _ s₂ ⟨(hm₂ : Moves h options (Requested h analyzers) given s₁ s₂), hp₂, he₂⟩ => ?_
    refine ⟨hm.trans hm₂, fun req' hreq' => ?_, he₂.trans he⟩
    rcases List.mem_append.mp hreq' with hreq' | hreq'
    · exact hm₂.grows.performs (hp req' hreq')
    · rw [List.mem_singleton.mp hreq']; exact hp₂
  · cases hreqs.symm.trans hreqs'
    exact hp req hreq

/-- The objects of the agenda up to the cursor are expanded. -/
def State.Caught (s : State) (h : Heap) (options : Options) (analyzers : AnalyzerTable) : Prop :=
  ∀ i < s.expanded, ∀ ref, s.agenda.toList[i]? = some ref → s.Expands h options analyzers ref

/-- All objects of the agenda are expanded once the cursor is at its end. -/
theorem State.Caught.expands (hcaught : s.Caught h options analyzers)
    (hle : s.agenda.size ≤ s.expanded) :
    ∀ ref ∈ s.agenda.toList, s.Expands h options analyzers ref := fun ref hr => by
  obtain ⟨i, hget⟩ := List.mem_iff_getElem?.mp hr
  have hlt := (List.getElem?_eq_some_iff.mp hget).1
  rw [Array.length_toList] at hlt
  exact hcaught i (by omega) ref hget

/-- The cursor passes an object that is expanded. -/
theorem State.Caught.next (hcaught : s.Caught h options analyzers) (hg : Grows s s')
    (hx : s'.expanded = s.expanded + 1) {ref : ObjectRef}
    (href : s.agenda.toList[s.expanded]? = some ref) (he : s'.Expands h options analyzers ref) :
    s'.Caught h options analyzers := fun i hlt ref' hget => by
  obtain ⟨news, hnews⟩ := hg.agenda
  have hcursor := (List.getElem?_eq_some_iff.mp href).1
  rw [← hnews, List.getElem?_append_left (by omega)] at hget
  rcases Nat.lt_succ_iff_lt_or_eq.mp (hx ▸ hlt) with hlt | rfl
  · exact hg.expands (hcaught i hlt ref' hget)
  · cases href.symm.trans hget
    exact he

/-- Enough expansions leave no object of the agenda, and nothing to resolve. -/
theorem expandWithin_spec (hvalid : ∀ req, Requested h analyzers req → req.IsValid h ∨ E)
    {steps : Nat} (hi : Indexed h s) (hs : Sound s) (hd : s.Drained)
    (hcaught : s.Caught h options analyzers) (hsteps : h.size ≤ s.expanded + steps) :
    WP (expandWithin h options analyzers steps) E s fun _ s' =>
      Moves h options (Requested h analyzers) given s s' ∧ s'.Drained ∧
        ∀ ref ∈ s'.agenda.toList, s'.Expands h options analyzers ref := by
  induction steps generalizing s with
  | zero =>
    have hle := hi.agenda_size_le
    exact .pure ⟨.refl, hd, hcaught.expands (by omega)⟩
  | succ steps ih =>
    unfold expandWithin
    refine .bind (.get ?_)
    split
    · rename_i hnone
      exact .pure ⟨.refl, hd, hcaught.expands (Array.getElem?_eq_none_iff.mp hnone)⟩
    · rename_i ref href
      let s₁ : State := { s with expanded := s.expanded + 1 }
      have hm₁ : Moves h options (Requested h analyzers) given s s₁ := .single .expand
      have hi₁ := hm₁.indexed hi
      have href' : s.agenda.toList[s.expanded]? = some ref := by simpa using href
      obtain ⟨id, hid⟩ := hi.agenda ref (List.mem_of_getElem? href')
      have hr : h.has (.object ref) = true := hi.has _ (hi.lawful.mem_values hid)
      refine .bind (.modify (.bind ((expand_spec hi₁ hr fun reqs hreqs req hreq =>
        hvalid req ⟨ref, reqs, hreqs, hreq⟩).mono
        fun _ s₂ ⟨(hm₂ : Moves h options (Requested h analyzers) given s₁ s₂), he₂, hx₂⟩ => ?_)))
      have hm₃ : Moves h options (Requested h analyzers) given s s₂.drain :=
        hm₁.trans (hm₂.trans (.drainWithin _))
      have hx₃ : s₂.drain.expanded = s.expanded + 1 :=
        (eq_of_view State.records State.expanded (fun _ => rfl) (records_drain s₂)).trans hx₂
      have hcaught₃ := hcaught.next hm₃.grows hx₃ href' ((grows_drain s₂).expands he₂)
      refine (ih (hm₃.indexed hi) (hm₃.sound hs) (hm₂.sound (hm₁.sound hs)).drained_drain hcaught₃
        (by omega)).mono fun _ s₄ ⟨hm₄, hd₄, hall₄⟩ => ⟨hm₃.trans hm₄, hd₄, hall₄⟩

/-! ## A whole search -/

/-- The values held from the start. -/
def Given (held : List Value) (i : Identity) : Prop := i.toValue ∈ held

/-- A held value is a held node of a search, and on its agenda if it is an object. -/
def State.Holds (s : State) (i : Identity) : Prop :=
  ∃ id, s.interner.id? i = some id ∧ (⟨id, [], none, true⟩ : Resolution) ∈ s.log ∧
    ∀ ref, i = .object ref → ref ∈ s.agenda.toList

theorem Grows.holds (hg : Grows s s') {i : Identity} (hh : s.Holds i) : s'.Holds i := by
  obtain ⟨id, hid, hlog, hr⟩ := hh
  exact ⟨id, hg.ids hid, hg.log.subset hlog, fun ref he => hg.agenda.subset (hr ref he)⟩

/-- A value is held, while nothing but held nodes is resolved. -/
theorem hold_spec (hi : Indexed h s) (hlog : ∀ r ∈ s.log, r.edge? = none) {v : Value}
    (hv : h.isValid v = true ∨ E) (hgiven : ∀ i, Identity.ofValue v = .ok i → given i) :
    WP (hold h v) E s fun _ s' =>
      Moves h options asked given s s' ∧ (∀ r ∈ s'.log, r.edge? = none) ∧
        s'.expanded = s.expanded ∧
        ∀ i, Identity.ofValue v = .ok i → s'.Holds i := by
  unfold hold
  cases hov : Identity.ofValue v with
  | error violation => exact .pure ⟨.refl, hlog, rfl, fun i hi => nomatch hi⟩
  | ok i =>
    rw [Heap.isValid_of_ofValue hov] at hv
    refine .bind ((discover_spec hi hv).mono fun id s₁ ⟨hd, hi₁, hid, hr⟩ => .modify ?_)
    have hlog₁ : ∀ r ∈ s₁.log, r.edge? = none := by rw [← hd.frame]; exact hlog
    have hkeep : (s₁.keep id).log = s₁.log ++ [⟨id, [], none, true⟩] := by
      rw [State.keep, State.push_eq, State.log_pushAll]; rfl
    show Moves h options asked given s (s₁.keep id) ∧ (∀ r ∈ (s₁.keep id).log, _) ∧
      (s₁.keep id).expanded = _ ∧ ∀ i', _ → (s₁.keep id).Holds i'
    have hm : Moves h options asked given s (s₁.keep id) :=
      .trans (.single (.discover hd hi₁)) (.single (.hold (hgiven i hov) hid hlog₁))
    refine ⟨hm, ?_, ?_, ?_⟩
    · rw [hkeep]
      intro r hr
      rcases List.mem_append.mp hr with hr | hr
      · exact hlog₁ r hr
      · rw [List.mem_singleton.mp hr]
    · show s₁.expanded = _
      rw [← hd.frame]; rfl
    · rintro i' hi'
      cases hi'
      exact ⟨id, hid, by rw [hkeep]; exact List.mem_append_right _ (List.mem_singleton_self _), hr⟩

/-- The values held from the start are held, one after another. -/
theorem holdAll_spec {held : List Value} (hheld : ∀ v ∈ held, h.isValid v = true ∨ E) :
    WP (held.forM (hold h)) E {} fun _ s' =>
      Moves h options asked (Given held) {} s' ∧ s'.expanded = 0 ∧
        ∀ i, Given held i → s'.Holds i := by
  refine (WP.forM (I := fun behind s =>
    Moves h options asked (Given held) {} s ∧ (∀ r ∈ s.log, r.edge? = none) ∧
      s.expanded = 0 ∧ ∀ v ∈ behind, ∀ i, Identity.ofValue v = .ok i → s.Holds i) ?_ ?_).mono ?_
  · rintro behind v ahead s hsplit ⟨hm, hlog, hx, hh⟩
    have hv : v ∈ held := hsplit ▸ List.mem_append_right _ List.mem_cons_self
    have hgiven : ∀ i, Identity.ofValue v = .ok i → Given held i := fun i hi => by
      rw [Given, ← Identity.ofValue_eq_ok.mp hi]; exact hv
    have hspec : WP (hold h v) E s fun _ s' => Moves h options asked (Given held) s s' ∧ _ :=
      hold_spec (hm.indexed (.init h)) hlog (hheld v hv) hgiven
    refine hspec.mono ?_
    rintro _ s' ⟨hm', hlog', hx', hh'⟩
    refine ⟨hm.trans hm', hlog', hx'.trans hx, fun w hw => ?_⟩
    rcases List.mem_append.mp hw with hw | hw
    · exact fun i hi => hm'.grows.holds (hh w hw i hi)
    · rw [List.mem_singleton.mp hw]; exact hh'
  · exact ⟨.refl, by simp [State.log], rfl, by simp⟩
  · rintro _ s' ⟨hm, -, hx, hh⟩
    exact ⟨hm, hx, fun i hi => hh i.toValue hi i (Identity.ofValue_toValue i)⟩

/-- A search is a sequence of moves that holds the held values, expands all of
the agenda and leaves nothing to resolve. It fails only if it may. -/
theorem search_spec {target : Value} {held : List Value}
    (hvalid : ∀ req, Requested h analyzers req → req.IsValid h ∨ E)
    (htarget : (target.hasIdentity = true ∧ h.isValid target = true) ∨ E)
    (hheld : ∀ v ∈ held, h.isValid v = true ∨ E) :
    WP (search h options analyzers target held) E {} fun g s' =>
      Moves h options (Requested h analyzers) (Given held) {} s' ∧ s'.Drained ∧
        (∃ id, s'.interner.Names target id ∧ g = s'.graph id) ∧
        (∀ i, Given held i → s'.Holds i) ∧
        ∀ ref ∈ s'.agenda.toList, s'.Expands h options analyzers ref := by
  unfold search
  have hholds : WP (held.forM (hold h)) E {} fun _ s =>
      Moves h options (Requested h analyzers) (Given held) {} s ∧ _ := holdAll_spec hheld
  refine .bind (hholds.mono ?_)
  rintro _ s₁ ⟨hm₁, hx₁, hh₁⟩
  have hi₁ := hm₁.indexed (.init h)
  unfold identity
  cases hov : Identity.ofValue target with
  | error violation =>
    refine .bind (.throw (htarget.resolve_left fun ht => ?_))
    cases target <;> simp [Value.hasIdentity, Identity.ofValue] at ht hov
  | ok i =>
    have hhas : h.has i = true ∨ E := htarget.imp_left fun ht => by
      rw [← Heap.isValid_of_ofValue hov]; exact ht.2
    refine .bind (.pure (.bind ((register_spec hi₁ hhas).mono ?_)))
    rintro id s₂ ⟨hd₂, hi₂, hid₂⟩
    have hm₃ : Moves h options (Requested h analyzers) (Given held) {} s₂.drain :=
      hm₁.trans (.trans (.single (.discover hd₂ hi₂)) (.drainWithin _))
    have hs₂ := Moves.sound (.trans hm₁ (.single (.discover hd₂ hi₂))) .init
    have hx₃ : s₂.drain.expanded = 0 := by
      rw [eq_of_view State.records State.expanded (fun _ => rfl) (records_drain s₂), ← hd₂.frame]
      exact hx₁
    have hcaught : s₂.drain.Caught h options analyzers := fun i hlt => by omega
    have hexpands : WP (expandWithin h options analyzers h.size) E s₂.drain fun _ s' =>
        Moves h options (Requested h analyzers) (Given held) s₂.drain s' ∧ _ :=
      expandWithin_spec hvalid (hm₃.indexed (.init h)) (hm₃.sound .init) hs₂.drained_drain hcaught
        (Nat.le_add_left ..)
    refine .bind (.modify (.bind (hexpands.mono ?_)))
    rintro _ s₄ ⟨hm₄, hd₄, hall⟩
    refine .bind (.get (.pure ⟨hm₃.trans hm₄, hd₄, ?_, fun i hi => ?_, hall⟩))
    · exact ⟨id, ⟨i, hov, hm₄.grows.ids ((grows_drain s₂).ids hid₂)⟩, rfl⟩
    · exact ((hd₂.grows.trans (grows_drain s₂)).trans hm₄.grows).holds
        (hh₁ i hi)

end Search
end Retention
