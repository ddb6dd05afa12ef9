import Retention.Proofs.Search.Analyzers
import Retention.Proofs.Search.Lockstep
import Retention.Proofs.Search.Mirror

/-!
# Searches mirror each other

From states that reflect each other, a search of a heap and one of its image
take the same steps and come to states that do so again.

* `Reflects.discover`, `Reflects.describe`, `Reflects.ownerIds`: discovery;
* `Reflects.addEdge`, `Reflects.addEntry`, `Reflects.perform`: requests;
* `search_mirrored`: whole searches.
-/

namespace Retention.Search

variable {h : Heap} {s : State}

/-- To discover what is discovered changes nothing. -/
theorem wp_nodeFor_known (hi : Indexed h s) {v : Value} {id : NodeId}
    (hv : s.EndsAt v (some id)) : WP (nodeFor h v) False s fun _ s' => s' = s := by
  unfold State.EndsAt at hv
  unfold nodeFor identity
  cases hov : Identity.ofValue v with
  | error violation => rw [hov] at hv; cases hv
  | ok i =>
    rw [hov] at hv
    obtain ⟨id', -, hid, hr⟩ := hv
    refine .bind (.pure ?_)
    unfold discover register
    refine .bind (.bind (.get ?_))
    rw [hid]
    refine .pure ?_
    cases i with
    | object ref =>
      have hscheduled := (hi.scheduled id').mpr ⟨ref, hr ref rfl, hid⟩
      exact .bind (.modify (.pure (if_pos hscheduled)))
    | symbol ref =>
      exact WP.bind (E := False) (Q := fun _ s' => s' = s) (.pure (.pure rfl))

theorem wp_ownerIds_known (hi : Indexed h s) {strength : Strength}
    (ho : ∀ owners, strength = .joint owners → ∀ v ∈ owners, ∃ id, s.EndsAt v (some id)) :
    WP (ownerIds h strength) False s fun _ s' => s' = s := by
  unfold ownerIds
  cases strength with
  | strong | weak => exact .pure rfl
  | joint owners =>
    refine WP.mapM (I := fun _ _ s' => s' = s) (fun behind v ahead ids s₁ hsplit hs₁ => ?_) rfl
    subst hs₁
    have hmem : v ∈ owners := hsplit ▸ List.mem_append_right _ List.mem_cons_self
    obtain ⟨id, hid⟩ := ho owners rfl v hmem
    exact wp_nodeFor_known hi hid

namespace Mirror

variable {m : Mirror} {f : Nat → Nat} {s' s'' t t' t'' : State}

/-! ## Discovery -/

/-- Both searches discover values. -/
structure Meets (m : Mirror) (f : Nat → Nat) (s t s' t' : State) : Prop where
  reflects : m.Reflects f s' t'
  left : Discovers s s'
  right : Discovers t t'

theorem Meets.refl (h : m.Reflects f s t) : m.Meets f s t s t := ⟨h, .refl s, .refl t⟩

theorem Meets.trans (h : m.Meets f s t s' t') (h' : m.Meets f s' t' s'' t'') :
    m.Meets f s t s'' t'' :=
  ⟨h'.reflects, h.left.trans h'.left, h.right.trans h'.right⟩

theorem Meets.nextEdge_eq (h : m.Meets f s t s' t') :
    s'.nextEdge = s.nextEdge ∧ t'.nextEdge = t.nextEdge :=
  ⟨by rw [← h.left.frame]; rfl, by rw [← h.right.frame]; rfl⟩

theorem Reflects.register (h : m.Reflects f s t) {v : Identity} (hv : m.Met v) :
    Lockstep (register m.heap v) (register m.image (m.ρ.identity v)) s t fun id id' s' t' =>
      id = id' ∧ m.Meets f s t s' t' ∧ s'.interner.id? v = some id := by
  unfold Search.register
  refine .bind (.get ?_)
  rw [h.parallel.id?_eq hv]
  cases hid : s.interner.id? v with
  | some id => exact .pure ⟨rfl, .refl h, hid⟩
  | none =>
    obtain ⟨name, hname, hname'⟩ := m.named hv
    refine .bind (.lift (fun builtin hb => ⟨name, hname', .modifyGet ?_⟩) fun cause hc => ?_)
    · cases hname.symm.trans hb
      have henter := h.enter hv hid hname hname'
      have hkept : s.interner.intern v = _ := Interner.intern_of_none hid
      have hkept' : t.interner.intern (m.ρ.identity v) = _ :=
        Interner.intern_of_none ((h.parallel.id?_eq hv).trans hid)
      refine ⟨?_, ⟨henter, .enter v name, .enter (m.ρ.identity v) name⟩,
        Interner.id?_intern_self ..⟩
      have hsize := congrArg List.length h.parallel.values
      rw [List.length_map, Array.length_toList, Array.length_toList] at hsize
      rw [hkept, hkept', m.ρ.kind_identity]
      exact congrArg (NodeId.mk v.kind) hsize.symm
    · cases hname.symm.trans hc

theorem Reflects.discover (h : m.Reflects f s t) {v : Identity} (hv : m.Found v) :
    Lockstep (discover m.heap v) (discover m.image (m.ρ.identity v)) s t fun id id' s' t' =>
      id = id' ∧ m.Meets f s t s' t' := by
  unfold Search.discover
  refine .bind ((h.register (.inl hv)).mono ?_)
  rintro id _ s' t' ⟨rfl, hm, hid⟩
  cases v with
  | object ref =>
    exact .bind (.modify (.pure ⟨rfl, hm.trans
      ⟨hm.reflects.schedule hid hv, .schedule id ref, .schedule id _⟩⟩))
  | symbol ref => exact .bind (.pure (.pure ⟨rfl, hm⟩))

theorem Reflects.nodeFor (h : m.Reflects f s t) {v : Value} (hv : m.Finds v) :
    Lockstep (nodeFor m.heap v) (nodeFor m.image (m.ρ.value v)) s t fun id id' s' t' =>
      id = id' ∧ m.Meets f s t s' t' := by
  unfold Search.nodeFor identity
  rcases m.ρ.ofValue_value v with ⟨i, hi, hi'⟩ | ⟨violation, hv, hsame⟩
  · rw [hi, hi']
    exact .bind (.pure (h.discover (hv i hi)))
  · rw [hsame, hv]
    exact .bind (.throw _)

theorem Reflects.describe (h : m.Reflects f s t) {v : Value} (hv : m.Finds v) :
    Lockstep (describe m.heap v) (describe m.image (m.ρ.value v)) s t fun e e' s' t' =>
      e = e' ∧ m.Meets f s t s' t' ∧ e.node?.isSome = v.hasIdentity := by
  unfold Search.describe
  cases hov : Identity.ofValue v with
  | ok i =>
    cases Identity.ofValue_eq_ok.mp hov
    rw [← m.ρ.toValue_identity, Identity.ofValue_toValue]
    refine .bind ((h.discover (hv i hov)).mono ?_)
    rintro id _ s' t' ⟨rfl, hm⟩
    exact .pure ⟨rfl, hm, by cases i <;> rfl⟩
  | error violation =>
    have hprim : v.hasIdentity = false := by
      cases v <;> first | rfl | cases hov
    rw [m.ρ.value_of_primitive hprim, hov]
    exact .pure ⟨rfl, .refl h, hprim.symm⟩

theorem Reflects.ownerIds (h : m.Reflects f s t) {strength : Strength}
    (ho : ∀ owners, strength = .joint owners → ∀ v ∈ owners, m.Finds v) :
    Lockstep (ownerIds m.heap strength) (ownerIds m.image (m.ρ.strength strength)) s t
      fun ids ids' s' t' => ids = ids' ∧ m.Meets f s t s' t' := by
  unfold Search.ownerIds
  cases strength with
  | strong | weak => exact .pure ⟨rfl, .refl h⟩
  | joint owners =>
    have howners : List.Forall₂ (fun v v' => v ∈ owners ∧ v' = m.ρ.value v) owners
        (owners.map m.ρ.value) := by
      rw [List.forall₂_map_right_iff]
      exact List.forall₂_same.mpr fun v hv => ⟨hv, rfl⟩
    refine (Lockstep.mapM (I := m.Meets f s t) (W := Eq) howners ?_ (.refl h)).mono ?_
    · rintro v _ s₁ t₁ ⟨hv, rfl⟩ hm
      refine (hm.reflects.nodeFor (ho owners rfl v hv)).mono ?_
      rintro id _ s₂ t₂ ⟨rfl, hm'⟩
      exact ⟨rfl, hm.trans hm'⟩
    · rintro ids ids' s' t' ⟨hids, hm⟩
      exact ⟨List.forall₂_eq_eq_eq ▸ hids, hm⟩

/-! ## References -/

theorem Reflects.childNode (h : m.Reflects f s t) {child : Value} (hc : m.Finds child) :
    Lockstep (childNode m.heap child) (childNode m.image (m.ρ.value child)) s t
      fun child? child?' s' t' => child? = child?' ∧ m.Meets f s t s' t' := by
  unfold Search.childNode
  rcases m.ρ.ofValue_value child with ⟨i, hi, hi'⟩ | ⟨violation, hv, hsame⟩
  · rw [hi, hi']
    refine .map ((h.discover (hc i hi)).mono ?_)
    rintro id _ s' t' ⟨rfl, hm⟩
    exact ⟨rfl, hm⟩
  · rw [hsame, hv]
    exact .pure ⟨rfl, .refl h⟩

/-- The owners of a reference are found and known. -/
def Owned (m : Mirror) (s : State) (strength : Strength) : Prop :=
  ∀ owners, strength = .joint owners → ∀ v ∈ owners, m.Finds v ∧ ∃ id, s.EndsAt v (some id)

theorem Owned.grows {strength : Strength} (ho : m.Owned s strength) (hg : Grows s s') :
    m.Owned s' strength := fun owners he v hv => by
  obtain ⟨hfound, id, hid⟩ := ho owners he v hv
  exact ⟨hfound, id, hg.endsAt hid⟩

/-- Both searches record a reference. -/
theorem Reflects.addNew (h : m.Reflects f s t) (parentId : NodeId) (kind : EdgeKind)
    {child : Value} {strength : Strength} {childId? : Option NodeId} (hc : m.Finds child)
    (ho : m.Owned s strength) (hchild : childId?.isSome = child.hasIdentity)
    (hkeeps : childId? = none → m.drops = false) :
    Lockstep (addNew m.heap m.options parentId kind child strength childId?)
      (addNew m.image m.options' parentId kind (m.ρ.value child) (m.ρ.strength strength) childId?)
      s t fun _ _ => m.InStep := by
  unfold Search.addNew freshEdge
  refine .bind ((h.ownerIds fun owners he v hv => (ho owners he v hv).1).mono ?_)
  rintro owners _ s₁ t₁ ⟨rfl, hm₁⟩
  refine .bind (.modifyGet (.bind ?_))
  obtain ⟨h₂, hnumber⟩ := hm₁.reflects.number
  refine (h₂.describe hc).mono ?_
  rintro endpoint _ s₃ t₃ ⟨rfl, hm₃, hend⟩
  have hnumber₃ : numbers f t₃.nextEdge s₁.nextEdge t₁.nextEdge := by
    rw [hm₃.nextEdge_eq.2]; exact hnumber
  let e : Edge := ⟨s₁.nextEdge, parentId, endpoint, kind, strength != .weak, owners⟩
  have hee' : e.Echoes (numbers f t₃.nextEdge) { e with id := t₁.nextEdge } := ⟨hnumber₃, rfl⟩
  have hkept : m.keeps e = true := by
    rw [keeps, hend, ← hchild]
    cases childId? with
    | none => rw [hkeeps rfl]; rfl
    | some => rfl
  have hstrong : (m.ρ.strength strength != .weak) = (strength != .weak) := by
    cases strength <;> rfl
  rw [hstrong]
  refine .bind (.modify ?_)
  have h₄ := hm₃.reflects.push hkept hee'
  cases childId? with
  | none => exact .pure ⟨f, h₄⟩
  | some childId => exact .modify ⟨f, h₄.carry parentId childId owners strength hnumber₃⟩

/-- Only the first search records a reference to a primitive. -/
theorem Reflects.addBetween_left (h : m.Reflects f s t) (hdrops : m.drops = true)
    (parentId : NodeId) (kind : EdgeKind) {child : Value} {strength : Strength}
    (ho : m.Owned s strength) (hchild : child.hasIdentity = false) :
    WP (addBetween m.heap m.options parentId kind child strength none) False s
      fun _ s' => m.InStep s' t := by
  have hov : ∃ violation, Identity.ofValue child = .error violation := by
    cases child <;> first | exact ⟨_, rfl⟩ | cases hchild
  obtain ⟨violation, hov⟩ := hov
  unfold addBetween markRecorded
  split
  · exact .pure ⟨f, h⟩
  · refine .bind (.modifyGet ?_)
    by_cases hrec : s.recorded.contains (parentId, kind, none) = true
    · rw [if_pos hrec]
      exact .pure ⟨f, h⟩
    · rw [if_neg hrec]
      have hi : Indexed m.heap { s with recorded := s.recorded.insert (parentId, kind, none) } :=
        h.parallel.left.congr rfl
      unfold Search.addNew freshEdge
      refine .bind ((wp_ownerIds_known hi fun owners he v hv => (ho owners he v hv).2).mono ?_)
      rintro owners _ rfl
      refine .bind (.modifyGet (.bind ?_))
      unfold Search.describe
      rw [hov]
      exact .pure (.bind (.modify (.pure ⟨_, h.drop hdrops
        (e := ⟨s.nextEdge, parentId, .primitive .., kind, _, owners⟩) rfl⟩)))

theorem Reflects.addBetween (h : m.Reflects f s t) (parentId : NodeId) (kind : EdgeKind)
    {child : Value} {strength : Strength} {childId? : Option NodeId} (hc : m.Finds child)
    (ho : m.Owned s strength) (hchild : childId?.isSome = child.hasIdentity) :
    Lockstep (addBetween m.heap m.options parentId kind child strength childId?)
      (addBetween m.image m.options' parentId kind (m.ρ.value child) (m.ρ.strength strength)
        childId?) s t fun _ _ => m.InStep := by
  by_cases hkeeps : childId? = none → m.drops = false
  · have hskip : (childId?.isNone && !m.options'.recordPrimitives) =
        (childId?.isNone && !m.options.recordPrimitives) := by
      rw [m.recordPrimitives_eq]
      cases childId? with
      | none => rw [hkeeps rfl, Bool.not_false, Bool.and_true]
      | some => rfl
    unfold Search.addBetween markRecorded
    rw [hskip]
    split
    · exact .pure ⟨f, h⟩
    · refine .bind (.modifyGet ?_)
      rw [h.parallel.recorded parentId kind childId? hkeeps]
      split
      · exact .pure ⟨f, h⟩
      · exact (h.mark _).addNew parentId kind hc (fun owners he v hv => ho owners he v hv) hchild
          hkeeps
  · rw [Classical.not_imp] at hkeeps
    obtain ⟨rfl, hdrops⟩ := hkeeps
    rw [Bool.not_eq_false] at hdrops
    have hskips : Search.addBetween m.image m.options' parentId kind (m.ρ.value child)
        (m.ρ.strength strength) none = pure () := by
      unfold Search.addBetween
      rw [m.recordPrimitives_eq, hdrops, Bool.not_true, Bool.and_false]
      rfl
    rw [hskips]
    exact .wait_right (h.addBetween_left hdrops parentId kind ho hchild.symm)

theorem Reflects.addEdge (h : m.Reflects f s t) {parent : ObjectRef} (kind : EdgeKind)
    {child : Value} {strength : Strength} (hp : m.Found (.object parent)) (hc : m.Finds child)
    (ho : m.Owned s strength) :
    Lockstep (addEdge m.heap m.options parent kind child strength)
      (addEdge m.image m.options' (m.ρ.objects parent) kind (m.ρ.value child)
        (m.ρ.strength strength)) s t fun _ _ => m.InStep := by
  rw [addEdge_eq, addEdge_eq]
  refine .bind ((h.discover hp).mono ?_)
  rintro parentId _ s₁ t₁ ⟨rfl, hm₁⟩
  have hends : WP (Search.childNode m.heap child) True s₁ _ :=
    childNode_spec hm₁.reflects.parallel.left (.inr trivial)
  refine .bind (((hm₁.reflects.childNode hc).and_left hends).mono ?_)
  rintro childId? _ s₂ t₂ ⟨⟨rfl, hm₂⟩, -, -, hend⟩
  exact hm₂.reflects.addBetween parentId kind hc (ho.grows (hm₁.trans hm₂).left.grows)
    (isSome_of_endsAt hend)

/-! ## Requests -/

/-- What a request refers to is found. Only values of entries are owned jointly,
by the collection and the key. -/
def Admits (m : Mirror) : Request → Prop
  | .edge parent _ child strength =>
    m.Found (.object parent) ∧ m.Finds child ∧ ∀ owners, strength ≠ .joint owners
  | .entry collection _ key keyStrength value? =>
    m.Found (.object collection) ∧ m.Finds key ∧ (∀ owners, keyStrength ≠ .joint owners) ∧
      ∀ value strength, value? = some (value, strength) → m.Finds value ∧
        ∀ owners, strength = .joint owners →
          owners = [.object collection, key] ∧ key.hasIdentity = true
  | .symbolProperty parent symbol value =>
    m.Found (.object parent) ∧ m.Found (.symbol symbol) ∧ m.Finds value
  | .node _ | .noteOptions | .fail _ => False

theorem owned_of_not_joint {strength : Strength} (hs : ∀ owners, strength ≠ .joint owners) :
    m.Owned s strength := fun owners he => absurd he (hs owners)

theorem finds_object {ref : ObjectRef} (hf : m.Found (.object ref)) : m.Finds (.object ref) := by
  rintro i ⟨⟩
  exact hf

theorem finds_symbol {ref : SymbolRef} (hf : m.Found (.symbol ref)) : m.Finds (.symbol ref) := by
  rintro i ⟨⟩
  exact hf

theorem Reflects.describeValue (h : m.Reflects f s t) {value? : Option (Value × Strength)}
    (hv : ∀ value strength, value? = some (value, strength) → m.Finds value) :
    Lockstep (describeValue m.heap value?)
      (describeValue m.image (value?.map fun (value, strength) =>
        (m.ρ.value value, m.ρ.strength strength))) s t
      fun e? e?' s' t' => e? = e?' ∧ m.Meets f s t s' t' := by
  unfold Search.describeValue
  cases value? with
  | none => exact .pure ⟨rfl, .refl h⟩
  | some vs =>
    refine .map ((h.describe (hv vs.1 vs.2 rfl)).mono ?_)
    rintro e _ s' t' ⟨rfl, hm, -⟩
    exact ⟨rfl, hm⟩

/-- What is recorded of a reference is where its child ends, and nothing is lost. -/
theorem wp_addEdge (hi : Indexed h s) (options : Options) (parent : ObjectRef) (kind : EdgeKind)
    (child : Value) (strength : Strength) :
    WP (Search.addEdge h options parent kind child strength) True s fun _ s' =>
      Grows s s' ∧ ∃ child?, s'.EndsAt child child? := by
  have hadds : (Request.edge parent kind child strength).Adds s.interner parent kind child
      strength := .edge
  have hspec : WP (Search.addEdge h options parent kind child strength) True s fun _ s' =>
      Moves h options (fun _ => True) (fun _ => True) s s' ∧ _ :=
    addEdge_spec hi trivial hadds (.inr trivial) (.inr trivial) (.inr trivial)
  refine hspec.mono ?_
  rintro _ s' ⟨hm, ⟨-, child?, -, hend, -⟩, -⟩
  exact ⟨hm.grows, child?, hend⟩

theorem Reflects.addEntry (h : m.Reflects f s t) {collection : ObjectRef} (i : Nat) {key : Value}
    {keyStrength : Strength} {value? : Option (Value × Strength)}
    (ha : m.Admits (.entry collection i key keyStrength value?)) :
    Lockstep (addEntry m.heap m.options collection i key keyStrength value?)
      (addEntry m.image m.options' (m.ρ.objects collection) i (m.ρ.value key)
        (m.ρ.strength keyStrength) (value?.map fun (value, strength) =>
          (m.ρ.value value, m.ρ.strength strength))) s t fun _ _ => m.InStep := by
  obtain ⟨hcoll, hkey, hks, hvalue⟩ := ha
  rw [addEntry_eq, addEntry_eq]
  have hdiscover := discover_spec (E := True) h.parallel.left (v := .object collection)
    (.inr trivial)
  refine .bind (((h.discover hcoll).and_left hdiscover).mono ?_)
  rintro collectionId _ s₁ t₁ ⟨⟨rfl, hm₁⟩, -, -, hid₁, hr₁⟩
  have hends₁ : s₁.EndsAt (.object collection) (some collectionId) :=
    ⟨collectionId, rfl, hid₁, hr₁⟩
  refine .bind ((hm₁.reflects.describe hkey).mono ?_)
  rintro keyEnd _ s₂ t₂ ⟨rfl, hm₂, -⟩
  refine .bind ((hm₂.reflects.describeValue fun v st he => (hvalue v st he).1).mono ?_)
  rintro valueEnd? _ s₃ t₃ ⟨rfl, hm₃⟩
  unfold freshEdge
  refine .bind (.modifyGet (.bind (.modify ?_)))
  obtain ⟨h₄, hnumber⟩ := hm₃.reflects.number
  have hstrong : (m.ρ.strength keyStrength == .strong) = (keyStrength == .strong) := by
    cases keyStrength <;> rfl
  rw [hstrong]
  let c : CollectionEntry :=
    ⟨s₃.nextEdge, collectionId, i, keyEnd, keyStrength == .strong, valueEnd?⟩
  have hcc' : c.Echoes (numbers f (t₃.nextEdge + 1)) { c with id := t₃.nextEdge } := ⟨hnumber, rfl⟩
  have h₅ := h₄.pushEntry hcc'
  have hg₅ : Grows s₁ { s₃ with nextEdge := s₃.nextEdge + 1, entries := s₃.entries.push c } :=
    (hm₂.trans hm₃).left.grows.trans ⟨id, List.prefix_rfl, id, List.prefix_rfl⟩
  have hedge := wp_addEdge h₅.parallel.left m.options collection (.entryKey i) key keyStrength
  refine .bind (((h₅.addEdge (.entryKey i) hcoll hkey (owned_of_not_joint hks)).and_left
    hedge).mono ?_)
  rintro _ _ s₆ t₆ ⟨⟨f', h₆⟩, hg₆, child?, hends₆⟩
  cases value? with
  | none => exact .pure ⟨f', h₆⟩
  | some vs =>
    obtain ⟨value, strength⟩ := vs
    obtain ⟨hv, hjoint⟩ := hvalue value strength rfl
    refine h₆.addEdge (.entryValue i) hcoll hv fun owners he => ?_
    obtain ⟨rfl, hidentity⟩ := hjoint owners he
    have hsome := isSome_of_endsAt hends₆
    rw [hidentity, Option.isSome_iff_exists] at hsome
    obtain ⟨keyId, rfl⟩ := hsome
    simp only [List.mem_cons, List.not_mem_nil, or_false, forall_eq_or_imp, forall_eq]
    exact ⟨⟨finds_object hcoll, collectionId, (hg₅.trans hg₆).endsAt hends₁⟩,
      hkey, keyId, hends₆⟩

/-- A request that is admitted is done in both searches. -/
theorem Reflects.perform (h : m.Reflects f s t) {req : Request} (ha : m.Admits req) :
    Lockstep (perform m.heap m.options req) (perform m.image m.options' (m.ρ.request req)) s t
      fun _ _ => m.InStep := by
  cases req with
  | edge parent kind child strength =>
    exact h.addEdge kind ha.1 ha.2.1 (owned_of_not_joint ha.2.2)
  | entry collection i key keyStrength value? => exact h.addEntry i ha
  | symbolProperty parent symbol value =>
    obtain ⟨hp, hsymbol, hvalue⟩ := ha
    refine .bind ((h.nodeFor (finds_symbol hsymbol)).mono ?_)
    rintro id _ s₁ t₁ ⟨rfl, hm₁⟩
    have hstrong : ∀ {s}, m.Owned s .strong := owned_of_not_joint fun _ => nofun
    refine .bind ((hm₁.reflects.addEdge .symbolKey hp (finds_symbol hsymbol) hstrong).mono ?_)
    rintro _ _ s₂ t₂ ⟨f', h₂⟩
    exact h₂.addEdge (.symbolValue id) hp hvalue hstrong
  | node | noteOptions | fail => exact ha.elim

/-- What an object that is found asks for is admitted. -/
theorem admits_of_mem {ref : ObjectRef} {o : Object} {req : Request}
    (hf : m.Found (.object ref)) (ho : m.heap.object ref = .ok o)
    (hreq : req ∈ kindRequests ref o.kind ++ ownRequests ref o) : m.Admits req := by
  have hplain : req.isPlain = true := (List.mem_append.mp hreq).elim
    isPlain_of_mem_kindRequests isPlain_of_mem_ownRequests
  have href : req.isReference = true := (List.mem_append.mp hreq).elim
    isReference_of_mem_kindRequests isReference_of_mem_ownRequests
  have hasks : ∀ {t parent kind child strength}, req.Adds t parent kind child strength →
      m.Found (.object parent) ∧ m.Finds child ∧ ∀ owners, strength = .joint owners →
        ∃ key, owners = [.object parent, key] ∧ key.hasIdentity = true := fun ha => by
    have hasks := (List.mem_append.mp hreq).elim (asks_of_mem_kindRequests · ha)
      (asks_of_mem_ownRequests · ha)
    obtain rfl := hasks.parent
    refine ⟨hf, fun i hi => ?_, fun owners he => ?_⟩
    · refine m.closed hf ho ?_
      rw [← Identity.ofValue_eq_ok.mp hi]
      exact hasks.refers.refersTo
    · have hrefers := hasks.refers
      rw [he] at hrefers
      obtain ⟨key, howners, hj⟩ := hrefers
      exact ⟨key, howners, m.weakMapKeys hf ho _ hj.mem_stored.2.2⟩
  cases req with
  | edge parent kind child strength =>
    obtain ⟨hp, hc, -⟩ := hasks (t := .empty) .edge
    exact ⟨hp, hc, fun owners he => by rw [he] at hplain; cases hplain⟩
  | entry collection i key keyStrength value? =>
    obtain ⟨hp, hc, -⟩ := hasks (t := .empty) .entryKey
    rw [Request.isPlain, Bool.and_eq_true] at hplain
    have hks : ∀ owners, keyStrength ≠ .joint owners := fun owners he => by
      rw [he] at hplain
      cases hplain.1
    refine ⟨hp, hc, hks, ?_⟩
    rintro value strength rfl
    obtain ⟨-, hv, hjoint⟩ := hasks (t := .empty) .entryValue
    refine ⟨hv, fun owners he => ?_⟩
    obtain ⟨key', rfl, hidentity⟩ := hjoint owners he
    subst he
    have hkey : (Strength.joint [.object collection, key'] ==
        Strength.joint [.object collection, key]) = true := hplain.2
    cases beq_iff_eq.mp hkey
    exact ⟨rfl, hidentity⟩
  | symbolProperty parent symbol value =>
    obtain ⟨hp, hs, -⟩ := hasks (t := .empty) .symbolKey
    have hnamed : ((Interner.empty.intern (.symbol symbol)).2).Names (.symbol symbol) _ :=
      ⟨.symbol symbol, rfl, Interner.id?_intern_self ..⟩
    exact ⟨hp, hs _ rfl, (hasks (.symbolValue hnamed)).2.1⟩
  | node | noteOptions | fail => cases href

/-! ## Whole searches -/

/-- Both searches expand an object. -/
theorem InStep.expand (h : m.InStep s t) {ref : ObjectRef} (hf : m.Found (.object ref)) :
    Lockstep (expand m.heap m.options .builtin ref)
      (expand m.image m.options' .builtin (m.ρ.objects ref)) s t fun _ _ => m.InStep := by
  obtain ⟨o, o', ho, ho', houtline⟩ := m.outlined hf
  unfold Search.expand
  rw [requestsFor_builtin ho, requestsFor_builtin ho', requests_rename m.ρ ref houtline]
  refine .bind (.lift (fun reqs hreqs => ⟨_, rfl, ?_⟩) fun cause hc => nomatch hc)
  cases hreqs
  refine Lockstep.forM (V := fun req req' => m.Admits req ∧ req' = m.ρ.request req) ?_ ?_ h
  · rw [List.forall₂_map_right_iff]
    exact List.forall₂_same.mpr fun req hreq => ⟨admits_of_mem hf ho hreq, rfl⟩
  · rintro req _ s₁ t₁ ⟨ha, rfl⟩ ⟨f, h₁⟩
    exact h₁.perform ha

/-- In both searches liveness spreads as far as the references carry it. -/
theorem InStep.drain (h : m.InStep s t) (hs : Sound s) (ht : Sound t) :
    m.InStep s.drain t.drain := by
  obtain ⟨f, hp, he⟩ := h
  refine ⟨f, hp.of_records (records_drain s) (records_drain t), ?_⟩
  rw [eq_of_view State.records State.nextEdge (fun _ => rfl) (records_drain t)]
  exact he.drain hs.drained_drain ht.drained_drain

/-- Both searches go on to the next object. -/
theorem InStep.next (h : m.InStep s t) :
    m.InStep { s with expanded := s.expanded + 1 } { t with expanded := t.expanded + 1 } := by
  obtain ⟨f, hp, he⟩ := h
  refine ⟨f, { hp with
    left := hp.left.congr rfl
    right := hp.right.congr rfl
    expanded := congrArg (· + 1) hp.expanded }, echoes_of_liveness he rfl rfl⟩

/-- A search with nothing to expand stays where it is. -/
theorem exec_expandWithin_of_none {options : Options} {analyzers : AnalyzerTable}
    (hnone : s.agenda[s.expanded]? = none) (steps : Nat) :
    exec (expandWithin h options analyzers steps) s = (.ok (), s) := by
  cases steps with
  | zero => rfl
  | succ steps =>
    unfold expandWithin
    rw [exec_bind, exec_get]
    dsimp only
    rw [hnone]
    rfl

/-- The objects on the agendas are the same but for the renaming. -/
theorem InStep.agenda_getElem? (h : m.InStep s t) :
    t.agenda[t.expanded]? = s.agenda[s.expanded]?.map m.ρ.objects := by
  obtain ⟨f, hp, -⟩ := h
  rw [← Array.getElem?_toList, ← Array.getElem?_toList, hp.agenda, List.getElem?_map, hp.expanded]

theorem expandWithin_mirrored {steps steps' : Nat} (h : m.InStep s t) (hs : Sound s) (ht : Sound t)
    (hsteps : m.heap.size ≤ s.expanded + steps) (hsteps' : m.image.size ≤ t.expanded + steps') :
    Lockstep (expandWithin m.heap m.options .builtin steps)
      (expandWithin m.image m.options' .builtin steps') s t fun _ _ => m.InStep := by
  induction steps generalizing s t steps' with
  | zero =>
    obtain ⟨f, hp, -⟩ := id h
    have hnone : s.agenda[s.expanded]? = none := Array.getElem?_eq_none_iff.mpr
      (hp.left.agenda_size_le.trans hsteps)
    have hnone' : t.agenda[t.expanded]? = none := by rw [h.agenda_getElem?, hnone]; rfl
    exact .of_exec_eq rfl (exec_expandWithin_of_none hnone' steps') h
  | succ steps ih =>
    have hagenda := h.agenda_getElem?
    cases href : s.agenda[s.expanded]? with
    | none =>
      rw [href] at hagenda
      exact .of_exec_eq (exec_expandWithin_of_none href _) (exec_expandWithin_of_none hagenda _) h
    | some ref =>
      rw [href] at hagenda
      obtain ⟨f, hp, -⟩ := id h
      have hmem : ref ∈ s.agenda.toList := Array.mem_toList_iff.mpr (Array.mem_of_getElem? href)
      have hfound := hp.found ref hmem
      obtain ⟨o, o', ho, ho', -⟩ := m.outlined hfound
      cases steps' with
      | zero =>
        have hlt := (Array.getElem?_eq_some_iff.mp hagenda).1
        have hle := hp.right.agenda_size_le
        omega
      | succ steps' =>
        unfold expandWithin
        refine .bind (.get ?_)
        rw [href, hagenda]
        refine .bind (.modify (.bind ?_))
        have h₁ := h.next
        obtain ⟨f₁, hp₁, -⟩ := id h₁
        let s₁ : State := { s with expanded := s.expanded + 1 }
        let t₁ : State := { t with expanded := t.expanded + 1 }
        have hspec : WP (Search.expand m.heap m.options .builtin ref) True s₁ fun _ s' =>
            Moves m.heap m.options (Requested m.heap .builtin) (fun _ => True) s₁ s' ∧ _ :=
          expand_spec hp₁.left (Heap.has_object.mpr ⟨o, ho⟩) fun _ _ _ _ => .inr trivial
        have hspec' : WP (Search.expand m.image m.options' .builtin (m.ρ.objects ref)) True t₁
            fun _ t' => Moves m.image m.options' (Requested m.image .builtin) (fun _ => True) t₁ t' ∧
              _ :=
          expand_spec hp₁.right (Heap.has_object.mpr ⟨o', ho'⟩) fun _ _ _ _ => .inr trivial
        refine (((h₁.expand hfound).and_left hspec).and_right hspec').mono ?_
        rintro _ _ s₂ t₂ ⟨⟨h₂, hm, -, hx⟩, hm', -, hx'⟩
        have hs₁ : Sound s₁ := hs.of_liveness rfl rfl
        have ht₁ : Sound t₁ := ht.of_liveness rfl rfl
        have hs₂ := hm.sound hs₁
        have ht₂ := hm'.sound ht₁
        have hx₃ : s₂.drain.expanded = s.expanded + 1 :=
          (eq_of_view State.records State.expanded (fun _ => rfl) (records_drain s₂)).trans hx
        have hx₃' : t₂.drain.expanded = t.expanded + 1 :=
          (eq_of_view State.records State.expanded (fun _ => rfl) (records_drain t₂)).trans hx'
        refine .bind (.modify (ih (h₂.drain hs₂ ht₂) ?_ ?_ (by omega) (by omega)))
        · exact hs₂.drain
        · exact ht₂.drain

/-- Both searches hold a node. -/
theorem Reflects.keep (h : m.Reflects f s t) (id : NodeId) :
    m.Reflects f (s.keep id) (t.keep id) := by
  obtain ⟨hp, he⟩ := h
  refine ⟨{ hp with left := hp.left.keep id, right := hp.right.keep id, nodes := ?_ }, ?_⟩
  · exact congrArg (·.modify id.index fun n => { n with held := true }) hp.nodes
  · have hheld : Resolution.Echoes (numbers f t.nextEdge) ⟨id, [], none, true⟩
        ⟨id, [], none, true⟩ := ⟨rfl, rfl, .none, rfl⟩
    have hnodes : State.Echoes (numbers f t.nextEdge)
        { s with nodes := s.nodes.modify id.index fun n => { n with held := true } }
        { t with nodes := t.nodes.modify id.index fun n => { n with held := true } } :=
      echoes_of_liveness he rfl rfl
    unfold State.keep
    rw [State.push_eq, State.push_eq]
    exact hnodes.pushAll (.cons hheld .nil)

theorem InStep.hold (h : m.InStep s t) {v : Value} (hv : m.Finds v) :
    Lockstep (hold m.heap v) (hold m.image (m.ρ.value v)) s t fun _ _ => m.InStep := by
  obtain ⟨f, h⟩ := h
  unfold Search.hold
  rcases m.ρ.ofValue_value v with ⟨i, hi, hi'⟩ | ⟨violation, hv, hsame⟩
  · rw [hi, hi']
    refine .bind ((h.discover (hv i hi)).mono ?_)
    rintro id _ s' t' ⟨rfl, hm⟩
    exact .modify ⟨f, hm.reflects.keep id⟩
  · rw [hsame, hv]
    exact .pure ⟨f, h⟩

/-- A search of a heap and one of its image answer alike, or fail alike. -/
theorem search_mirrored {held : List Value} (hheld : ∀ v ∈ held, m.Finds v) :
    Lockstep (search m.heap m.options .builtin m.target.toValue held)
      (search m.image m.options' .builtin (m.ρ.value m.target.toValue) (held.map m.ρ.value)) {} {}
      fun g g' s t => m.InStep s t ∧ ∃ id, g = s.graph id ∧ g' = t.graph id := by
  unfold search
  have hholds : Lockstep (held.forM (Search.hold m.heap))
      ((held.map m.ρ.value).forM (Search.hold m.image)) {} {} fun _ _ => m.InStep := by
    refine Lockstep.forM (V := fun v v' => m.Finds v ∧ v' = m.ρ.value v) ?_ ?_ inStep_init
    · rw [List.forall₂_map_right_iff]
      exact List.forall₂_same.mpr fun v hv => ⟨hheld v hv, rfl⟩
    · rintro v _ s₁ t₁ ⟨hv, rfl⟩ h₁
      exact h₁.hold hv
  have hspec : ∀ (h : Heap) (options : Options) (held : List Value),
      WP (held.forM (Search.hold h)) True {} fun _ s =>
        Moves h options (Requested h .builtin) (Given held) {} s ∧ s.expanded = 0 :=
    fun h options held => (holdAll_spec fun _ _ => .inr trivial).mono fun _ _ hs => ⟨hs.1, hs.2.1⟩
  refine .bind (((hholds.and_left (hspec m.heap m.options held)).and_right
    (hspec m.image m.options' (held.map m.ρ.value))).mono ?_)
  rintro _ _ s₁ t₁ ⟨⟨⟨f, h₁⟩, hm₁, hx₁⟩, hm₁', hx₁'⟩
  unfold identity
  rw [← m.ρ.toValue_identity, Identity.ofValue_toValue, Identity.ofValue_toValue]
  refine .bind (.pure (.bind ((h₁.register (.inr rfl)).mono ?_)))
  rintro id _ s₂ t₂ ⟨rfl, ⟨h₂, hd, hd'⟩, -⟩
  have hs₂ : Sound s₂ := (Moves.trans hm₁ (.single (.discover hd h₂.parallel.left))).sound .init
  have ht₂ : Sound t₂ := (Moves.trans hm₁' (.single (.discover hd' h₂.parallel.right))).sound .init
  have hx₂ : s₂.drain.expanded = 0 := by
    rw [eq_of_view State.records State.expanded (fun _ => rfl) (records_drain s₂), ← hd.frame]
    exact hx₁
  have hx₂' : t₂.drain.expanded = 0 := by
    rw [eq_of_view State.records State.expanded (fun _ => rfl) (records_drain t₂), ← hd'.frame]
    exact hx₁'
  refine .bind (.modify (.bind ((expandWithin_mirrored (InStep.drain ⟨f, h₂⟩ hs₂ ht₂) hs₂.drain
    ht₂.drain (by omega) (by omega)).mono ?_)))
  rintro _ _ s₃ t₃ h₃
  exact .bind (.get (.pure ⟨h₃, id, rfl, rfl⟩))

end Mirror
end Retention.Search
