import Mathlib.Data.Set.Function
import Mathlib.Order.Monotone.Basic
import Retention.Proofs.Heap.Renaming
import Retention.Proofs.Search.Echo
import Retention.Proofs.Search.Performing

/-!
# Two searches side by side

A heap and its image agree on what a search finds, but for a renaming
(`Mirror`). A search of the image mirrors a search of the heap: it knows the
same under the new names (`Mirror.Reflects`). The second search may pass over
references to primitives that the first records; what it records later then has
lower numbers.

* `Reflects.enter`, `Reflects.schedule`: both discover a value;
* `Reflects.number`, `Reflects.push`, `Reflects.carry`: both record a reference;
* `Reflects.drop`: only the first does.
-/

namespace Retention

/-- The value that another interner knows under a new name has the same id there. -/
theorem Interner.Lawful.id?_map {t t' : Interner} (ht : t.Lawful) (ht' : t'.Lawful)
    {f : Identity → Identity} (hkind : ∀ v, (f v).kind = v.kind)
    (hvalues : t'.values.toList = t.values.toList.map f) {v : Identity}
    (hinj : ∀ w ∈ t.values.toList, f w = f v → w = v) : t'.id? (f v) = t.id? v := by
  have hget : ∀ i : Nat, t'.values.toList[i]? = some (f v) ↔ t.values.toList[i]? = some v :=
    fun i => by
      rw [hvalues, List.getElem?_map, Option.map_eq_some_iff]
      constructor
      · rintro ⟨w, hw, hfw⟩
        rwa [hinj w (List.mem_of_getElem? hw) hfw] at hw
      · exact fun hv => ⟨v, hv, rfl⟩
  ext id
  rw [ht' (f v) id, ht v id, hget, hkind]

/-- The same reference under corresponding numbers. -/
structure Edge.Echoes (num : Nat → Nat → Prop) (e e' : Edge) : Prop where
  id : num e.id e'.id
  same : { e with id := 0 } = { e' with id := 0 }

/-- The same entry under corresponding numbers. -/
structure CollectionEntry.Echoes (num : Nat → Nat → Prop) (c c' : CollectionEntry) : Prop where
  id : num c.id c'.id
  same : { c with id := 0 } = { c' with id := 0 }

namespace Search

/-- A heap and its image, which agree but for a renaming on what a search finds
and on its target, and the options of a search of each. -/
structure Mirror where
  ρ : Renaming
  heap : Heap
  image : Heap
  options : Options
  options' : Options
  /-- What a search finds. -/
  Found : Identity → Prop
  target : Identity
  /-- Whether the second search passes over what the first records of primitives. -/
  drops : Bool
  strongOnly_eq : options'.strongOnly = options.strongOnly
  recordPrimitives_eq : options'.recordPrimitives = (options.recordPrimitives && !drops)
  injOn : Set.InjOn ρ.identity {i | Found i ∨ i = target}
  named : ∀ {i}, Found i ∨ i = target →
    ∃ name, builtinName heap i = .ok name ∧ builtinName image (ρ.identity i) = .ok name
  outlined : ∀ {ref}, Found (.object ref) → ∃ o o', heap.object ref = .ok o ∧
    image.object (ρ.objects ref) = .ok o' ∧ o'.outline = (ρ.object o).outline
  closed : ∀ {ref o i}, Found (.object ref) → heap.object ref = .ok o → o.RefersTo i.toValue →
    Found i
  weakMapKeys : ∀ {ref o}, Found (.object ref) → heap.object ref = .ok o →
    ∀ v ∈ o.kind.weakMapKeys, v.hasIdentity = true

namespace Mirror

variable (m : Mirror)

/-- What gets a node: what is found, and the target. -/
def Met (i : Identity) : Prop := m.Found i ∨ i = m.target

/-- A value is a primitive or is found. -/
def Finds (v : Value) : Prop := ∀ i, Identity.ofValue v = .ok i → m.Found i

/-- Whether both searches record a reference. -/
def keeps (e : Edge) : Bool := e.child.node?.isSome || !m.drops

/-- Numbers given out below `bound`, by a numbering of the first search. -/
def numbers (f : Nat → Nat) (bound a b : Nat) : Prop := b < bound ∧ f b = a

theorem numbers_mono {f : Nat → Nat} {bound bound' a b : Nat} (h : numbers f bound a b)
    (hle : bound ≤ bound') : numbers f bound' a b := ⟨h.1.trans_le hle, h.2⟩

/-- The numbers from `k` on are moved up by one. -/
def skip (f : Nat → Nat) (k n : Nat) : Nat := if n < k then f n else f n + 1

theorem numbers_skip {f : Nat → Nat} {k a b : Nat} (h : numbers f k a b) :
    numbers (skip f k) k a b := ⟨h.1, (if_pos h.1).trans h.2⟩

theorem strictMono_skip {f : Nat → Nat} (hf : StrictMono f) (k : Nat) : StrictMono (skip f k) :=
  fun a b hab => by
    have := hf hab
    unfold skip
    split <;> split <;> omega

/-- What two searches have recorded: the same under new names and numbers. -/
structure Parallel (f : Nat → Nat) (s t : State) : Prop where
  mono : StrictMono f
  same : m.drops = false → f = id
  left : Indexed m.heap s
  right : Indexed m.image t
  values : t.interner.values.toList = s.interner.values.toList.map m.ρ.identity
  met : ∀ i ∈ s.interner.values.toList, m.Met i
  agenda : t.agenda.toList = s.agenda.toList.map m.ρ.objects
  found : ∀ ref ∈ s.agenda.toList, m.Found (.object ref)
  nodes : s.nodes = t.nodes
  scheduled : s.scheduled = t.scheduled
  expanded : s.expanded = t.expanded
  next : ∀ n, f (t.nextEdge + n) = s.nextEdge + n
  recorded : ∀ parent kind child?, (child? = none → m.drops = false) →
    s.recorded.contains (parent, kind, child?) = t.recorded.contains (parent, kind, child?)
  edges : List.Forall₂ (Edge.Echoes (numbers f t.nextEdge)) (s.edges.toList.filter m.keeps)
    t.edges.toList
  entries : List.Forall₂ (CollectionEntry.Echoes (numbers f t.nextEdge)) s.entries.toList
    t.entries.toList

/-- Two searches know the same under new names and numbers. -/
structure Reflects (f : Nat → Nat) (s t : State) : Prop where
  parallel : m.Parallel f s t
  echoes : s.Echoes (numbers f t.nextEdge) t

/-- Two searches know the same under some numbering. -/
def InStep (s t : State) : Prop := ∃ f, m.Reflects f s t

variable {m} {f : Nat → Nat} {s s' t t' : State}

theorem inStep_init : m.InStep {} {} :=
  ⟨id, {
      mono := strictMono_id
      same := fun _ => rfl
      left := .init _
      right := .init _
      values := rfl
      met := by simp [Interner.empty]
      agenda := rfl
      found := by simp
      nodes := rfl
      scheduled := rfl
      expanded := rfl
      next := fun _ => rfl
      recorded := fun _ _ _ _ => rfl
      edges := .nil
      entries := .nil }, .init⟩

/-- What is recorded does not depend on what is known about liveness. -/
theorem Parallel.of_records (h : m.Parallel f s t) (hs : s'.records = s.records)
    (ht : t'.records = t.records) : m.Parallel f s' t' := by
  have hrecords : m.Parallel f s.records t.records :=
    { h with left := h.left.congr rfl, right := h.right.congr rfl }
  rw [← hs, ← ht] at hrecords
  exact { hrecords with left := h.left.of_records hs, right := h.right.of_records ht }

/-- What is known about liveness does not depend on what is recorded. -/
theorem echoes_of_liveness {num : Nat → Nat → Prop} (h : s.Echoes num t)
    (hs : s'.liveness = s.liveness) (ht : t'.liveness = t.liveness) : s'.Echoes num t' := by
  have hlive : s.liveness.Echoes num t.liveness :=
    { h with log := h.log, passages := h.passages }
  rw [← hs, ← ht] at hlive
  exact { hlive with log := hlive.log, passages := hlive.passages }

/-! ## Discovery -/

/-- Both searches give a value the same id. -/
theorem Parallel.id?_eq (h : m.Parallel f s t) {v : Identity} (hv : m.Met v) :
    t.interner.id? (m.ρ.identity v) = s.interner.id? v :=
  h.left.lawful.id?_map h.right.lawful m.ρ.kind_identity h.values fun w hw he =>
    m.injOn (h.met w hw) hv he

theorem Reflects.enter (h : m.Reflects f s t) {v : Identity} (hv : m.Met v)
    (hnew : s.interner.id? v = none) {builtin : String}
    (hname : builtinName m.heap v = .ok builtin)
    (hname' : builtinName m.image (m.ρ.identity v) = .ok builtin) :
    m.Reflects f (s.enter v builtin) (t.enter (m.ρ.identity v) builtin) := by
  obtain ⟨hp, he⟩ := h
  have hnew' : t.interner.id? (m.ρ.identity v) = none := (hp.id?_eq hv).trans hnew
  have hsize : t.interner.size = s.interner.size := by
    have := congrArg List.length hp.values
    rwa [List.length_map, Array.length_toList, Array.length_toList] at this
  have hleft := hp.left.enter (exists_builtinName.mp ⟨_, hname⟩) hnew builtin
  have hright := hp.right.enter (exists_builtinName.mp ⟨_, hname'⟩) hnew' builtin
  refine ⟨{ hp with left := hleft, right := hright, values := ?_, met := ?_, nodes := ?_ },
    echoes_of_liveness he rfl rfl⟩
  · unfold State.enter
    rw [Interner.intern_of_none hnew, Interner.intern_of_none hnew', Array.toList_push,
      Array.toList_push, hp.values, List.map_append]
    rfl
  · unfold State.enter
    rw [Interner.intern_of_none hnew, Array.toList_push]
    intro w hw
    rcases List.mem_append.mp hw with hw | hw
    · exact hp.met w hw
    · rw [List.mem_singleton.mp hw]
      exact hv
  · unfold State.enter
    rw [Interner.intern_of_none hnew, Interner.intern_of_none hnew', hp.nodes, hsize,
      m.ρ.kind_identity]

theorem Reflects.schedule (h : m.Reflects f s t) {ref : ObjectRef} {id : NodeId}
    (hid : s.interner.id? (.object ref) = some id) (hfound : m.Found (.object ref)) :
    m.Reflects f (s.schedule id ref) (t.schedule id (m.ρ.objects ref)) := by
  obtain ⟨hp, he⟩ := h
  have hid' : t.interner.id? (.object (m.ρ.objects ref)) = some id :=
    (hp.id?_eq (.inl hfound)).trans hid
  have hleft := (hp.left.schedule hid).1
  have hright := (hp.right.schedule hid').1
  unfold State.schedule at hleft hright ⊢
  rw [← hp.scheduled] at hright ⊢
  split
  · exact ⟨hp, he⟩
  · rename_i hnot
    rw [if_neg hnot] at hleft hright
    refine ⟨{ hp with
      left := hleft, right := hright, scheduled := rfl, agenda := ?_, found := ?_ },
      echoes_of_liveness he rfl rfl⟩
    · rw [Array.toList_push, Array.toList_push, hp.agenda, List.map_append]
      rfl
    · rw [Array.toList_push]
      intro ref' hr
      rcases List.mem_append.mp hr with hr | hr
      · exact hp.found ref' hr
      · rw [List.mem_singleton.mp hr]
        exact hfound

/-! ## References and entries -/

theorem Echoes.edge_mono {num num' : Nat → Nat → Prop} {es es' : List Edge}
    (h : List.Forall₂ (Edge.Echoes num) es es') (hnum : ∀ {a b}, num a b → num' a b) :
    List.Forall₂ (Edge.Echoes num') es es' := h.imp fun _ _ h => ⟨hnum h.id, h.same⟩

theorem Echoes.entry_mono {num num' : Nat → Nat → Prop} {cs cs' : List CollectionEntry}
    (h : List.Forall₂ (CollectionEntry.Echoes num) cs cs') (hnum : ∀ {a b}, num a b → num' a b) :
    List.Forall₂ (CollectionEntry.Echoes num') cs cs' := h.imp fun _ _ h => ⟨hnum h.id, h.same⟩

/-- Both searches give out a number. -/
theorem Reflects.number (h : m.Reflects f s t) :
    m.Reflects f { s with nextEdge := s.nextEdge + 1 } { t with nextEdge := t.nextEdge + 1 } ∧
      numbers f (t.nextEdge + 1) s.nextEdge t.nextEdge := by
  obtain ⟨hp, he⟩ := h
  have hmono : ∀ {a b}, numbers f t.nextEdge a b → numbers f (t.nextEdge + 1) a b := fun hab =>
    numbers_mono hab (Nat.le_succ _)
  refine ⟨⟨{ hp with
    left := hp.left.congr rfl
    right := hp.right.congr rfl
    next := fun n => ?_
    edges := Echoes.edge_mono hp.edges hmono
    entries := Echoes.entry_mono hp.entries hmono },
    echoes_of_liveness (he.mono hmono) rfl rfl⟩, Nat.lt_succ_self _, hp.next 0⟩
  show f (t.nextEdge + 1 + n) = s.nextEdge + 1 + n
  rw [Nat.add_assoc, hp.next, ← Nat.add_assoc]

/-- Both searches remember a reference. -/
theorem Reflects.mark (h : m.Reflects f s t) (key : NodeId × EdgeKind × Option NodeId) :
    m.Reflects f { s with recorded := s.recorded.insert key }
      { t with recorded := t.recorded.insert key } := by
  obtain ⟨hp, he⟩ := h
  refine ⟨{ hp with
    left := hp.left.congr rfl
    right := hp.right.congr rfl
    recorded := fun parent kind child? hkept => ?_ }, echoes_of_liveness he rfl rfl⟩
  show (s.recorded.insert key).contains _ = (t.recorded.insert key).contains _
  rw [Std.HashSet.contains_insert, Std.HashSet.contains_insert, hp.recorded parent kind child? hkept]

/-- Both searches record a reference. -/
theorem Reflects.push (h : m.Reflects f s t) {e e' : Edge} (hkeeps : m.keeps e = true)
    (hee' : e.Echoes (numbers f t.nextEdge) e') :
    m.Reflects f { s with edges := s.edges.push e } { t with edges := t.edges.push e' } := by
  obtain ⟨hp, he⟩ := h
  refine ⟨{ hp with left := hp.left.congr rfl, right := hp.right.congr rfl, edges := ?_ },
    echoes_of_liveness he rfl rfl⟩
  rw [Array.toList_push, Array.toList_push, List.filter_append, List.filter_singleton, hkeeps]
  exact rel_snoc hp.edges hee'

/-- Both searches record an entry. -/
theorem Reflects.pushEntry (h : m.Reflects f s t) {c c' : CollectionEntry}
    (hcc' : c.Echoes (numbers f t.nextEdge) c') :
    m.Reflects f { s with entries := s.entries.push c } { t with entries := t.entries.push c' } := by
  obtain ⟨hp, he⟩ := h
  refine ⟨{ hp with left := hp.left.congr rfl, right := hp.right.congr rfl, entries := ?_ },
    echoes_of_liveness he rfl rfl⟩
  rw [Array.toList_push, Array.toList_push]
  exact rel_snoc hp.entries hcc'

/-- In both searches liveness spreads along a new reference. -/
theorem Reflects.carry (h : m.Reflects f s t) (parent child : NodeId) (owners : List NodeId)
    (strength : Strength) {a b : Nat} (hab : numbers f t.nextEdge a b) :
    m.Reflects f (carry m.options parent child a owners strength s)
      (carry m.options' parent child b owners (m.ρ.strength strength) t) := by
  obtain ⟨hp, he⟩ := h
  have ht := records_carry m.options' parent child b owners (m.ρ.strength strength) t
  have hnext := eq_of_view State.records State.nextEdge (fun _ => rfl) ht
  refine ⟨hp.of_records (records_carry ..) ht, ?_⟩
  rw [hnext]
  cases strength with
  | strong => exact he.propagate parent ⟨rfl, hab, rfl⟩
  | weak =>
    unfold Search.carry Renaming.strength
    rw [m.strongOnly_eq]
    dsimp only
    split
    · exact he
    · exact he.propagate parent ⟨rfl, hab, rfl⟩
  | joint => exact he.trackJoint child owners hab

/-- Only the first search records a reference to a primitive: the numbers it
gives out from then on are higher. -/
theorem Reflects.drop (h : m.Reflects f s t) (hdrops : m.drops = true) {e : Edge}
    (he : e.child.node? = none) : m.Reflects (skip f t.nextEdge) (s.record e) t := by
  obtain ⟨hp, hlive⟩ := h
  refine ⟨{ hp with
    mono := strictMono_skip hp.mono _
    same := fun hkeeps => by rw [hdrops] at hkeeps; cases hkeeps
    left := hp.left.congr rfl
    next := fun n => ?_
    recorded := fun parent kind child? hkept => ?_
    edges := ?_
    entries := Echoes.entry_mono hp.entries numbers_skip },
    echoes_of_liveness (hlive.mono numbers_skip) rfl rfl⟩
  · have hskip : skip f t.nextEdge (t.nextEdge + n) = f (t.nextEdge + n) + 1 :=
      if_neg (by omega)
    show _ = s.nextEdge + 1 + n
    rw [hskip, hp.next]
    omega
  · have hne : ((e.parent, e.kind, e.child.node?) == (parent, kind, child?)) = false := by
      refine beq_eq_false_iff_ne.mpr fun heq => ?_
      have hnone : child? = none := (congrArg (·.2.2) heq).symm.trans he
      rw [hdrops] at hkept
      cases hkept hnone
    show (s.recorded.insert _).contains _ = _
    rw [Std.HashSet.contains_insert, hne, Bool.false_or, hp.recorded parent kind child? hkept]
  · have hdropped : m.keeps e = false := by rw [keeps, he, hdrops]; rfl
    show List.Forall₂ _ ((s.edges.push e).toList.filter m.keeps) _
    rw [Array.toList_push, List.filter_append, List.filter_singleton, hdropped]
    rw [show (bif false then [e] else []) = ([] : List Edge) from rfl, List.append_nil]
    exact Echoes.edge_mono hp.edges numbers_skip

end Mirror
end Search
end Retention
