import Mathlib.Data.Set.Function
import Retention.Proofs.Heap.Discovered
import Retention.Proofs.Heap.Listing
import Retention.Search.Request

/-!
# Renaming

A renaming puts objects and symbols at other places. What an analyzer asks for
is told by the outline of an object (`Object.outline`), and is renamed with it
(`requests_rename`). Two heaps are alike on what some values lead to if a
renaming carries it from one to the other (`Renaming.Carries`).
-/

namespace Retention

/-- The items of a sequence, each changed by a function. -/
def Sequence.map {α β : Type} (f : α → β) (s : Sequence α) : Sequence β :=
  ⟨s.latestFirst.map f⟩

@[simp] theorem Sequence.toList_map {α β : Type} (f : α → β) (s : Sequence α) :
    (s.map f).toList = s.toList.map f := by
  simp [map, toList]

/-- New places for objects and symbols. -/
structure Renaming where
  objects : ObjectRef → ObjectRef
  symbols : SymbolRef → SymbolRef

namespace Renaming

/-- Everything stays where it is. -/
def none : Renaming := ⟨id, id⟩

variable (ρ : Renaming)

def identity : Identity → Identity
  | .object ref => .object (ρ.objects ref)
  | .symbol ref => .symbol (ρ.symbols ref)

def value : Value → Value
  | .object ref => .object (ρ.objects ref)
  | .symbol ref => .symbol (ρ.symbols ref)
  | v => v

def key : PropertyKey → PropertyKey
  | .string s => .string s
  | .symbol ref => .symbol (ρ.symbols ref)

def property (p : Property) : Property := { p with key := ρ.key p.key, value := ρ.value p.value }

def reaction (r : Reaction) : Reaction :=
  { handler? := r.handler?.map ρ.objects, derived? := r.derived?.map ρ.objects }

def cell (c : Cell) : Cell :=
  { target := ρ.value c.target, held := ρ.value c.held, token? := c.token?.map ρ.value }

def entry (e : KeyedEntry) : KeyedEntry := { key := ρ.value e.key, value := ρ.value e.value }

/-- The internal slots of an object. -/
def kind : ObjectKind → ObjectKind
  | .ordinary => .ordinary
  | .array => .array
  | .error => .error
  | .function name behaviour captures =>
    .function name behaviour (captures.map fun b => { b with value := ρ.value b.value })
  | .boundFunction target this args =>
    .boundFunction (ρ.objects target) (ρ.value this) (args.map ρ.value)
  | .proxyRevoker proxy? => .proxyRevoker (proxy?.map ρ.objects)
  | .proxy target? handler? => .proxy (target?.map ρ.objects) (handler?.map ρ.objects)
  | .weakRef target => .weakRef (ρ.value target)
  | .finalizationRegistry callback cells =>
    .finalizationRegistry (ρ.objects callback) (cells.map ρ.cell)
  | .map entries => .map (entries.map ρ.entry)
  | .set values => .set (values.map ρ.value)
  | .weakMap entries => .weakMap (entries.map ρ.entry)
  | .weakSet values => .weakSet (values.map ρ.value)
  | .promise p =>
    .promise
      { p with
        result := ρ.value p.result
        onFulfilled := p.onFulfilled.map ρ.reaction
        onRejected := p.onRejected.map ρ.reaction }

def object (o : Object) : Object :=
  { prototype? := o.prototype?.map ρ.objects
    properties := o.properties.map ρ.property
    kind := ρ.kind o.kind }

def strength : Strength → Strength
  | .strong => .strong
  | .weak => .weak
  | .joint owners => .joint (owners.map ρ.value)

def request : Request → Request
  | .edge parent kind child strength =>
    .edge (ρ.objects parent) kind (ρ.value child) (ρ.strength strength)
  | .entry collection index key keyStrength value? =>
    .entry (ρ.objects collection) index (ρ.value key) (ρ.strength keyStrength)
      (value?.map fun (value, strength) => (ρ.value value, ρ.strength strength))
  | .symbolProperty parent symbol value =>
    .symbolProperty (ρ.objects parent) (ρ.symbols symbol) (ρ.value value)
  | .node value => .node (ρ.value value)
  | .noteOptions => .noteOptions
  | .fail cause => .fail cause

@[simp] theorem toValue_identity (i : Identity) : (ρ.identity i).toValue = ρ.value i.toValue := by
  cases i <;> rfl

@[simp] theorem kind_identity (i : Identity) : (ρ.identity i).kind = i.kind := by cases i <;> rfl

/-- Primitives have no place. -/
theorem value_of_primitive {v : Value} (hv : v.hasIdentity = false) : ρ.value v = v := by
  cases v <;> first | rfl | cases hv

/-- A value has an identity wherever it is. -/
theorem ofValue_value (v : Value) :
    (∃ i, Identity.ofValue v = .ok i ∧ Identity.ofValue (ρ.value v) = .ok (ρ.identity i)) ∨
      ∃ cause, Identity.ofValue v = .error cause ∧ ρ.value v = v := by
  cases v with
  | object | symbol => exact .inl ⟨_, rfl, rfl⟩
  | _ => exact .inr ⟨_, rfl, rfl⟩

@[simp] theorem builtin_kind (k : ObjectKind) : (ρ.kind k).builtin = k.builtin := by
  cases k <;> rfl

/-! ### Everything stays where it is -/

@[simp] theorem objects_none : none.objects = id := rfl

@[simp] theorem symbols_none : none.symbols = id := rfl

@[simp] theorem identity_none (i : Identity) : none.identity i = i := by cases i <;> rfl

@[simp] theorem value_none : none.value = id := funext fun v => by cases v <;> rfl

@[simp] theorem property_none : none.property = id := funext fun p => by
  obtain ⟨key, _⟩ := p
  cases key <;> simp [property, Renaming.key]

@[simp] theorem reaction_none : none.reaction = id := funext fun r => by simp [reaction]

@[simp] theorem cell_none : none.cell = id := funext fun c => by simp [cell]

@[simp] theorem entry_none : none.entry = id := funext fun e => by simp [entry]

@[simp] theorem kind_none (k : ObjectKind) : none.kind k = k := by
  cases k <;> simp [kind, Sequence.map]

@[simp] theorem object_none (o : Object) : none.object o = o := by simp [object]

end Renaming

/-! ## Outlines -/

/-- A property without its attributes. -/
def Property.outline (p : Property) : Property := { key := p.key, value := p.value }

/-- Internal slots without what refers to nothing: the code of a function and
the state of a promise. -/
def ObjectKind.outline : ObjectKind → ObjectKind
  | .function _ _ captures => .function "" default captures
  | .promise p =>
    .promise { result := p.result, onFulfilled := p.onFulfilled, onRejected := p.onRejected }
  | kind => kind

/-- An object with nothing but its kind and what it refers to, in order: its
prototype, its properties and its internal slots. -/
def Object.outline (o : Object) : Object :=
  { prototype? := o.prototype?
    properties := o.properties.map Property.outline
    kind := o.kind.outline }

theorem ObjectKind.builtin_outline (k : ObjectKind) : k.outline.builtin = k.builtin := by
  cases k <;> rfl

section

variable (ρ : Renaming) (ref : ObjectRef)

theorem kindRequests_outline (k : ObjectKind) : kindRequests ref k.outline = kindRequests ref k := by
  cases k <;> rfl

/-- What analyzers ask for is told by the outline of an object. -/
theorem ownRequests_outline (o : Object) : ownRequests ref o.outline = ownRequests ref o := by
  rw [ownRequests, ownRequests]
  show _ ++ List.map _ (Properties.ordered (o.properties.map Property.outline)) = _
  have hordered : Properties.ordered (o.properties.map Property.outline) =
      (Properties.ordered o.properties).map Property.outline :=
    Properties.ordered_map Property.outline (fun _ => rfl) (fun _ => rfl) _
  rw [hordered, List.map_map]
  rfl

theorem slot?_rename (name : String) (child? : Option ObjectRef) :
    Request.slot? (ρ.objects ref) name (child?.map ρ.objects) =
      (Request.slot? ref name child?).map ρ.request := by
  cases child? <;> rfl

theorem numbered_map {α β : Type} (f : α → β) (items : List α) {requests : Nat → α → List Request}
    {requests' : Nat → β → List Request}
    (hf : ∀ i a, requests' i (f a) = (requests i a).map ρ.request) :
    numbered (items.map f) requests' = (numbered items requests).map ρ.request := by
  rw [numbered, numbered, List.zipIdx_map, List.flatMap_map, List.map_flatMap]
  exact congrArg (List.flatMap · items.zipIdx) (funext fun ip => hf ip.2 ip.1)

theorem reactionRequests_rename (list : String) (rs : Sequence Reaction) :
    reactionRequests (ρ.objects ref) list (rs.map ρ.reaction) =
      (reactionRequests ref list rs).map ρ.request := by
  rw [reactionRequests, Sequence.toList_map, reactionRequests]
  refine numbered_map ρ ρ.reaction _ fun i r => ?_
  rw [List.map_append, ← slot?_rename, ← slot?_rename]
  rfl

theorem kindRequests_rename (k : ObjectKind) :
    kindRequests (ρ.objects ref) (ρ.kind k) = (kindRequests ref k).map ρ.request := by
  cases k with
  | ordinary | array | error | weakRef => rfl
  | function name behaviour captures =>
    simp only [Renaming.kind, kindRequests, List.map_map]
    rfl
  | boundFunction target this args =>
    exact congrArg (_ :: _ :: ·) (numbered_map ρ ρ.value args fun _ _ => rfl)
  | proxyRevoker proxy? => exact slot?_rename ρ ref _ proxy?
  | proxy target? handler? =>
    simp only [Renaming.kind, kindRequests, slot?_rename, List.map_append]
  | finalizationRegistry callback cells =>
    have hcell : ∀ i c, cellRequests (ρ.objects ref) i (ρ.cell c) =
        (cellRequests ref i c).map ρ.request := fun i c => by
      simp only [cellRequests, Renaming.cell]
      cases c.token? <;> rfl
    simp only [Renaming.kind, kindRequests, Sequence.toList_map, numbered_map ρ ρ.cell _ hcell]
    rfl
  | map entries | weakMap entries =>
    simp only [Renaming.kind, kindRequests, Sequence.toList_map]
    exact numbered_map ρ ρ.entry _ fun _ _ => rfl
  | set values | weakSet values =>
    simp only [Renaming.kind, kindRequests, Sequence.toList_map]
    exact numbered_map ρ ρ.value _ fun _ _ => rfl
  | promise p =>
    simp only [Renaming.kind, kindRequests, reactionRequests_rename, ← List.map_append]
    rfl

theorem propertyRequest_rename (p : Property) :
    propertyRequest (ρ.objects ref) (ρ.property p) = ρ.request (propertyRequest ref p) := by
  rw [propertyRequest, propertyRequest, Renaming.property]
  cases p.key with
  | symbol => rfl
  | string name =>
    simp only [Renaming.key]
    cases arrayIndex? name <;> rfl

theorem ownRequests_rename (o : Object) :
    ownRequests (ρ.objects ref) (ρ.object o) = (ownRequests ref o).map ρ.request := by
  have hkey : ∀ p : Property, (ρ.property p).key.arrayIndex? = p.key.arrayIndex? ∧
      Properties.isSymbol (ρ.property p).key = Properties.isSymbol p.key := fun p => by
    unfold Renaming.property
    cases p.key <;> exact ⟨rfl, rfl⟩
  rw [ownRequests, ownRequests, List.map_append, ← slot?_rename, List.map_map]
  show _ ++ List.map _ (Properties.ordered (o.properties.map ρ.property)) = _
  rw [Properties.ordered_map ρ.property (fun p => (hkey p).1) fun p => (hkey p).2, List.map_map]
  exact congrArg _ (List.map_congr_left fun p _ => propertyRequest_rename ρ ref p)

/-- Objects with the same outline but for a renaming ask for the same but for it. -/
theorem requests_rename {o o' : Object} (ho : o'.outline = (ρ.object o).outline) :
    kindRequests (ρ.objects ref) o'.kind ++ ownRequests (ρ.objects ref) o' =
      (kindRequests ref o.kind ++ ownRequests ref o).map ρ.request := by
  have hkind : o'.kind.outline = (ρ.kind o.kind).outline := congrArg Object.kind ho
  rw [← kindRequests_outline, hkind, kindRequests_outline, kindRequests_rename,
    ← ownRequests_outline, ho, ownRequests_outline, ownRequests_rename, List.map_append]

end

/-- A renaming carries what values lead to in one heap to another: symbols to
symbols, objects to objects with the same outline but for the renaming, and no
two to one place. -/
structure Renaming.Carries (ρ : Renaming) (h h' : Heap) (roots : List Value) : Prop where
  injOn : Set.InjOn ρ.identity {i | h.Discovered roots i}
  symbols : ∀ {ref}, h.Discovered roots (.symbol ref) → h'.has (.symbol (ρ.symbols ref)) = true
  objects : ∀ {ref o}, h.Discovered roots (.object ref) → h.object ref = .ok o →
    ∃ o', h'.object (ρ.objects ref) = .ok o' ∧ o'.outline = (ρ.object o).outline

theorem Renaming.Carries.none {h : Heap} (hw : h.WellFormed) {roots : List Value}
    (hroots : ∀ v ∈ roots, h.isValid v = true) : Renaming.none.Carries h h roots where
  injOn := fun i _ j _ hij => by simpa using hij
  symbols := hw.has_of_discovered hroots
  objects := fun _ ho => ⟨_, ho, by rw [object_none]⟩

end Retention
