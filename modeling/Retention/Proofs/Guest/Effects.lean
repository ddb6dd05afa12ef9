import Retention.Guest.Effect
import Retention.Proofs.Realm.Promises
import Retention.Proofs.Search.Analyzers

/-!
# Effects keep a realm consistent

An effect that is asked for with values that lead somewhere keeps a realm
consistent, and what it answers leads somewhere (`Keeps.effect`).

* `Effect.values`, `Answer.values`: what an effect is given, and what it answers.
-/

namespace Retention

variable {h : Heap}

/-! ## What effects are given and answer -/

/-- The symbol that keys by itself. -/
def PropertyKey.values : PropertyKey → List Value
  | .symbol ref => [.symbol ref]
  | .string _ => []

/-- The value that the host throws. -/
def HostOutcome.values : HostOutcome → List Value
  | .failed (.abrupt (.thrown v)) => [v]
  | _ => []

/-- The values that an effect is given. -/
def Effect.values : Effect → List Value
  | .newArray elements => elements
  | .newError prototype _ => [.object prototype]
  | .newFunction _ captures _ => captures.map Binding.value
  | .alloc prototype? kind => prototype?.toList.map .object ++ kind.stored
  | .chain _ prototype? => prototype?.toList.map .object
  | .get target key => target :: key.values
  | .set target key value | .heapSet target key value => .object target :: value :: key.values
  | .delete target key | .heapGet target key | .heapDelete target key | .ownProperty target key =>
    .object target :: key.values
  | .setGlobal _ value => [value]
  | .setCapture func _ value => [.object func, value]
  | .define ref property => .object ref :: property.stored
  | .ownKeys ref | .ownProperties ref | .arrayLength ref | .arrayElements ref
  | .setArrayLength ref _ | .prototypeOf ref | .contents ref | .deref ref | .proxyTarget ref
  | .markHandled ref | .promiseSlots ref | .createResolvingFunctions ref => [.object ref]
  | .setPrototype ref prototype? | .forcePrototype ref prototype? =>
    .object ref :: prototype?.toList.map .object
  | .inspect value | .describeSymbol value | .elementsOf value | .newWeakRef value
  | .newRegistry value | .promiseResolve value => [value]
  | .compare a b => [a, b]
  | .keyedSet _ ref key value => [.object ref, key, value]
  | .keyedGet _ ref value | .keyedHas _ ref value | .keyedDelete _ ref value | .setAdd _ ref value
  | .setHas _ ref value | .setDelete _ ref value | .unregister ref value
  | .resolvePromise ref value | .fulfillPromise ref value | .rejectPromise ref value =>
    [.object ref, value]
  | .register ref target held token? => .object ref :: target :: held :: token?.toList
  | .newProxy target handler => [target, handler]
  | .bind target this args => target :: this :: args
  | .promiseThen promise onFulfilled onRejected => [.object promise, onFulfilled, onRejected]
  | .promiseFromHost _ outcome => outcome.values
  | .newObject | .newSymbol _ | .symbolFor _ | .throwTypeError _ | .throwRangeError _
  | .getGlobal _ | .status | .installHostFunctions | .newHostFunction _ | .installGlobalFunction _
  | .hostFunction _ | .takeReports | .newKeyed _ | .newSet _ | .newPromise | .newCapability
  | .enqueue .. | .registerAnalyzer .. | .unregisterAnalyzer _ | .analyzers | .finalizeSearches => []

/-- An effect is given values that lead somewhere; internal slots that are given
as they are hold what they may. -/
structure Effect.IsValid (h : Heap) (e : Effect) : Prop where
  values : ∀ v ∈ e.values, h.isValid v = true
  kind : ∀ {prototype? kind}, e = .alloc prototype? kind → kind.Checked h

/-- The values in the contents of a collection or a registry. -/
def Contents.values : Contents → List Value
  | .entries es => es.flatMap fun e => [e.key, e.value]
  | .members values => values
  | .cells cs => cs.flatMap fun c => c.held :: c.target :: c.token?.toList

/-- The values that are answered. -/
def Answer.values : Answer → List Value
  | .value v => [v]
  | .several vs => vs
  | .object? ref? => ref?.toList.map .object
  | .keys ks => ks.flatMap PropertyKey.values
  | .property? p? => p?.toList.flatMap Property.stored
  | .properties ps => ps.flatMap Property.stored
  | .contents? c? => c?.toList.flatMap Contents.values
  | .promise slots => (ObjectKind.promise slots).stored
  | .vars vs => vs.map Prod.snd
  | .unit | .bool _ | .size _ | .inspection _ | .symbol? _ | .comparison .. | .status _
  | .hostFunction? _ | .reports _ | .kind? _ | .analyzers _ | .graph _ | .graph? _ | .results _ => []

/-- What is answered leads somewhere. -/
def Answer.IsValid (h : Heap) (a : Answer) : Prop := ∀ v ∈ a.values, h.isValid v = true

theorem Answer.isValid_of_values_eq_nil {a : Answer} (ha : a.values = []) : a.IsValid h := by
  intro v hv
  rw [ha] at hv
  cases hv

theorem Answer.isValid_value {v : Value} (hv : h.isValid v = true) : (value v).IsValid h := by
  intro u hu
  rw [List.mem_singleton.mp hu]
  exact hv

theorem Answer.isValid_object? {ref? : Option ObjectRef}
    (hv : ∀ ref ∈ ref?, h.isValid (.object ref) = true) : (object? ref?).IsValid h := by
  intro u hu
  obtain ⟨ref, href, rfl⟩ := List.mem_map.mp hu
  exact hv ref (Option.mem_toList.mp href)

theorem Answer.isValid_pair {pair : ObjectRef × ObjectRef}
    (hv : h.isValid (.object pair.1) = true ∧ h.isValid (.object pair.2) = true) :
    (several [.object pair.1, .object pair.2]).IsValid h := by
  intro u hu
  rcases List.mem_cons.mp hu with rfl | hu
  · exact hv.1
  · rw [List.mem_singleton.mp hu]
    exact hv.2

theorem Property.stored_eq (p : Property) : p.stored = p.key.values ++ [p.value] := by
  unfold stored PropertyKey.values
  cases p.key <;> rfl

theorem Property.isValid_of_values {key : PropertyKey} {value : Value}
    (hk : ∀ v ∈ key.values, h.isValid v = true) (hv : h.isValid value = true) :
    ∀ v ∈ ({ key, value } : Property).stored, h.isValid v = true := by
  intro v hmem
  rw [stored_eq, List.mem_append, List.mem_singleton] at hmem
  exact hmem.elim (hk v) fun heq => heq ▸ hv

theorem HostOutcome.isValid_of_values {outcome : HostOutcome}
    (ho : ∀ v ∈ outcome.values, h.isValid v = true) : outcome.IsValid h := by
  cases outcome with
  | completed value => trivial
  | failed failure =>
    cases failure with
    | abrupt cause =>
      cases cause with
      | thrown v => exact ho v List.mem_cons_self
      | _ => trivial
    | _ => trivial

/-- The contents that are shown are part of what is stored. -/
theorem ObjectKind.mem_stored_of_contents? {k : ObjectKind} {c : Contents} {v : Value}
    (hc : k.contents? = some c) (hv : v ∈ c.values) : v ∈ k.stored := by
  cases k with
  | map entries | weakMap entries | set values | weakSet values =>
    obtain rfl := Option.some.inj hc
    exact hv
  | finalizationRegistry callback cells =>
    obtain rfl := Option.some.inj hc
    exact List.mem_cons_of_mem _ hv
  | _ => cases hc

/-! ## Reading -/

namespace Heap

variable {ref : ObjectRef}

theorem isValid_of_symbol_eq_error {s : SymbolRef} {cause : Abrupt}
    (hs : h.symbol s = .error cause) : cause.IsValid h := by
  rw [eq_invalidHandle_of_symbol hs]
  trivial

theorem isValid_of_arrayLength_eq_error (hh : h.Consistent) {cause : Abrupt}
    (hl : h.arrayLength ref = .error cause) : cause.IsValid h := by
  unfold arrayLength at hl
  cases hg : h.get ref .length with
  | ok v =>
    rw [hg] at hl
    cases hl
  | error cause' =>
    rw [hg] at hl
    exact Except.error.inj hl ▸ hh.isValid_of_get_eq_error hg

/-- The elements of an array lead somewhere. -/
theorem Consistent.arrayElements (hh : h.Consistent) (ref : ObjectRef) :
    match h.arrayElements ref with
    | .ok vs => ∀ v ∈ vs, h.isValid v = true
    | .error cause => cause.IsValid h := by
  unfold Heap.arrayElements
  cases hl : h.arrayLength ref with
  | error cause => exact isValid_of_arrayLength_eq_error hh hl
  | ok length =>
    cases ho : h.object ref with
    | error cause => exact isValid_of_object_eq_error ho
    | ok o =>
      intro v hv
      obtain ⟨⟨i, p⟩, hp, hpv⟩ := List.mem_filterMap.mp hv
      simp only at hpv
      by_cases hi : i < length
      · rw [if_pos hi] at hpv
        obtain rfl := Option.some.inj hpv
        have hmem : p ∈ Properties.ordered o.properties :=
          List.mem_append_left _ (List.mem_append_left _ (List.mem_map_of_mem hp))
        exact (hh.objects ho).properties.valid p (Properties.mem_ordered.mp hmem) _
          (Property.mem_stored_iff.mpr (.inl rfl))
      · rw [if_neg hi] at hpv
        cases hpv

theorem isValid_of_acceptsPrototype_eq_error {steps : Nat} {p? : Option ObjectRef}
    {cause : Abrupt} (ha : h.acceptsPrototype ref steps p? = .error cause) : cause.IsValid h := by
  induction steps generalizing p? with
  | zero => cases p? <;> cases ha
  | succ steps ih =>
    cases p? with
    | none => cases ha
    | some p =>
      unfold acceptsPrototype at ha
      split at ha
      · cases ha
      · unfold prototype? at ha
        cases ho : h.object p with
        | error cause' =>
          rw [ho] at ha
          exact Except.error.inj ha ▸ isValid_of_object_eq_error ho
        | ok o =>
          rw [ho] at ha
          exact ih ha

end Heap

namespace Realm

theorem consistent_allocChain (length : Nat) {last? : Option ObjectRef} (hh : h.Consistent)
    (hp : ∀ p ∈ last?, h.isValid (.object p) = true) :
    h.Extends (allocChain length last? h).2 ∧ (allocChain length last? h).2.Consistent ∧
      ∀ p ∈ (allocChain length last? h).1,
        (allocChain length last? h).2.isValid (.object p) = true := by
  induction length generalizing last? h with
  | zero => exact ⟨.refl h, hh, hp⟩
  | succ length ih =>
    have hext := Heap.extends_alloc h last? .ordinary
    have hordinary : ObjectKind.ordinary.Consistent h :=
      ⟨fun v hv => absurd hv List.not_mem_nil, trivial⟩
    have hlast : ∀ p ∈ some (h.alloc last? .ordinary).1,
        (h.alloc last? .ordinary).2.isValid (.object p) = true := fun p hmem => by
      obtain rfl := Option.some.inj hmem
      exact Heap.isValid_object_iff.mpr ⟨_, Heap.object_alloc_self ..⟩
    obtain ⟨hext', hh', hp'⟩ := ih (hh.alloc hp hordinary) hlast
    exact ⟨hext.trans hext', hh', hp'⟩

/-- The elements of an array that is looked at. -/
theorem isValid_of_elements? {r : Realm} (hr : r.Consistent) {v : Value} {vs : List Value}
    (hvs : elements? r.heap v = some vs) : ∀ u ∈ vs, r.heap.isValid u = true := by
  simp only [elements?, Option.bind_eq_bind, Option.bind_eq_some_iff] at hvs
  obtain ⟨ref, -, k, -, hvs⟩ := hvs
  split at hvs
  · have helements := hr.heap.arrayElements ref
    cases ha : r.heap.arrayElements ref with
    | ok us =>
      rw [ha] at hvs helements
      exact Option.some.inj hvs ▸ helements
    | error cause =>
      rw [ha] at hvs
      cases hvs
  · cases hvs

namespace Keeps

variable {r : Realm} {ref : ObjectRef} (hr : r.Consistent)

include hr

theorem writePrototype {α : Type} {prototype? : Option ObjectRef} (ref : ObjectRef) (answer : α)
    (hp : ∀ p ∈ prototype?, r.heap.isValid (.object p) = true) :
    Keeps (Realm.changeHeap (·.update ref fun o => (answer, { o with prototype? }))) r
      fun _ _ => True := by
  refine (update hr (fun _ => rfl) fun {o} _ ho => ?_).mono fun _ _ _ _ _ => trivial
  exact ⟨hp, ho.properties, ho.kind⟩

/-- A change of prototype, unless it is refused. -/
theorem setPrototype {prototype? : Option ObjectRef}
    (hp : ∀ p ∈ prototype?, r.heap.isValid (.object p) = true) :
    Keeps (Realm.changeHeap (·.setPrototype ref prototype?)) r fun _ _ => True := by
  let accepts := r.heap.acceptsPrototype ref prototypeChainLimit prototype?
  by_cases ha : accepts = .ok true
  · have hset : r.heap.setPrototype ref prototype? =
        r.heap.update ref fun o => (true, { o with prototype? }) := by
      simp only [Heap.setPrototype, show r.heap.acceptsPrototype .. = .ok true from ha]
    refine (writePrototype hr ref true hp).congr ?_
    show ((r.heap.setPrototype ref prototype?).1,
      { r with heap := (r.heap.setPrototype ref prototype?).2 }) = _
    rw [hset]
    rfl
  · have hset : r.heap.setPrototype ref prototype? = (accepts, r.heap) := by
      unfold Heap.setPrototype
      split
      · exact absurd ‹_› ha
      · rfl
    refine changeHeap hr ?_ ?_ (fun _ _ => trivial) fun cause hc => ?_
    · rw [hset]
      exact .refl _
    · rw [hset]
      exact hr.heap
    · rw [hset] at hc ⊢
      exact Heap.isValid_of_acceptsPrototype_eq_error hc

/-! ## Effects -/

/-- A look at an object. -/
theorem object (ref : ObjectRef) :
    Keeps (Realm.readHeap (·.object ref)) r fun o r' => r' = r ∧ r.heap.object ref = .ok o :=
  readHeap hr fun _ => Heap.isValid_of_object_eq_error

theorem finalizeSearches : Keeps finalizeSearches r fun _ _ => True := by
  refine (getThe hr).bind ?_
  rintro _ r - - ⟨rfl, rfl⟩
  split
  · refine (throw hr (Q := fun _ _ => False) ?_).bind fun _ _ _ _ hfalse => hfalse.elim
    trivial
  · exact (modify (Q := fun _ _ => True) rfl ⟨hr.heap, hr.jobs, hr.hostWork, hr.unhandled⟩
      trivial).bind fun _ _ _ hr' _ => pure hr' trivial

omit hr in
theorem ofRef {m : RealmM ObjectRef}
    (hm : Keeps m r fun ref r' => r'.heap.isValid (.object ref) = true) :
    Keeps (Answer.ofRef <$> m) r fun a r' => a.IsValid r'.heap :=
  hm.map fun _ _ _ _ hv => Answer.isValid_value hv

omit hr in
theorem ofValue {m : RealmM Value} (hm : Keeps m r fun v r' => r'.heap.isValid v = true) :
    Keeps (Answer.value <$> m) r fun a r' => a.IsValid r'.heap :=
  hm.map fun _ _ _ _ hv => Answer.isValid_value hv

omit hr in
/-- An answer that has no values. -/
theorem ofPlain {α : Type} {m : RealmM α} {answer : α → Answer} {Q : α → Realm → Prop}
    (hm : Keeps m r Q) (hplain : ∀ a, (answer a).values = []) :
    Keeps (answer <$> m) r fun a r' => a.IsValid r'.heap :=
  hm.map fun a _ _ _ _ => Answer.isValid_of_values_eq_nil (hplain a)

omit hr in
theorem thenUnit {m : RealmM Unit} {Q : Unit → Realm → Prop} (hm : Keeps m r Q) :
    Keeps (do m; return Answer.unit) r fun a r' => a.IsValid r'.heap :=
  hm.bind fun _ _ _ hr' _ => pure hr' (Answer.isValid_of_values_eq_nil rfl)

/-- An answer about the realm that has no values. -/
theorem plain {a : Answer} (ha : a.values = []) :
    Keeps (Pure.pure a) r fun a r' => a.IsValid r'.heap :=
  pure hr (Answer.isValid_of_values_eq_nil ha)

/-- An effect that is given values that lead somewhere keeps the realm
consistent, and answers values that lead somewhere. -/
theorem effect {e : Effect} (he : e.IsValid r.heap) :
    Keeps e.run r fun a r' => a.IsValid r'.heap := by
  have hvalues := he.values
  cases e with
  -- allocation
  | newObject => exact ofRef (newObject hr)
  | newArray elements => exact ofRef (newArray hr hvalues)
  | newSymbol description? => exact (newSymbol hr _).map fun _ _ _ _ hv => Answer.isValid_value hv
  | symbolFor key => exact (symbolFor hr key).map fun _ _ _ _ hv => Answer.isValid_value hv
  | newError prototype message => exact ofRef (newError hr (hvalues _ List.mem_cons_self) message)
  | throwTypeError message => exact throwTypeError hr message
  | throwRangeError message => exact throwRangeError hr message
  | newFunction name captures code =>
    exact ofRef ((newFunction hr fun b hb => hvalues _ (List.mem_map_of_mem hb)).mono
      fun _ _ _ _ hb => Heap.isValid_of_builtin? hb)
  | alloc prototype? kind =>
    refine ofRef ((alloc hr (fun p hp => hvalues _ ?_)
      ⟨fun v hv => hvalues v (List.mem_append_right _ hv), he.kind rfl⟩).mono
      fun _ _ _ _ ho => Heap.isValid_object_iff.mpr ⟨_, ho⟩)
    exact List.mem_append_left _ (List.mem_map_of_mem (Option.mem_toList.mpr hp))
  | chain length prototype? =>
    obtain ⟨hext, hh, hlast⟩ := consistent_allocChain length hr.heap fun p hp =>
      hvalues _ (List.mem_map_of_mem (Option.mem_toList.mpr hp))
    refine (onHeap (Q := fun last? r' => ∀ p ∈ last?, r'.heap.isValid (.object p) = true) hr hext
      hh hlast).bind fun last? r' _ hr' hlast => pure hr' (Answer.isValid_value ?_)
    cases last? with
    | none => rfl
    | some p => exact hlast p rfl
  -- properties as guest code sees them
  | get target key => exact ofValue (get hr)
  | set target key value =>
    exact thenUnit (set hr (Property.isValid_of_values
      (fun v hv => hvalues v (by simp [Effect.values, hv])) (hvalues _ (by simp [Effect.values]))))
  | delete target key => exact thenUnit (delete hr key)
  | getGlobal name => exact ofValue (get hr)
  | setGlobal name value =>
    exact thenUnit (set hr (Property.isValid_of_string rfl (hvalues _ List.mem_cons_self)))
  | setCapture func index value =>
    exact thenUnit (setCapture hr (hvalues _ (by simp [Effect.values])))
  -- the heap
  | heapGet ref key =>
    have hget : Keeps (Realm.get (.object ref) key) r _ := get hr
    exact ofValue hget
  | heapSet ref key value =>
    exact ofPlain (update hr (fun _ => by simp) fun _ ho => ho.set (Property.isValid_of_values
      (fun v hv => hvalues v (by simp [Effect.values, hv]))
      (hvalues _ (by simp [Effect.values])))) fun _ => rfl
  | heapDelete ref key =>
    exact ofPlain (update hr (fun _ => by simp) fun _ ho => ho.delete key) fun _ => rfl
  | define ref property =>
    exact thenUnit (update hr (fun _ => by simp) fun _ ho => ho.define fun v hv =>
      hvalues v (List.mem_cons_of_mem _ hv))
  | ownKeys ref =>
    refine (object hr ref).bind ?_
    rintro o r - - ⟨rfl, ho⟩
    refine pure hr fun v hv => ?_
    simp only [Answer.values, List.mem_flatMap, List.mem_map] at hv
    obtain ⟨_, ⟨p, hp, rfl⟩, hv⟩ := hv
    refine (hr.heap.objects ho).properties.valid p (Properties.mem_ordered.mp hp) v ?_
    rw [Property.stored_eq]
    exact List.mem_append_left _ hv
  | ownProperties ref =>
    refine (object hr ref).bind ?_
    rintro o r - - ⟨rfl, ho⟩
    refine pure hr fun v hv => ?_
    obtain ⟨p, hp, hv⟩ := List.mem_flatMap.mp hv
    exact (hr.heap.objects ho).properties.valid p (Properties.mem_ordered.mp hp) v hv
  | ownProperty ref key =>
    refine (object hr ref).bind ?_
    rintro o r - - ⟨rfl, ho⟩
    refine pure hr fun v hv => ?_
    obtain ⟨p, hp, hv⟩ := List.mem_flatMap.mp hv
    exact (hr.heap.objects ho).properties.valid p
      (List.mem_of_find?_eq_some (Option.mem_toList.mp hp)) v hv
  | arrayLength ref =>
    exact ofPlain (readHeap hr fun _ => Heap.isValid_of_arrayLength_eq_error hr.heap)
      fun _ => rfl
  | arrayElements ref =>
    have helements := hr.heap.arrayElements ref
    refine (readHeap hr fun cause hc => by rwa [hc] at helements).map ?_
    rintro vs r - - ⟨rfl, hvs⟩
    rwa [hvs] at helements
  | setArrayLength ref length =>
    exact ofPlain (update hr (fun _ => by simp) fun _ ho => ho.setLength length) fun _ => rfl
  | prototypeOf ref =>
    refine (readObject hr ref Object.prototype?).map ?_
    rintro _ r - - ⟨rfl, o, ho, rfl⟩
    exact Answer.isValid_object? (hr.heap.objects ho).prototype
  | setPrototype ref prototype? =>
    exact ofPlain (setPrototype hr fun p hp => hvalues _ (List.mem_cons_of_mem _
      (List.mem_map_of_mem (Option.mem_toList.mpr hp)))) fun _ => rfl
  | forcePrototype ref prototype? =>
    exact thenUnit (writePrototype hr ref () fun p hp => hvalues _ (List.mem_cons_of_mem _
      (List.mem_map_of_mem (Option.mem_toList.mpr hp))))
  -- inspection
  | inspect value =>
    exact (getThe hr).bind fun _ _ _ hr' _ => plain hr' rfl
  | contents ref =>
    refine (kind hr ref).bind ?_
    rintro _ r - - ⟨rfl, o, ho, rfl⟩
    refine pure hr fun v hv => ?_
    obtain ⟨c, hc, hv⟩ := List.mem_flatMap.mp hv
    exact (hr.heap.objects ho).kind.valid v
      (ObjectKind.mem_stored_of_contents? (Option.mem_toList.mp hc) hv)
  | describeSymbol value =>
    cases value with
    | symbol s =>
      exact (readHeap hr fun _ => Heap.isValid_of_symbol_eq_error).bind fun _ _ _ hr' _ =>
        plain hr' rfl
    | _ => exact plain hr rfl
  | compare a b => exact plain hr rfl
  | status => exact (getThe hr).bind fun _ _ _ hr' _ => plain hr' rfl
  -- host functions
  | installHostFunctions => exact thenUnit (installHostFunctions hr)
  | newHostFunction f => exact ofRef (newHostFunction hr f)
  | installGlobalFunction f => exact ofRef (installGlobalFunction hr f)
  | hostFunction id => exact (getThe hr).bind fun _ _ _ hr' _ => plain hr' rfl
  | takeReports =>
    exact ofPlain (modifyGet (Q := fun _ _ => True) rfl
      ⟨hr.heap, hr.jobs, hr.hostWork, hr.unhandled⟩ trivial) fun _ => rfl
  | elementsOf value =>
    refine (getThe hr).bind ?_
    rintro _ r - - ⟨rfl, rfl⟩
    split
    · exact pure hr (isValid_of_elements? hr ‹_›)
    · exact plain hr rfl
  -- collections
  | newKeyed weak => exact ofRef (newKeyed hr weak)
  | keyedSet weak ref key value =>
    exact thenUnit (keyedSet hr (hvalues _ (by simp [Effect.values]))
      (hvalues _ (by simp [Effect.values])))
  | keyedGet weak ref key => exact ofValue (keyedGet hr weak ref key)
  | keyedHas weak ref key => exact ofPlain (keyedHas hr weak ref key) fun _ => rfl
  | keyedDelete weak ref key => exact ofPlain (keyedDelete hr weak ref key) fun _ => rfl
  | newSet weak => exact ofRef (newSet hr weak)
  | setAdd weak ref value => exact thenUnit (setAdd hr (hvalues _ (by simp [Effect.values])))
  | setHas weak ref value => exact ofPlain (setHas hr weak ref value) fun _ => rfl
  | setDelete weak ref value => exact ofPlain (setDelete hr weak ref value) fun _ => rfl
  -- weak references and registries
  | newWeakRef target => exact ofRef (newWeakRef hr target)
  | deref ref => exact ofValue (deref hr ref)
  | newRegistry callback => exact ofRef (newRegistry hr callback)
  | register ref target held token? =>
    exact thenUnit (register hr (hvalues _ (by simp [Effect.values])))
  | unregister ref token => exact ofPlain (unregister hr ref token) fun _ => rfl
  -- proxies and bound functions
  | newProxy target handler =>
    exact (newProxy hr (hvalues _ (by simp [Effect.values]))
      (hvalues _ (by simp [Effect.values]))).bind fun pair _ _ hr' hv => pure hr'
        (Answer.isValid_pair hv)
  | proxyTarget ref => exact (proxyTarget? hr ref).map fun _ _ _ _ hv => Answer.isValid_object? hv
  | bind target this args =>
    exact ofRef (bindFunction hr (hvalues _ (by simp [Effect.values])) fun v hv =>
      hvalues v (by simp [Effect.values, hv]))
  -- promises and jobs
  | newPromise =>
    exact ofRef ((newPromise hr).mono fun _ _ _ _ hb => Heap.isValid_of_builtin? hb)
  | newCapability =>
    exact (newCapability hr).bind fun triple _ _ hr' hv => pure hr' fun v hmem => by
      simp only [Answer.values, List.mem_cons, List.not_mem_nil, or_false] at hmem
      rcases hmem with rfl | rfl | rfl
      · exact hv.1
      · exact hv.2.1
      · exact hv.2.2
  | createResolvingFunctions promise =>
    exact (createResolvingFunctions hr (hvalues _ List.mem_cons_self)).bind
      fun pair _ _ hr' hv => pure hr' (Answer.isValid_pair hv)
  | promiseResolve value => exact ofRef (promiseResolve hr (hvalues _ List.mem_cons_self))
  | resolvePromise promise value =>
    exact thenUnit (resolvePromise hr (hvalues _ (by simp [Effect.values])))
  | fulfillPromise promise value =>
    exact thenUnit (settlePromise hr (hvalues value (by simp [Effect.values])))
  | rejectPromise promise reason =>
    exact thenUnit (settlePromise hr (hvalues reason (by simp [Effect.values])))
  | promiseThen promise onFulfilled onRejected =>
    exact ofRef (promiseThen hr promise onFulfilled onRejected)
  | markHandled promise => exact thenUnit (markHandled hr promise)
  | promiseSlots promise =>
    refine (promiseSlots hr promise).map ?_
    rintro slots r - - ⟨rfl, -, hslots⟩
    exact hslots.valid
  | promiseFromHost polls outcome =>
    exact ofRef (promiseFromHost hr (HostOutcome.isValid_of_values hvalues))
  | enqueue kind code => exact thenUnit (enqueue hr trivial)
  -- analyzers and searches
  | registerAnalyzer kind code | unregisterAnalyzer kind =>
    exact modifyGet rfl ⟨hr.heap, hr.jobs, hr.hostWork, hr.unhandled⟩
      (Answer.isValid_of_values_eq_nil rfl)
  | analyzers => exact (getThe hr).bind fun _ _ _ hr' _ => plain hr' rfl
  | finalizeSearches => exact ofPlain (finalizeSearches hr) fun _ => rfl

end Keeps
end Realm
end Retention
