import Retention.Proofs.Realm.Keeping

/-!
# Objects and properties

Allocations, the errors that guest code can catch, and the operations on
properties keep a realm consistent, and what they answer leads somewhere.

* `Keeps.kind`, `Keeps.setKind`, `Keeps.alloc`: internal slots.
* `Keeps.throwTypeError`, `Keeps.throwRangeError`: guest errors.
* `Keeps.get`, `Keeps.set`, `Keeps.delete`, `Keeps.setCapture`: properties.
-/

namespace Retention

/-! ## Reading -/

namespace Heap

variable {h : Heap} {ref : ObjectRef} {key : PropertyKey}

/-- A walk along prototypes throws nothing, and finds what leads somewhere. -/
theorem Consistent.getWithin (hh : h.Consistent) (key : PropertyKey) (steps : Nat)
    (ref? : Option ObjectRef) :
    match h.getWithin key steps ref? with
    | .ok v => h.isValid v = true
    | .error cause => cause.IsValid h := by
  induction steps generalizing ref? with
  | zero => rfl
  | succ steps ih =>
    cases ref? with
    | none => rfl
    | some ref =>
      rw [Heap.getWithin]
      cases ho : h.object ref with
      | error cause => exact isValid_of_object_eq_error ho
      | ok o =>
        simp only [bind, Except.bind]
        cases hp : o.own? key with
        | none => exact ih o.prototype?
        | some p =>
          exact (hh.objects ho).properties.valid p (List.mem_of_find?_eq_some hp) _
            (Property.mem_stored_iff.mpr (.inl rfl))

theorem Consistent.isValid_get (hh : h.Consistent) {v : Value} (hv : h.get ref key = .ok v) :
    h.isValid v = true := by
  have hget := hh.getWithin key prototypeChainLimit (some ref)
  rw [get] at hv
  rwa [hv] at hget

theorem Consistent.isValid_of_get_eq_error (hh : h.Consistent) {cause : Abrupt}
    (hv : h.get ref key = .error cause) : cause.IsValid h := by
  have hget := hh.getWithin key prototypeChainLimit (some ref)
  rw [get] at hv
  rwa [hv] at hget

end Heap

namespace Realm.Keeps

variable {α : Type} {r : Realm} {ref : ObjectRef} {Q : α → Realm → Prop} (hr : r.Consistent)

include hr

/-- A look at an object. -/
theorem readObject (ref : ObjectRef) (f : Object → α) :
    Keeps (Realm.readHeap fun h => do return f (← h.object ref)) r fun a r' =>
      r' = r ∧ ∃ o, r.heap.object ref = .ok o ∧ f o = a := by
  have hread : ∀ outcome, (do return f (← r.heap.object ref) : Except Abrupt α) = outcome →
      match outcome with
      | .ok a => ∃ o, r.heap.object ref = .ok o ∧ f o = a
      | .error cause => cause.IsValid r.heap := by
    rintro _ rfl
    cases ho : r.heap.object ref with
    | ok o => exact ⟨o, rfl, rfl⟩
    | error cause => exact Heap.isValid_of_object_eq_error ho
  exact (readHeap hr fun cause hfail => hread _ hfail).mono fun a r' _ _ ⟨heq, ha⟩ =>
    ⟨heq, hread _ ha⟩

theorem kind (ref : ObjectRef) :
    Keeps (kind ref) r fun k r' => r' = r ∧ ∃ o, r.heap.object ref = .ok o ∧ o.kind = k :=
  readObject hr ref Object.kind

/-! ## Allocation -/

/-- Other slots of the same kind. -/
theorem setKind {k : ObjectKind} (hbuiltin : r.heap.builtin? ref = some k.builtin)
    (hk : k.Consistent r.heap) : Keeps (setKind ref k) r fun _ _ => True := by
  refine (update hr (fun {o} ho => ?_) fun _ ho => ?_).mono fun _ _ _ _ _ => trivial
  · rw [Heap.builtin?_of_object ho] at hbuiltin
    exact (Option.some.inj hbuiltin).symm
  · exact ⟨ho.prototype, ho.properties, hk⟩

theorem alloc {prototype? : Option ObjectRef} {k : ObjectKind}
    (hp : ∀ p ∈ prototype?, r.heap.isValid (.object p) = true) (hk : k.Consistent r.heap) :
    Keeps (alloc prototype? k) r fun ref r' => r'.heap.object ref = .ok { prototype?, kind := k } :=
  onHeap hr (Heap.extends_alloc ..) (hr.heap.alloc hp hk) (Heap.object_alloc_self ..)

theorem allocOf {i : Intrinsic} {k : ObjectKind} (hk : k.Consistent r.heap) :
    Keeps (allocOf i k) r fun ref r' =>
      r'.heap.object ref = .ok { prototype? := some i.ref, kind := k } :=
  alloc hr (fun _ hp => Option.some.inj hp ▸ hr.heap.intrinsics i) hk

theorem newObject :
    Keeps newObject r fun ref r' => r'.heap.isValid (.object ref) = true :=
  (allocOf hr (k := .ordinary) ⟨by simp [ObjectKind.stored], trivial⟩).mono fun _ _ _ _ ho =>
    Heap.isValid_object_iff.mpr ⟨_, ho⟩

theorem newArray {elements : List Value} (hv : ∀ v ∈ elements, r.heap.isValid v = true) :
    Keeps (newArray elements) r fun ref r' => r'.heap.isValid (.object ref) = true := by
  refine (allocOf hr (k := .array) ⟨by simp [ObjectKind.stored], trivial⟩).bind
    fun ref r' hext hr' ho => ?_
  refine (update hr' (fun _ => by simp) fun _ ho' => ?_).mono ?_
  · exact ho'.arrayOf fun v hv' => hext.isValid (hv v hv')
  · rintro _ r'' hext' hr'' ⟨o, -, rfl⟩
    exact hext'.isValid (Heap.isValid_object_iff.mpr ⟨_, ho⟩)

theorem newSymbol (description? : Option String) :
    Keeps (newSymbol description?) r fun s r' => r'.heap.isValid (.symbol s) = true :=
  onHeap hr (Heap.extends_allocSymbol ..) (hr.heap.allocSymbol ..)
    (Heap.isValid_symbol_iff.mpr ⟨{ description?, registered := false }, by
      simp [Heap.symbol, Heap.allocSymbol, Heap.size]⟩)

theorem symbolFor (key : String) :
    Keeps (symbolFor key) r fun s r' => r'.heap.isValid (.symbol s) = true :=
  onHeap hr (Heap.extends_symbolFor ..) (hr.heap.symbolFor key) (hr.heap.isValid_symbolFor key)

theorem newFunction {name : String} {captures : List Binding} {behaviour : Behaviour}
    (hc : ∀ b ∈ captures, r.heap.isValid b.value = true) :
    Keeps (newFunction name captures behaviour) r fun ref r' =>
      r'.heap.builtin? ref = some .function := by
  refine (allocOf hr (k := .function name behaviour captures) ⟨fun v hv => ?_, trivial⟩).mono
    fun _ _ _ _ ho => Heap.builtin?_of_object ho
  obtain ⟨b, hb, rfl⟩ := List.mem_map.mp hv
  exact hc b hb

/-! ## Errors -/

theorem newError {prototype : ObjectRef} (hp : r.heap.isValid (.object prototype) = true)
    (message : String) :
    Keeps (newError prototype message) r fun ref r' => r'.heap.isValid (.object ref) = true := by
  have hproto : ∀ p ∈ some prototype, r.heap.isValid (.object p) = true :=
    fun p hmem => Option.some.inj hmem ▸ hp
  refine (alloc hr hproto (k := .error) ⟨by simp [ObjectKind.stored], trivial⟩).bind
    fun ref r' hext hr' ho => ?_
  refine (update hr' (fun _ => rfl) fun {o} ho' hc => ?_).mono ?_
  · -- the message is the first property of the new object
    rw [ho] at ho'
    obtain rfl := Except.ok.inj ho'
    exact hc.withProperties (Properties.Consistent.nil.append
      (Property.isValid_of_string rfl rfl) List.not_mem_nil)
  · rintro _ r'' hext' hr'' ⟨o, -, rfl⟩
    exact hext'.isValid (Heap.isValid_object_iff.mpr ⟨_, ho⟩)

theorem throwTypeError (message : String) : Keeps (throwTypeError message) r Q :=
  (newError hr (hr.heap.intrinsics .typeError) message).bind fun _ _ _ hr' hv => throw hr' hv

theorem throwRangeError (message : String) : Keeps (throwRangeError message) r Q :=
  (newError hr (hr.heap.intrinsics .rangeError) message).bind fun _ _ _ hr' hv => throw hr' hv

/-! ## Properties -/

theorem get {target : Value} {key : PropertyKey} :
    Keeps (get target key) r fun v r' => r'.heap.isValid v = true := by
  unfold Realm.get
  split
  · refine (readHeap hr fun cause => hr.heap.isValid_of_get_eq_error).mono ?_
    rintro v _ - - ⟨rfl, hv⟩
    exact hr.heap.isValid_get hv
  · exact throwTypeError hr _
  · exact throwTypeError hr _
  · exact pure hr rfl

/-- A change of an object that may be refused, which throws. -/
theorem changeOrThrow {change : Object → Bool × Object} {message : String}
    (hkind : ∀ o, (change o).2.kind = o.kind)
    (hchange : ∀ {o : Object}, o.Consistent r.heap → (change o).2.Consistent r.heap) :
    Keeps (do if !(← Realm.changeHeap (·.update ref change)) then Realm.throwTypeError message) r
      fun _ _ => True := by
  refine (update hr (fun {o} _ => by rw [hkind]) fun _ => hchange).bind fun b r' _ hr' _ => ?_
  split
  · exact throwTypeError hr' message
  · exact pure hr' trivial

theorem set {key : PropertyKey} {value : Value}
    (hk : ∀ v ∈ ({ key, value } : Property).stored, r.heap.isValid v = true) :
    Keeps (set ref key value) r fun _ _ => True := by
  unfold Realm.set
  refine (kind hr ref).bind ?_
  rintro k _ - - ⟨rfl, -⟩
  split
  · exact (throwRangeError hr (Q := fun _ _ => False) _).bind fun _ _ _ _ hfalse => hfalse.elim
  · exact changeOrThrow hr (fun o => o.kind_set key value) fun ho => ho.set hk

theorem delete (key : PropertyKey) : Keeps (delete ref key) r fun _ _ => True :=
  changeOrThrow hr (fun o => o.kind_delete key) fun ho => ho.delete key

theorem setCapture {index : Nat} {value : Value} (hv : r.heap.isValid value = true) :
    Keeps (setCapture ref index value) r fun _ _ => True := by
  unfold Realm.setCapture
  refine (kind hr ref).bind ?_
  rintro k _ - - ⟨rfl, o, ho, rfl⟩
  split
  · rename_i name behaviour captures hk
    have hc := (hr.heap.objects ho).kind
    rw [hk] at hc
    by_cases hlt : index < captures.length
    · simp only [if_pos hlt]
      refine setKind hr (by rw [Heap.builtin?_of_object ho, hk]; rfl) ⟨fun v hmem => ?_, trivial⟩
      obtain ⟨b, hb, rfl⟩ := List.mem_map.mp hmem
      obtain ⟨i, hi⟩ := List.mem_iff_getElem?.mp hb
      rw [List.getElem?_modify, Option.map_eq_map, Option.map_eq_some_iff] at hi
      obtain ⟨a, ha, rfl⟩ := hi
      split
      · exact hv
      · exact hc.valid _ (List.mem_map_of_mem (List.mem_of_getElem? ha))
    · simp only [if_neg hlt]
      exact throwTypeError hr _
  · exact throwTypeError hr _

/-! ## Host functions -/

/-- Properties of an object that is there, defined one after the other. -/
theorem define {change : Object → Object} {answer : ObjectRef}
    (hkind : ∀ o, (change o).kind = o.kind)
    (hchange : ∀ {o : Object}, o.Consistent r.heap → (change o).Consistent r.heap)
    (hanswer : r.heap.isValid (.object answer) = true) :
    Keeps (Realm.changeHeap (·.update ref fun o => (answer, change o))) r
      fun a r' => r'.heap.isValid (.object a) = true := by
  refine (update hr (fun {o} _ => congrArg _ (hkind o)) fun _ => hchange).mono ?_
  rintro _ r' hext - ⟨o, -, rfl⟩
  exact hext.isValid hanswer

theorem newHostFunction (f : HostFunction) :
    Keeps (newHostFunction f) r fun ref r' => r'.heap.isValid (.object ref) = true := by
  unfold Realm.newHostFunction
  refine (modifyGet (Q := fun _ _ => True) rfl ⟨hr.heap, hr.jobs, hr.hostWork, hr.unhandled⟩
    trivial).bind fun id r' _ hr' _ => ?_
  refine (newFunction hr' fun b hb => absurd hb List.not_mem_nil).bind fun ref r'' _ hr'' hb => ?_
  refine define hr'' (fun o => by simp) (fun ho => ?_) (Heap.isValid_of_builtin? hb)
  exact (ho.define (Property.isValid_of_string rfl rfl)).define (Property.isValid_of_string rfl rfl)

theorem installGlobalFunction (f : HostFunction) :
    Keeps (installGlobalFunction f) r fun ref r' => r'.heap.isValid (.object ref) = true :=
  (newHostFunction hr f).bind fun _ _ _ hr' hv =>
    define hr' (fun o => o.kind_define _)
      (fun ho => ho.define (Property.isValid_of_string rfl hv)) hv

theorem installHostFunctions : Keeps installHostFunctions r fun _ _ => True :=
  (installGlobalFunction hr _).bind fun _ _ _ hr' _ =>
    (installGlobalFunction hr' _).bind fun _ _ _ hr'' _ => pure hr'' trivial

end Realm.Keeps
end Retention
