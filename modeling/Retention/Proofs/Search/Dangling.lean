import Retention.Proofs.Search.Depiction
import Retention.Proofs.Search.Failing

/-!
# Dangling handles

The handles that a search follows are the target and whatever is discovered from
the held values. One of them dangles if it does not lead to a slot of its kind
(`Heap.Dangles`). A search with the built-in analyzers fails if and only if one
of them does, and then it fails for an invalid handle (`run_eq_error_iff`).

* `exists_run_of_not_dangles`: a search whose handles all lead somewhere answers;
* `not_dangles_of_run`: a search that answers has looked at all its handles;
* `eq_invalidHandle_of_run`: the only cause for which it fails.
-/

namespace Retention

/-- The target, or an object or symbol that is discovered from the held values,
is not there. -/
def Heap.Dangles (h : Heap) (target : Identity) (held : List Value) : Prop :=
  h.has target = false ∨ ∃ i, h.Discovered held i ∧ h.has i = false

/-- The keys of all WeakMaps are objects or symbols. -/
def Heap.KeysIdentified (h : Heap) : Prop :=
  ∀ {ref o}, h.object ref = .ok o → ∀ v ∈ o.kind.weakMapKeys, v.hasIdentity = true

namespace Search

variable {h : Heap} {options : Options} {target : Identity} {held : List Value} {s : State}

/-! ## No handle is passed over -/

/-- A search that answers has found a slot for each of its handles. -/
theorem not_dangles_of_run {g : Graph}
    (hrun : (run h options .builtin target.toValue held).1 = .ok g) : ¬ h.Dangles target held := by
  obtain ⟨s, hexec⟩ := exists_exec_of_run hrun
  obtain ⟨id, hf, hid, -⟩ := finished_of_exec hexec
  rw [Interner.names_toValue] at hid
  have hhas : ∀ {i id}, s.interner.id? i = some id → h.has i = true := fun hid =>
    hf.indexed.has _ (hf.indexed.lawful.mem_values hid)
  rintro (htarget | ⟨i, hi, hdangles⟩)
  · exact Bool.false_ne_true (htarget.symm.trans (hhas hid))
  · obtain ⟨id', hid', -⟩ := hf.exists_id_of_discovered hi
    exact Bool.false_ne_true (hdangles.symm.trans (hhas hid'))

/-! ## Nothing else is looked at -/

section Leads

variable (hkeys : h.KeysIdentified) (hleads : ¬ h.Dangles target held)

include hleads

theorem has_of_not_dangles {i : Identity} (hi : h.Discovered held i ∨ i = target) :
    h.has i = true := by
  by_contra hno
  have hdangles : h.has i = false := Bool.eq_false_iff.mpr hno
  rcases hi with hi | rfl
  · exact hleads (.inr ⟨i, hi, hdangles⟩)
  · exact hleads (.inl hdangles)

theorem isValid_of_refersTo {ref : ObjectRef} {o : Object} {v : Value}
    (hr : h.Discovered held (.object ref)) (ho : h.object ref = .ok o) (hv : o.RefersTo v) :
    h.isValid v = true := by
  cases hi : Identity.ofValue v with
  | ok i =>
    rw [Identity.ofValue_eq_ok.mp hi] at hv
    rw [Heap.isValid_of_ofValue hi]
    exact has_of_not_dangles hleads (.inl (.refers hr ho hv))
  | error => rw [Heap.isValid, hi]

theorem isValid_of_mem_held {v : Value} (hv : v ∈ held) : h.isValid v = true := by
  cases hi : Identity.ofValue v with
  | ok i =>
    rw [Heap.isValid_of_ofValue hi]
    exact has_of_not_dangles hleads (.inl (discovered_of_held hv hi))
  | error => rw [Heap.isValid, hi]

include hkeys

/-- What a discovered object asks for is there. -/
theorem isValid_of_discovered {ref : ObjectRef} {o : Object} {req : Request}
    (hr : h.Discovered held (.object ref)) (ho : h.object ref = .ok o)
    (hreq : req ∈ kindRequests ref o.kind ∨ req ∈ ownRequests ref o) : req.IsValid h := by
  refine isValid_of_refers ho (fun {child strength} hrefers => ?_) hreq
  refine ⟨isValid_of_refersTo hleads hr ho hrefers.refersTo, ?_⟩
  cases strength with
  | strong | weak => trivial
  | joint owners =>
    obtain ⟨key, rfl, hjoint⟩ := hrefers
    have hkey : h.isValid key = true :=
      isValid_of_refersTo hleads hr ho (.inr (.inl hjoint.holdsWeakly))
    show ∀ v ∈ [Value.object ref, key], _
    simp only [List.mem_cons, List.not_mem_nil, or_false, forall_eq_or_imp, forall_eq]
    exact ⟨⟨rfl, Heap.has_object.mpr ⟨o, ho⟩⟩, hkeys ho _ hjoint.mem_stored.2.2, hkey⟩

/-- A search whose handles all lead somewhere mirrors itself. -/
def Mirror.self (options : Options) : Mirror where
  ρ := .none
  heap := h
  image := h
  options := options
  options' := options
  Found := h.Discovered held
  target := target
  drops := false
  strongOnly_eq := rfl
  recordPrimitives_eq := by rw [Bool.not_false, Bool.and_true]
  injOn i _ j _ hij := by rwa [Renaming.identity_none, Renaming.identity_none] at hij
  named {i} hi := by
    obtain ⟨name, hname⟩ := exists_builtinName.mpr (has_of_not_dangles hleads hi)
    exact ⟨name, hname, by rwa [Renaming.identity_none]⟩
  outlined hr := by
    obtain ⟨o, ho⟩ := Heap.has_object.mp (has_of_not_dangles hleads (.inl hr))
    exact ⟨o, o, ho, ho, by rw [Renaming.object_none]⟩
  closed hr ho hi := .refers hr ho hi
  weakMapKeys _ ho := hkeys ho

/-- The expansion of an object of the agenda does not fail, and puts nothing on
the agenda but what is discovered. -/
theorem expand_self (hs : (Mirror.self hkeys hleads options).InStep s s) {ref : ObjectRef}
    (href : ref ∈ s.agenda.toList) :
    WP (expand h options .builtin ref) False s fun _ s' =>
      (Moves h options (Requested h .builtin) (fun _ => True) s s' ∧
        s'.expanded = s.expanded) ∧ (Mirror.self hkeys hleads options).InStep s' s' := by
  obtain ⟨f, hp, -⟩ := id hs
  have hfound : h.Discovered held (.object ref) := hp.found ref href
  have hhas := has_of_not_dangles hleads (.inl hfound)
  have hvalid : ∀ reqs, requestsFor h .builtin ref = .ok reqs → ∀ req ∈ reqs,
      req.IsValid h ∨ False := fun reqs hreqs req hreq => by
    obtain ⟨o, ho⟩ := Heap.has_object.mp hhas
    rw [requestsFor_builtin ho] at hreqs
    cases hreqs
    exact .inl (isValid_of_discovered hkeys hleads hfound ho (List.mem_append.mp hreq))
  have hspec : WP (expand h options .builtin ref) False s fun _ s' =>
      Moves h options (Requested h .builtin) (fun _ => True) s s' ∧ _ :=
    expand_spec hp.left hhas hvalid
  exact (hs.expand hfound).diagonal (hspec.mono fun _ s' ⟨hm, _, hx⟩ => ⟨hm, hx⟩)

theorem expandWithin_self {steps : Nat} (hs : (Mirror.self hkeys hleads options).InStep s s)
    (hsound : Sound s) : WP (expandWithin h options .builtin steps) False s fun _ _ => True := by
  induction steps generalizing s with
  | zero => exact .pure trivial
  | succ steps ih =>
    unfold expandWithin
    refine .bind (.get ?_)
    split
    · exact .pure trivial
    · rename_i ref href
      have hmem : ref ∈ s.agenda.toList := Array.mem_toList_iff.mpr (Array.mem_of_getElem? href)
      refine .bind (.modify (.bind ((expand_self hkeys hleads hs.next hmem).mono ?_)))
      rintro _ s₂ ⟨⟨hm, -⟩, hs₂⟩
      have hsound₂ : Sound s₂ := hm.sound (hsound.of_liveness rfl rfl)
      exact .bind (.modify (ih (hs₂.drain hsound₂ hsound₂) hsound₂.drain))

/-- A search answers if its handles all lead somewhere. -/
theorem exists_run_of_not_dangles (options : Options) :
    ∃ g, (run h options .builtin target.toValue held).1 = .ok g := by
  have hheld : ∀ v ∈ held, h.isValid v = true ∨ False := fun v hv =>
    .inl (isValid_of_mem_held hleads hv)
  have hholds : WP (held.forM (hold h)) False {} fun _ s =>
      Moves h options (Requested h .builtin) (Given held) {} s ∧ _ := holdAll_spec hheld
  have hmirrored : Lockstep (held.forM (hold h)) (held.forM (hold h)) {} {}
      fun _ _ => (Mirror.self hkeys hleads options).InStep := by
    refine Lockstep.forM (V := fun v v' => v ∈ held ∧ v' = v) ?_ ?_ Mirror.inStep_init
    · exact List.forall₂_same.mpr fun v hv => ⟨hv, rfl⟩
    · rintro v _ s₁ t₁ ⟨hv, rfl⟩ h₁
      have hhold := h₁.hold fun i hi => discovered_of_held hv hi
      rwa [show (Mirror.self hkeys hleads options).ρ.value = id from Renaming.value_none] at hhold
  suffices WP (search h options .builtin target.toValue held) False {} fun _ _ => True by
    obtain ⟨g, s, hexec, -⟩ := this.exists_ok
    exact ⟨g, congrArg Prod.fst hexec⟩
  unfold search
  refine .bind ((hmirrored.diagonal hholds).mono ?_)
  rintro _ s₁ ⟨⟨hm₁, -⟩, f, h₁⟩
  unfold identity
  rw [Identity.ofValue_toValue]
  have hhas := has_of_not_dangles hleads (.inr rfl)
  have hregister := h₁.register (.inr rfl)
  rw [show (Mirror.self hkeys hleads options).ρ.identity = id from
    funext Renaming.identity_none] at hregister
  refine .bind (.pure (.bind ((hregister.diagonal
    (register_spec (hm₁.indexed (.init h)) (.inl hhas))).mono ?_)))
  rintro id s₂ ⟨⟨hd₂, hi₂, -⟩, -, ⟨h₂, -, -⟩, -⟩
  have hs₂ : Sound s₂ := (hm₁.trans (.single (.discover hd₂ hi₂))).sound .init
  refine .bind (.modify (.bind ((expandWithin_self hkeys hleads
    (Mirror.InStep.drain ⟨f, h₂⟩ hs₂ hs₂) hs₂.drain).mono ?_)))
  exact fun _ s₃ _ => .bind (.get (.pure trivial))

end Leads

/-! ## Why it fails -/

/-- The built-in analyzers need nodes for objects and symbols only, if the keys of
WeakMaps are such. -/
theorem Requested.identified_builtin (hkeys : h.KeysIdentified) {req : Request}
    (hreq : Requested h .builtin req) : req.Identified := by
  have hidentified : ∀ {t parent kind child strength}, req.Adds t parent kind child strength →
      strength.Identified := fun {t parent kind child strength} ha => by
    obtain ⟨o, ho, hasks⟩ := hreq.asks ha
    have hrefers := hasks.refers
    cases strength with
    | strong | weak => trivial
    | joint owners =>
      obtain ⟨key, rfl, hjoint⟩ := hrefers
      show ∀ v ∈ [Value.object parent, key], _
      simp only [List.mem_cons, List.not_mem_nil, or_false, forall_eq_or_imp, forall_eq]
      exact ⟨rfl, hkeys ho _ hjoint.mem_stored.2.2⟩
  cases req with
  | edge => exact hidentified (t := .empty) .edge
  | entry collection i key keyStrength value? =>
    refine ⟨hidentified (t := .empty) .entryKey, fun value strength he => ?_⟩
    subst he
    exact hidentified (t := .empty) .entryValue
  | node value => cases hreq.isReference_builtin
  | symbolProperty | noteOptions | fail => trivial

/-- The only cause for which a search with the built-in analyzers fails. -/
theorem eq_invalidHandle_of_run (hkeys : h.KeysIdentified) {cause : Abrupt}
    (hrun : (run h options .builtin target.toValue held).1 = .error cause) :
    cause = .invalidHandle := by
  have hreqs : ∀ req, Requested h .builtin req →
      FailsOnly (· = .invalidHandle) (perform h options req) := fun req hreq =>
    failsOnly_perform (P := (· = .invalidHandle)) rfl (.inl (hreq.identified_builtin hkeys))
      fun cause hcause => by
        subst hcause
        cases hreq.isReference_builtin
  have htarget : target.toValue.hasIdentity = true := by cases target <;> rfl
  exact failsOnly_search (P := (· = .invalidHandle)) rfl hreqs (.inl htarget) held {} cause _
    (Prod.ext hrun rfl)

/-- A search with the built-in analyzers fails if and only if its target, or
something that is discovered from the held values, is not there. It fails for an
invalid handle. -/
theorem run_eq_error_iff (hkeys : h.KeysIdentified) (options : Options) (target : Identity)
    (held : List Value) (cause : Abrupt) :
    (run h options .builtin target.toValue held).1 = .error cause ↔
      cause = .invalidHandle ∧ h.Dangles target held := by
  constructor
  · intro hrun
    refine ⟨eq_invalidHandle_of_run hkeys hrun, ?_⟩
    by_contra hleads
    obtain ⟨g, hg⟩ := exists_run_of_not_dangles hkeys hleads options
    cases hrun.symm.trans hg
  · rintro ⟨rfl, hdangles⟩
    cases hrun : (run h options .builtin target.toValue held).1 with
    | ok g => exact absurd hdangles (not_dangles_of_run hrun)
    | error cause => rw [eq_invalidHandle_of_run hkeys hrun]

/-- A WeakMap that maps an object to an object, in whose slot there is a symbol. -/
def misplacedValue : Heap where
  slots := #[
    .object ⟨none, [], .weakMap (.ofList [⟨.object ⟨1⟩, .object ⟨2⟩⟩])⟩,
    .object ⟨none, [], .ordinary⟩,
    .symbol ⟨none, false⟩]

theorem run_eq_error_iff_misplacedValue :
    (run misplacedValue {} .builtin (.object ⟨1⟩) [.object ⟨0⟩]).1 = .error .invalidHandle := by
  have hkeys : misplacedValue.KeysIdentified := fun {ref o} ho => by
    have hslot := List.mem_of_getElem? (Heap.slot_of_object ho)
    simp only [misplacedValue, List.mem_cons, List.not_mem_nil, or_false, Slot.object.injEq,
      reduceCtorEq] at hslot
    rcases hslot with rfl | rfl <;> decide
  have hvalue : misplacedValue.Discovered [.object ⟨0⟩] (.object ⟨2⟩) :=
    .refers (.held List.mem_cons_self) rfl (.inr (.inr ⟨.object ⟨1⟩,
      .weakMapValue (e := ⟨.object ⟨1⟩, .object ⟨2⟩⟩) rfl (by simp)⟩))
  exact (run_eq_error_iff hkeys {} (.object ⟨1⟩) [.object ⟨0⟩] .invalidHandle).mpr
    ⟨rfl, .inr ⟨.object ⟨2⟩, hvalue, rfl⟩⟩

end Search
end Retention
