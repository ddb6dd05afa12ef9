import Retention.Proofs.Realm.History

/-!
# Outcomes of the host

What the host owes a promise it settles it with: a value fulfils it, a thrown
value rejects it, and any other failure rejects it with a new error that tells
the failure (`HostOutcome.Yields`). A promise that was settled before stays as it
is.

* `Realm.arrival_of_settleFromHost`: what the arrival of an outcome comes to.
-/

namespace Retention

/-- How an outcome of the host settles a promise. -/
inductive HostOutcome.Yields (h : Heap) : HostOutcome → Settlement → Prop where
  | completed (value : HostValue) : Yields h (.completed value) (.fulfilled value.toValue)
  | thrown (reason : Value) : Yields h (.failed (.abrupt (.thrown reason))) (.rejected reason)
  /-- The failure is told by a new `TypeError`. -/
  | told {failure : HostFailure} {ref : ObjectRef}
    (notAbrupt : ∀ cause, failure ≠ .abrupt cause)
    (error : h.object ref = .ok
      { prototype? := some Intrinsic.typeError.ref
        properties := [.hidden (.string "message") (.string failure.text)]
        kind := .error }) :
    Yields h (.failed failure) (.rejected (.object ref))

namespace Realm

variable {r r' : Realm} {promise : ObjectRef} {slots : PromiseSlots} {outcome : HostOutcome}

/-- An outcome of the host arrives at a promise: it settles the promise if it was
pending, and otherwise leaves it as it was settled. -/
structure Arrival (promise : ObjectRef) (outcome : HostOutcome) (settlement : Settlement)
    (r r' : Realm) : Prop where
  happens : exec (settleFromHost promise outcome) r = (.ok (), r')
  settled : r'.IsSettled promise settlement
  yields : r.isPending promise = true → outcome.Yields r'.heap settlement
  earlier : r.isPending promise = false → r.IsSettled promise settlement

theorem isPending_of_promiseSlots? (hs : r.heap.promiseSlots? promise = some slots) :
    r.isPending promise = (slots.state == .pending) := by
  rw [isPending, Heap.kind_of_promiseSlots? hs]

theorem exists_promiseSlots_of_isPending (hpending : r.isPending promise = true) :
    ∃ slots, r.heap.promiseSlots? promise = some slots ∧ slots.state = .pending := by
  unfold isPending at hpending
  split at hpending
  · rename_i slots hk
    exact ⟨slots, Heap.promiseSlots?_of_kind hk, beq_iff_eq.mp hpending⟩
  · cases hpending

/-! ## Errors -/

/-- A new error, which tells a message. -/
theorem exec_newError (prototype : ObjectRef) (message : String) (r : Realm) :
    ∃ heap, exec (newError prototype message) r = (.ok ⟨r.heap.size⟩, { r with heap }) ∧
      r.heap.LeavesPromises (fun _ => False) heap ∧
      heap.object ⟨r.heap.size⟩ = .ok
        { prototype? := some prototype
          properties := [.hidden (.string "message") (.string message)]
          kind := .error } := by
  have hnew := Heap.object_alloc_self r.heap (some prototype) .error
  refine ⟨((r.heap.alloc (some prototype) .error).2.update ⟨r.heap.size⟩ fun o =>
    ((), { o with properties := o.properties ++
      [.hidden (.string "message") (.string message)] })).2, ?_, ?_, ?_⟩
  · have halloc : exec (alloc (some prototype) .error) r =
        (.ok ⟨r.heap.size⟩, { r with heap := (r.heap.alloc (some prototype) .error).2 }) := rfl
    rw [newError, exec_bind_of_ok halloc, exec_changeHeap]
    simp only [Heap.update, show (r.heap.alloc (some prototype) .error).2.object ⟨r.heap.size⟩ =
      .ok { prototype? := some prototype, kind := .error } from hnew]
  · exact (Heap.leavesPromises_alloc (by simp)).trans (Heap.leavesPromises_update fun _ => rfl)
  · exact Heap.object_update_of_object hnew _

theorem exec_throwTypeError {α : Type} (message : String) (r : Realm) :
    ∃ v r', exec (throwTypeError message : RealmM α) r = (.error (.thrown v), r') := by
  obtain ⟨heap, hexec, -⟩ := exec_newError Intrinsic.typeError.ref message r
  refine ⟨.object ⟨r.heap.size⟩, { r with heap }, ?_⟩
  rw [throwTypeError, exec_bind_of_ok hexec]
  rfl

/-! ## Promises that are there -/

/-- Only a promise has the internal slots of one. -/
theorem exec_promiseSlots_ne_ok (hs : r.heap.promiseSlots? promise = none) :
    ∀ slots r', exec (promiseSlots promise) r ≠ (.ok slots, r') := by
  intro slots r' hexec
  rw [promiseSlots, exec_bind, exec_kind] at hexec
  cases hk : r.heap.kind promise with
  | error cause =>
    rw [hk] at hexec
    cases hexec
  | ok k =>
    rw [hk] at hexec
    cases k with
    | promise slots =>
      rw [Heap.promiseSlots?_of_kind hk] at hs
      cases hs
    | _ =>
      obtain ⟨v, r₁, hthrows⟩ :=
        exec_throwTypeError (α := PromiseSlots) "receiver is not a Promise" r
      cases hthrows.symm.trans hexec

/-- What is looked up of a promise. -/
theorem exec_promiseSlots_eq_ok {slots : PromiseSlots}
    (hexec : exec (promiseSlots promise) r = (.ok slots, r')) :
    r.heap.promiseSlots? promise = some slots ∧ r' = r := by
  cases hs : r.heap.promiseSlots? promise with
  | none => exact absurd hexec (exec_promiseSlots_ne_ok hs slots r')
  | some found =>
    obtain ⟨hslots, hr⟩ := Prod.mk.inj ((exec_promiseSlots hs).symm.trans hexec)
    exact ⟨congrArg some (Except.ok.inj hslots), hr.symm⟩

/-- An operation that looks at a promise first succeeds on a promise only. -/
theorem exists_promiseSlots {β : Type} {f : PromiseSlots → RealmM β} {b : β}
    (hexec : exec (promiseSlots promise >>= f) r = (.ok b, r')) :
    ∃ slots, r.heap.promiseSlots? promise = some slots := by
  obtain ⟨slots, r₁, he, -⟩ := exec_bind_eq_ok hexec
  exact ⟨slots, (exec_promiseSlots_eq_ok he).1⟩

/-- A settlement that succeeds is one of a promise. -/
theorem exists_promiseSlots_of_settlePromise {settlement : Settlement}
    (hexec : exec (settlePromise promise settlement) r = (.ok (), r')) :
    ∃ slots, r.heap.promiseSlots? promise = some slots ∧
      if slots.state = .pending then r' = r.acted promise slots (.settle settlement)
      else r' = r := by
  obtain ⟨slots, hs⟩ := exists_promiseSlots (f := fun slots => _) hexec
  refine ⟨slots, hs, ?_⟩
  split
  · rename_i hpending
    rw [exec_settlePromise hs hpending] at hexec
    exact (congrArg Prod.snd hexec).symm
  · rename_i hsettled
    rw [exec_settlePromise_of_settled hs hsettled] at hexec
    exact (congrArg Prod.snd hexec).symm

/-! ## Arrivals -/

theorem isSettled_of_promiseSlots? (hs : r.heap.promiseSlots? promise = some slots)
    (hsettled : slots.state ≠ .pending) : ∃ settlement, r.IsSettled promise settlement := by
  obtain ⟨settlement, hsettlement⟩ := Option.ne_none_iff_exists'.mp
    (mt PromiseSlots.settlement?_eq_none_iff.mp hsettled)
  exact ⟨settlement, slots, hs, hsettlement⟩

theorem isSettled_acted (hs : r.heap.promiseSlots? promise = some slots)
    (settlement : Settlement) :
    (r.acted promise slots (.settle settlement)).IsSettled promise settlement :=
  ⟨_, promiseSlots?_acted hs _, PromiseSlots.settlement?_settle slots settlement⟩

/-- An outcome that settles its promise in a realm with the same promises. -/
theorem arrival_of_settlePromise {r₁ : Realm} {settlement : Settlement}
    (hleaves : r.heap.LeavesPromises (fun _ => False) r₁.heap)
    (hsame : exec (settleFromHost promise outcome) r = exec (settlePromise promise settlement) r₁)
    (hyields : ∀ {slots}, r₁.heap.promiseSlots? promise = some slots →
      outcome.Yields (r₁.acted promise slots (.settle settlement)).heap settlement)
    (hexec : exec (settleFromHost promise outcome) r = (.ok (), r')) :
    ∃ settlement, Arrival promise outcome settlement r r' := by
  obtain ⟨slots, hs₁, hcases⟩ := exists_promiseSlots_of_settlePromise (hsame.symm.trans hexec)
  have hs : r.heap.promiseSlots? promise = some slots := (hleaves.new hs₁).resolve_right id
  have hpending := isPending_of_promiseSlots? hs
  by_cases hstate : slots.state = .pending
  · rw [if_pos hstate] at hcases
    rw [hstate] at hpending
    refine ⟨settlement, hexec, hcases ▸ isSettled_acted hs₁ settlement,
      fun _ => hcases ▸ hyields hs₁, fun hnot => ?_⟩
    exact absurd (hpending.symm.trans hnot) (by decide)
  · rw [if_neg hstate] at hcases
    obtain ⟨earlier, hearlier⟩ := isSettled_of_promiseSlots? hs hstate
    obtain ⟨slots', hs', hsettlement⟩ := hearlier
    refine ⟨earlier, hexec, hcases ▸ ⟨slots', hleaves.kept hs', hsettlement⟩, fun his => ?_,
      fun _ => ⟨slots', hs', hsettlement⟩⟩
    exact absurd (beq_iff_eq.mp (hpending.symm.trans his)) hstate

/-- A primitive is not adopted: to resolve a promise with it is to fulfil it. -/
theorem exec_resolvePromise_of_primitive {value : Value} (hvalue : value.object? = none)
    (promise : ObjectRef) (r : Realm) :
    exec (resolvePromise promise value) r = exec (settlePromise promise (.fulfilled value)) r := by
  cases hs : r.heap.promiseSlots? promise with
  | some slots =>
    by_cases hstate : slots.state = .pending
    · rw [resolvePromise.eq_def, exec_bind_of_ok (exec_promiseSlots hs), if_neg (by simp [hstate])]
      cases value with
      | object ref => cases hvalue
      | _ => rfl
    · rw [exec_resolvePromise_of_settled hs hstate, exec_settlePromise_of_settled hs hstate]
  | none =>
    cases he : exec (promiseSlots promise) r with
    | mk first r₁ =>
      cases first with
      | ok slots => exact absurd he (exec_promiseSlots_ne_ok hs slots r₁)
      | error cause => rw [resolvePromise.eq_def, settlePromise, exec_bind, exec_bind, he]

/-- A value of the host is no object, so that it fulfils a promise at once. -/
theorem exec_resolvePromise_toValue (promise : ObjectRef) (value : HostValue) (r : Realm) :
    exec (resolvePromise promise value.toValue) r =
      exec (settlePromise promise (.fulfilled value.toValue)) r :=
  exec_resolvePromise_of_primitive (by cases value <;> rfl) promise r

/-- A promise is no error. -/
theorem ne_of_promiseSlots? {ref : ObjectRef} {o : Object}
    (hs : r.heap.promiseSlots? promise = some slots) (ho : r.heap.object ref = .ok o)
    (hk : o.kind = .error) : ref ≠ promise := by
  rintro rfl
  rw [Heap.promiseSlots?_of_kind_ne (Heap.kind_of_object ho) (by rw [hk]; exact nofun)] at hs
  cases hs

/-- A failure that is told to guest code. -/
theorem arrival_of_told {failure : HostFailure} (hnot : ∀ cause, failure ≠ .abrupt cause)
    (hexec : exec (settleFromHost promise (.failed failure)) r = (.ok (), r')) :
    ∃ settlement, Arrival promise (.failed failure) settlement r r' := by
  obtain ⟨heap, hnew, hleaves, herror⟩ := exec_newError Intrinsic.typeError.ref failure.text r
  have hsame : exec (settleFromHost promise (.failed failure)) r =
      exec (settlePromise promise (.rejected (.object ⟨r.heap.size⟩))) { r with heap } := by
    cases failure with
    | abrupt cause => exact absurd rfl (hnot cause)
    | _ => exact exec_bind_of_ok hnew _
  refine arrival_of_settlePromise hleaves hsame (fun {slots} hs => ?_) hexec
  refine .told hnot ((Heap.object_update_of_ne heap _ ?_).trans herror)
  exact ne_of_promiseSlots? hs herror rfl

/-- An outcome of the host that arrives at a promise, and is no failure that ends
the pump, settles the promise or leaves it as it was settled. -/
theorem arrival_of_settleFromHost
    (hexec : exec (settleFromHost promise outcome) r = (.ok (), r')) :
    ∃ settlement, Arrival promise outcome settlement r r' := by
  cases outcome with
  | completed value =>
    exact arrival_of_settlePromise (.refl _) (exec_resolvePromise_toValue promise value r)
      (fun _ => .completed value) hexec
  | failed failure =>
    cases failure with
    | abrupt cause =>
      cases cause with
      | thrown reason =>
        exact arrival_of_settlePromise (.refl _) rfl (fun _ => .thrown reason) hexec
      | _ => exact nomatch congrArg Prod.fst hexec
    | argumentType | message => exact arrival_of_told nofun hexec

end Realm
end Retention
