import Retention.Guest.Effect
import Retention.Proofs.Heap.Arrays
import Retention.Proofs.Realm.Outcomes

/-!
# Operations that refuse

The operations of the built-in objects look at all they are given before they
change anything. So where one of them ends abruptly (`Realm.Refuses`), either a
reference led nowhere and the realm is as it was, or the realm has one slot more,
for the error that is thrown.

* `Guards.of_ok`, `Checks.bind`, …: operations put together.
* `Realm.exec_newError_eq`: the realm in which a new error was made.
* `Guards.changeOrThrow`: a change that may be refused.
* `Realm.refuses_of_checksFirst`: effects that look first.
-/

namespace Retention

/-- An error that tells a message. -/
def Object.errorOf (prototype : ObjectRef) (message : String) : Object where
  prototype? := some prototype
  properties := [.hidden (.string "message") (.string message)]
  kind := .error

/-! ## Changes that are refused -/

namespace Object

variable {o : Object} {key : PropertyKey} {value : Value}

/-- A length is written to an array with an element at or beyond it that cannot be
deleted. -/
def BlocksLength (o : Object) (key : PropertyKey) (value : Value) : Prop :=
  o.isArray = true ∧ key = .length ∧ ∃ length, arrayLength? value = some length ∧
    ∃ p ∈ o.properties, ∃ i, p.Blocks length i

theorem setLength_of_refused {length : Nat} (hrefused : (o.setLength length).1 = false)
    (hblocked : ∀ p ∈ o.properties, ∀ i, ¬ p.Blocks length i) : (o.setLength length).2 = o := by
  unfold setLength at hrefused ⊢
  split
  · rfl
  · rename_i hwritable
    rw [if_neg hwritable] at hrefused
    exact absurd (Properties.truncatedLength_of_not_blocks hblocked) (by simpa using hrefused)

/-- An object that refuses a write is left as it was, unless an element stops an array
from being shortened. -/
theorem set_of_refused (hrefused : (o.set key value).1 = false)
    (hblocked : ¬ o.BlocksLength key value) : (o.set key value).2 = o := by
  unfold set at hrefused ⊢
  split
  · rename_i hlength
    obtain ⟨harray, hkey⟩ := Bool.and_eq_true_iff.mp hlength
    rw [if_pos hlength] at hrefused
    cases hl : arrayLength? value with
    | none => rfl
    | some length =>
      rw [hl] at hrefused
      refine setLength_of_refused hrefused fun p hp i hblocks => hblocked ?_
      exact ⟨harray, beq_iff_eq.mp hkey, length, hl, p, hp, i, hblocks⟩
  · rename_i hlength
    rw [if_neg hlength] at hrefused
    cases hp : o.own? key with
    | none => simp [hp] at hrefused
    | some p =>
      rw [hp] at hrefused
      dsimp only at hrefused ⊢
      split
      · rename_i hwritable
        rw [if_pos hwritable] at hrefused
        cases hrefused
      · rfl

theorem delete_of_refused (hrefused : (o.delete key).1 = false) : (o.delete key).2 = o := by
  unfold delete at hrefused ⊢
  split
  · rfl
  · rename_i hgone
    rw [if_neg hgone] at hrefused
    cases hrefused

end Object

/-! ## Reads and changes that fail -/

namespace Heap

variable {α : Type} {h : Heap} {ref : ObjectRef} {o : Object} {key : PropertyKey} {cause : Abrupt}

theorem eq_invalidHandle_of_getWithin {steps : Nat} {ref? : Option ObjectRef}
    (hget : h.getWithin key steps ref? = .error cause) : cause = .invalidHandle := by
  induction steps generalizing ref? with
  | zero => cases hget
  | succ steps ih =>
    cases ref? with
    | none => cases hget
    | some ref =>
      cases ho : h.object ref with
      | error cause' =>
        simp only [getWithin, ho, bind, Except.bind] at hget
        exact Except.error.inj hget ▸ eq_invalidHandle_of_object ho
      | ok o =>
        simp only [getWithin, ho, bind, Except.bind] at hget
        split at hget
        · cases hget
        · exact ih hget

/-- A property cannot be read only where a reference leads nowhere. -/
theorem eq_invalidHandle_of_get (hget : h.get ref key = .error cause) : cause = .invalidHandle :=
  eq_invalidHandle_of_getWithin hget

theorem eq_invalidHandle_of_prototype? (hp : h.prototype? ref = .error cause) :
    cause = .invalidHandle := by
  cases ho : h.object ref with
  | error cause' =>
    simp only [prototype?, ho, bind, Except.bind] at hp
    exact Except.error.inj hp ▸ eq_invalidHandle_of_object ho
  | ok o =>
    simp only [prototype?, ho, bind, Except.bind] at hp
    cases hp

theorem update_of_object (ho : h.object ref = .ok o) (change : Object → α × Object) :
    h.update ref change = (.ok (change o).1,
      { h with slots := h.slots.setIfInBounds ref.slot (.object (change o).2) }) := by
  simp only [update, ho]

/-- An object that a change leaves as it was. -/
theorem update_of_same (ho : h.object ref = .ok o) {change : Object → α × Object}
    (hsame : (change o).2 = o) : h.update ref change = (.ok (change o).1, h) := by
  obtain ⟨hlt, hslot⟩ := Array.getElem?_eq_some_iff.mp (object_eq_ok_iff.mp ho)
  have hslots : h.slots.setIfInBounds ref.slot (.object o) = h.slots := by
    rw [← hslot, Array.setIfInBounds_def, dif_pos hlt, Array.set_getElem_self]
  rw [update_of_object ho, hsame, hslots]

/-- A length is written to an array with an element at or beyond it that cannot be
deleted. -/
def BlocksLength (h : Heap) (ref : ObjectRef) (key : PropertyKey) (value : Value) : Prop :=
  ∃ o, h.object ref = .ok o ∧ o.BlocksLength key value

end Heap

namespace Realm

variable {α β : Type} {r r' : Realm} {ref promise : ObjectRef} {cause : Abrupt}

/-! ## Errors -/

/-- The realm with a new error in its next slot. -/
def withError (r : Realm) (prototype : ObjectRef) (message : String) : Realm :=
  { r with heap :=
      { r.heap with slots := r.heap.slots.push (.object (.errorOf prototype message)) } }

/-- A new error, and nothing else. -/
theorem exec_newError_eq (prototype : ObjectRef) (message : String) (r : Realm) :
    exec (newError prototype message) r =
      (.ok ⟨r.heap.size⟩, r.withError prototype message) := by
  have halloc : exec (alloc (some prototype) .error) r =
      (.ok ⟨r.heap.size⟩, { r with heap := (r.heap.alloc (some prototype) .error).2 }) := rfl
  have hslots (o o' : Slot) : (r.heap.slots.push o).setIfInBounds r.heap.slots.size o' =
      r.heap.slots.push o' := by
    simp [Array.setIfInBounds_def, Array.set_push]
  have hobject : (r.heap.alloc (some prototype) .error).2.object ⟨r.heap.size⟩ =
      .ok { prototype? := some prototype, kind := .error } := Heap.object_alloc_self ..
  rw [newError, exec_bind_of_ok halloc, exec_changeHeap]
  simp only [Heap.update_of_object hobject, withError, Object.errorOf, List.nil_append]
  simp only [Heap.alloc, Heap.size, hslots]

theorem exec_throwTypeError_eq (message : String) (r : Realm) :
    exec (throwTypeError message : RealmM α) r =
      (.error (.thrown (.object ⟨r.heap.size⟩)), r.withError Intrinsic.typeError.ref message) := by
  rw [throwTypeError, exec_bind_of_ok (exec_newError_eq _ _ _)]
  exact rfl

theorem exec_throwRangeError_eq (message : String) (r : Realm) :
    exec (throwRangeError message : RealmM α) r =
      (.error (.thrown (.object ⟨r.heap.size⟩)), r.withError Intrinsic.rangeError.ref message) := by
  rw [throwRangeError, exec_bind_of_ok (exec_newError_eq _ _ _)]
  exact rfl

/-- An operation refuses: a reference led nowhere, and the realm is as it was; or an
error is thrown, which the realm has in a new slot and is otherwise as it was. -/
inductive Refuses (r : Realm) : Abrupt → Realm → Prop
  | invalidHandle : Refuses r .invalidHandle r
  | thrown {prototype : Intrinsic} (message : String)
    (error : prototype = .typeError ∨ prototype = .rangeError) :
    Refuses r (.thrown (.object ⟨r.heap.size⟩)) (r.withError prototype.ref message)

/-! ## Operations put together -/

/-- An operation that ends abruptly does so by refusing. -/
def Guards (m : RealmM α) (r : Realm) : Prop :=
  ∀ cause r', exec m r = (.error cause, r') → Refuses r cause r'

/-- An operation that refuses or leaves the realm as it is; what it answers satisfies `Q`. -/
structure Checks (m : RealmM α) (r : Realm) (Q : α → Prop) : Prop where
  guards : Guards m r
  answers : ∀ a r', exec m r = (.ok a, r') → r' = r ∧ Q a

variable {m : RealmM α} {f : α → RealmM β} {Q : α → Prop} {Q' : β → Prop}

theorem Guards.of_ok {a : α} (hm : exec m r = (.ok a, r')) : Guards m r := fun _ _ hfail =>
  nomatch congrArg Prod.fst (hm.symm.trans hfail)

theorem Guards.of_refuses (hrefuses : Refuses r cause r') (hm : exec m r = (.error cause, r')) :
    Guards m r := by
  intro cause' r'' hfail
  obtain ⟨hcause, rfl⟩ := Prod.mk.inj (hm.symm.trans hfail)
  exact Except.error.inj hcause ▸ hrefuses

theorem Guards.throwTypeError (message : String) :
    Guards (throwTypeError message : RealmM α) r :=
  .of_refuses (.thrown message (.inl rfl)) (exec_throwTypeError_eq message r)

theorem Guards.bind_of_refuses (hrefuses : Refuses r cause r')
    (hm : exec m r = (.error cause, r')) : Guards (m >>= f) r :=
  .of_refuses hrefuses (by rw [exec_bind, hm])

/-- After a check, the operation goes on in the realm it began in. -/
theorem Checks.guards_bind (hm : Checks m r Q) (hf : ∀ a, Q a → Guards (f a) r) :
    Guards (m >>= f) r := by
  intro cause r'' hfail
  rw [exec_bind] at hfail
  cases he : exec m r with
  | mk outcome r' =>
    rw [he] at hfail
    cases outcome with
    | error cause' =>
      obtain ⟨hcause, rfl⟩ := Prod.mk.inj hfail
      exact hm.guards cause r' (Except.error.inj hcause ▸ he)
    | ok a =>
      obtain ⟨rfl, ha⟩ := hm.answers a r' he
      exact hf a ha cause r'' hfail

theorem Checks.bind (hm : Checks m r Q) (hf : ∀ a, Q a → Checks (f a) r Q') :
    Checks (m >>= f) r Q' where
  guards := hm.guards_bind fun a ha => (hf a ha).guards
  answers b r'' hb := by
    obtain ⟨a, r', he, hrest⟩ := exec_bind_eq_ok hb
    obtain ⟨rfl, ha⟩ := hm.answers a r' he
    exact (hf a ha).answers b r'' hrest

/-- After a check that succeeds, an operation goes on in the realm it began in. -/
theorem Checks.bind_eq_ok {b : β} (hm : Checks m r Q)
    (hok : exec (m >>= f) r = (.ok b, r')) :
    ∃ a, exec m r = (.ok a, r) ∧ exec (f a) r = (.ok b, r') := by
  obtain ⟨a, r₁, he, hrest⟩ := exec_bind_eq_ok hok
  obtain ⟨rfl, -⟩ := hm.answers a r₁ he
  exact ⟨a, he, hrest⟩

/-- What follows a change that was made must not fail. -/
theorem Guards.bind_of_ok (hm : Guards m r)
    (hf : ∀ a r', exec m r = (.ok a, r') → ∃ b r'', exec (f a) r' = (.ok b, r'')) :
    Guards (m >>= f) r := by
  intro cause r'' hfail
  rw [exec_bind] at hfail
  cases he : exec m r with
  | mk outcome r' =>
    rw [he] at hfail
    cases outcome with
    | error cause' =>
      obtain ⟨hcause, rfl⟩ := Prod.mk.inj hfail
      exact hm cause r' (Except.error.inj hcause ▸ he)
    | ok a =>
      obtain ⟨b, r₂, hb⟩ := hf a r' he
      exact nomatch congrArg Prod.fst (hb.symm.trans hfail)

theorem Guards.bind_pure (hm : Guards m r) (f : α → β) : Guards (m >>= fun a => pure (f a)) r :=
  hm.bind_of_ok fun a r' _ => ⟨f a, r', rfl⟩

theorem Guards.map (hm : Guards m r) (f : α → β) : Guards (f <$> m) r := by
  rw [← bind_pure_comp]
  exact hm.bind_pure f

theorem Checks.pure {a : α} (ha : Q a) : Checks (pure a) r Q where
  guards := .of_ok rfl
  answers b r' hb := by
    obtain ⟨hab, rfl⟩ := Prod.mk.inj (show (Except.ok a, r) = (Except.ok b, r') from hb)
    exact ⟨rfl, Except.ok.inj hab ▸ ha⟩

theorem Checks.throwTypeError (message : String) :
    Checks (throwTypeError message : RealmM α) r Q where
  guards := .throwTypeError message
  answers _ _ hok := nomatch congrArg Prod.fst ((exec_throwTypeError_eq message r).symm.trans hok)

theorem Checks.getThe : Checks (getThe Realm) r (· = r) where
  guards := .of_ok (exec_getThe r)
  answers a r' ha := by
    obtain ⟨hra, rfl⟩ := Prod.mk.inj ((exec_getThe r).symm.trans ha)
    exact ⟨rfl, (Except.ok.inj hra).symm⟩

/-- A read that fails only where a reference leads nowhere. -/
theorem Checks.readHeap {read : Heap → Except Abrupt α}
    (hfail : ∀ cause, read r.heap = .error cause → cause = .invalidHandle) :
    Checks (readHeap read) r (read r.heap = .ok ·) := by
  refine ⟨fun cause r' hr => ?_, fun a r' hr => ?_⟩
  · obtain ⟨hread, rfl⟩ := Prod.mk.inj ((exec_readHeap read).symm.trans hr)
    exact hfail cause hread ▸ .invalidHandle
  · obtain ⟨hread, rfl⟩ := Prod.mk.inj ((exec_readHeap read).symm.trans hr)
    exact ⟨rfl, hread⟩

/-- What fails only where a reference leads nowhere throws nothing that is caught. -/
theorem Checks.tryCatch {handler : Abrupt → RealmM α} (hm : Checks m r Q)
    (hfail : ∀ cause r', exec m r = (.error cause, r') → cause = .invalidHandle)
    (hcatch : handler .invalidHandle = throw .invalidHandle) :
    Checks (tryCatch m handler) r Q := by
  cases he : exec m r with
  | mk outcome r' =>
    have hexec := exec_tryCatch m handler r
    cases outcome with
    | ok a =>
      rw [he] at hexec
      exact ⟨.of_ok hexec, fun b r'' hb => hm.answers b r'' (he.trans (hexec.symm.trans hb))⟩
    | error cause =>
      obtain rfl := hfail cause r' he
      have hrefuses := hm.guards _ r' he
      rw [he] at hexec
      dsimp only at hexec
      rw [hcatch] at hexec
      cases hrefuses
      exact ⟨.of_refuses .invalidHandle hexec,
        fun _ _ hb => nomatch congrArg Prod.fst (hexec.symm.trans hb)⟩

theorem Checks.kind (ref : ObjectRef) : Checks (kind ref) r (r.heap.kind ref = .ok ·) :=
  .readHeap fun _ => Heap.eq_invalidHandle_of_kind

/-! ## Changes -/

/-- A change of an object fails only where there is none. -/
theorem Guards.update (ref : ObjectRef) (change : Object → α × Object) :
    Guards (changeHeap (·.update ref change)) r := by
  cases ho : r.heap.object ref with
  | ok o =>
    have hexec : exec (changeHeap (·.update ref change)) r =
        (.ok (change o).1, { r with heap := (r.heap.update ref change).2 }) := by
      rw [exec_changeHeap, Heap.update_of_object ho]
    exact .of_ok hexec
  | error cause =>
    have hexec : exec (changeHeap (·.update ref change)) r = (.error cause, r) := by
      rw [exec_changeHeap, Heap.update_of_object_eq_error ho]
    exact .of_refuses (Heap.eq_invalidHandle_of_object ho ▸ .invalidHandle) hexec

theorem Guards.setKind (ref : ObjectRef) (k : ObjectKind) : Guards (setKind ref k) r := .update ref _

/-- A change that may be refused, which throws. An object that refuses it must be left
as it was. -/
theorem Guards.changeOrThrow {change : Object → Bool × Object} {message : String}
    (hsame : ∀ o, r.heap.object ref = .ok o → (change o).1 = false → (change o).2 = o) :
    Guards (do if !(← Realm.changeHeap (·.update ref change)) then Realm.throwTypeError message)
      r := by
  cases ho : r.heap.object ref with
  | error cause =>
    refine (Guards.update ref change).bind_of_ok fun b r' hb => ?_
    rw [exec_changeHeap, Heap.update_of_object_eq_error ho] at hb
    cases hb
  | ok o =>
    cases hanswer : (change o).1 with
    | true =>
      refine (Guards.update ref change).bind_of_ok fun b r' hb => ?_
      rw [exec_changeHeap, Heap.update_of_object ho, hanswer] at hb
      obtain ⟨hbool, -⟩ := Prod.mk.inj hb
      rw [← Except.ok.inj hbool]
      exact ⟨(), r', rfl⟩
    | false =>
      have hexec : exec (Realm.changeHeap (·.update ref change)) r = (.ok false, r) := by
        rw [exec_changeHeap, Heap.update_of_same ho (hsame o ho hanswer), hanswer]
      intro cause r' hfail
      rw [exec_bind_of_ok hexec] at hfail
      exact Guards.throwTypeError message cause r' hfail

/-! ## Properties -/

theorem Checks.get (ref : ObjectRef) (key : PropertyKey) :
    Checks (get (.object ref) key) r (r.heap.get ref key = .ok ·) := by
  show Checks (Realm.readHeap (·.get ref key)) r _
  exact .readHeap fun _ => Heap.eq_invalidHandle_of_get

theorem Guards.get (target : Value) (key : PropertyKey) : Guards (get target key) r := by
  unfold Realm.get
  split
  · exact (Checks.get _ key).guards
  · exact .throwTypeError _
  · exact .throwTypeError _
  · exact .of_ok rfl

theorem Guards.delete (target : ObjectRef) (key : PropertyKey) : Guards (delete target key) r :=
  .changeOrThrow fun _ _ => Object.delete_of_refused

theorem Guards.set {target : ObjectRef} {key : PropertyKey} {value : Value}
    (hblocked : ¬ r.heap.BlocksLength target key value) : Guards (set target key value) r := by
  unfold Realm.set
  refine (Checks.kind target).guards_bind fun k hk => ?_
  split
  · exact .bind_of_refuses (.thrown _ (.inr rfl)) (exec_throwRangeError_eq _ r)
  · exact .changeOrThrow fun o ho hrefused => Object.set_of_refused hrefused fun hlength =>
      hblocked ⟨o, ho, hlength⟩

theorem Guards.setCapture (func : ObjectRef) (index : Nat) (value : Value) :
    Guards (setCapture func index value) r := by
  unfold Realm.setCapture
  refine (Checks.kind func).guards_bind fun k _ => ?_
  split
  · rename_i name behaviour captures _
    by_cases hlt : index < captures.length
    · simp only [if_pos hlt]
      exact .setKind func _
    · simp only [if_neg hlt]
      exact .throwTypeError _
  · exact .throwTypeError _

/-! ## Collections -/

theorem Checks.entriesOf (weak : Bool) (ref : ObjectRef) :
    Checks (entriesOf weak ref) r fun _ => True := by
  unfold Realm.entriesOf
  refine (Checks.kind ref).bind fun k _ => ?_
  split
  · exact .pure trivial
  · exact .pure trivial
  · exact .throwTypeError _

theorem Checks.membersOf (weak : Bool) (ref : ObjectRef) :
    Checks (membersOf weak ref) r fun _ => True := by
  unfold Realm.membersOf
  refine (Checks.kind ref).bind fun k _ => ?_
  split
  · exact .pure trivial
  · exact .pure trivial
  · exact .throwTypeError _

theorem Checks.requireWeaklyHoldable (v : Value) (role : String) :
    Checks (requireWeaklyHoldable v role) r fun _ => True := by
  unfold Realm.requireWeaklyHoldable
  refine Checks.getThe.bind fun a _ => ?_
  split
  · exact .throwTypeError _
  · exact .pure trivial

/-- The values that must be held weakly are looked at before anything else. -/
theorem Guards.requireIf (weak : Bool) (v : Value) (role : String) {m : RealmM Unit}
    (hm : Guards m r) :
    Guards (do
      if weak then Realm.requireWeaklyHoldable v role
      m) r := by
  cases weak with
  | false => exact hm
  | true => exact (Checks.requireWeaklyHoldable v role).guards_bind fun _ _ => hm

theorem Guards.keyedSet (weak : Bool) (ref : ObjectRef) (key value : Value) :
    Guards (keyedSet weak ref key value) r :=
  (Checks.entriesOf weak ref).guards_bind fun _ _ => .requireIf weak key _ (.setKind ref _)

theorem Checks.keyedGet? (weak : Bool) (ref : ObjectRef) (key : Value) :
    Checks (keyedGet? weak ref key) r fun _ => True :=
  (Checks.entriesOf weak ref).bind fun _ _ => .pure trivial

theorem Guards.keyedDelete (weak : Bool) (ref : ObjectRef) (key : Value) :
    Guards (keyedDelete weak ref key) r :=
  (Checks.entriesOf weak ref).guards_bind fun _ _ => (Guards.setKind ref _).bind_pure _

theorem Guards.setAdd (weak : Bool) (ref : ObjectRef) (v : Value) : Guards (setAdd weak ref v) r :=
  (Checks.membersOf weak ref).guards_bind fun _ _ => .requireIf weak v _ (.setKind ref _)

theorem Guards.setHas (weak : Bool) (ref : ObjectRef) (v : Value) : Guards (setHas weak ref v) r :=
  (Checks.membersOf weak ref).guards.bind_pure _

theorem Guards.setDelete (weak : Bool) (ref : ObjectRef) (v : Value) :
    Guards (setDelete weak ref v) r :=
  (Checks.membersOf weak ref).guards_bind fun _ _ => (Guards.setKind ref _).bind_pure _

/-! ## Weak references, registries, proxies and bound functions -/

theorem Guards.newWeakRef (target : Value) : Guards (newWeakRef target) r :=
  (Checks.requireWeaklyHoldable target _).guards_bind fun _ _ => .of_ok rfl

theorem Guards.deref (ref : ObjectRef) : Guards (deref ref) r := by
  unfold Realm.deref
  refine (Checks.kind ref).guards_bind fun k _ => ?_
  split
  · exact .of_ok rfl
  · exact .throwTypeError _

theorem Guards.newRegistry (callback : Value) : Guards (newRegistry callback) r := by
  unfold Realm.newRegistry
  refine Checks.getThe.guards_bind fun a _ => ?_
  split
  · exact .of_ok rfl
  · exact .throwTypeError _

theorem Checks.registryOf (ref : ObjectRef) : Checks (registryOf ref) r fun _ => True := by
  unfold Realm.registryOf
  refine (Checks.kind ref).bind fun k _ => ?_
  split
  · exact .pure trivial
  · exact .throwTypeError _

theorem Guards.register (ref : ObjectRef) (target held : Value) (token? : Option Value) :
    Guards (register ref target held token?) r := by
  unfold Realm.register
  refine (Checks.registryOf ref).guards_bind fun (callback, cells) _ => ?_
  refine (Checks.requireWeaklyHoldable target _).guards_bind fun _ _ => ?_
  split
  · exact .bind_of_refuses (.thrown _ (.inl rfl)) (exec_throwTypeError_eq _ r)
  · dsimp only
    split
    · exact (Checks.requireWeaklyHoldable _ _).guards_bind fun _ _ => .setKind ref _
    · exact .setKind ref _

theorem Guards.unregister (ref : ObjectRef) (token : Value) : Guards (unregister ref token) r := by
  unfold Realm.unregister
  refine (Checks.registryOf ref).guards_bind fun (callback, cells) _ => ?_
  exact (Checks.requireWeaklyHoldable token _).guards_bind fun _ _ =>
    (Guards.setKind ref _).bind_pure _

theorem Guards.newProxy (target handler : Value) : Guards (newProxy target handler) r := by
  unfold Realm.newProxy
  split
  · exact .of_ok rfl
  · exact .throwTypeError _

theorem Guards.proxyTarget? (ref : ObjectRef) : Guards (proxyTarget? ref) r := by
  unfold Realm.proxyTarget?
  refine (Checks.kind ref).guards_bind fun k _ => ?_
  split
  · exact .of_ok rfl
  · exact .throwTypeError _

theorem Guards.bind (target this : Value) (args : List Value) :
    Guards (Realm.bind target this args) r := by
  unfold Realm.bind
  refine Checks.getThe.guards_bind fun a _ => ?_
  split
  · exact (Checks.readHeap fun _ => Heap.eq_invalidHandle_of_prototype?).guards_bind
      fun _ _ => .of_ok rfl
  · exact .throwTypeError _

/-! ## Promises -/

theorem Checks.promiseSlots (promise : ObjectRef) :
    Checks (promiseSlots promise) r (r.heap.promiseSlots? promise = some ·) := by
  unfold Realm.promiseSlots
  refine (Checks.kind promise).bind fun k hk => ?_
  split
  · exact .pure (Heap.promiseSlots?_of_kind hk)
  · exact .throwTypeError _

/-- An operation that looks at a promise first, and succeeds on a promise. -/
theorem Guards.of_promise {f : PromiseSlots → RealmM α}
    (hok : ∀ slots, r.heap.promiseSlots? promise = some slots →
      ∃ a r', exec (Realm.promiseSlots promise >>= f) r = (.ok a, r')) :
    Guards (Realm.promiseSlots promise >>= f) r := by
  refine (Checks.promiseSlots promise).guards_bind fun slots hs => ?_
  obtain ⟨a, r', hexec⟩ := hok slots hs
  rw [exec_bind_of_ok (exec_promiseSlots hs)] at hexec
  exact .of_ok hexec

theorem Guards.settlePromise (promise : ObjectRef) (settlement : Settlement) :
    Guards (settlePromise promise settlement) r := by
  refine .of_promise fun slots hs => ?_
  by_cases hstate : slots.state = .pending
  · exact ⟨_, _, exec_settlePromise hs hstate settlement⟩
  · exact ⟨_, _, exec_settlePromise_of_settled hs hstate settlement⟩

theorem Guards.addReactions (promise : ObjectRef) (a : Attachment) :
    Guards (addReactions promise a.onFulfilled a.onRejected) r :=
  .of_promise fun _ hs => ⟨_, _, exec_addReactions hs a⟩

theorem Guards.promiseThen (promise : ObjectRef) (onFulfilled onRejected : Value) :
    Guards (promiseThen promise onFulfilled onRejected) r :=
  .of_promise fun _ hs => ⟨_, _, exec_promiseThen hs onFulfilled onRejected⟩

theorem Guards.markHandled (promise : ObjectRef) : Guards (markHandled promise) r :=
  .of_promise fun _ hs => ⟨_, _, exec_markHandled hs⟩

theorem Guards.resolveWithObject (promise object : ObjectRef) :
    Guards (resolveWithObject promise object) r := by
  have hget : Checks (Except.ok (ε := Value) <$> Realm.get (.object object) (.string "then")) r
      fun _ => True := by
    rw [← bind_pure_comp]
    exact (Checks.get object (.string "then")).bind fun _ _ => .pure trivial
  unfold Realm.resolveWithObject
  refine (hget.tryCatch (fun cause r' hfail => ?_) ?_).guards_bind fun method _ => ?_
  · have hexec : exec (Realm.get (.object object) (.string "then")) r =
        (r.heap.get object (.string "then"), r) := rfl
    rw [← bind_pure_comp, exec_bind, hexec] at hfail
    cases hv : r.heap.get object (.string "then") with
    | ok v =>
      rw [hv] at hfail
      cases hfail
    | error cause' =>
      rw [hv] at hfail
      cases hfail
      exact Heap.eq_invalidHandle_of_get hv
  · rfl
  · cases method with
    | error reason => exact .settlePromise promise _
    | ok method =>
      refine Checks.getThe.guards_bind fun a _ => ?_
      split
      · exact .of_ok rfl
      · exact .settlePromise promise _

theorem Guards.resolvePromise (promise : ObjectRef) (value : Value) :
    Guards (resolvePromise promise value) r := by
  rw [resolvePromise.eq_def]
  refine (Checks.promiseSlots promise).guards_bind fun slots hs => ?_
  split
  · exact .of_ok rfl
  · rename_i hstate
    split
    · rename_i object
      split
      · have hpending : slots.state = .pending := by simpa using hstate
        obtain ⟨heap, hnew, hleaves, -⟩ :=
          exec_newError Intrinsic.typeError.ref "chaining cycle detected for promise" r
        have hsettled := exec_settlePromise (r := { r with heap }) (hleaves.kept hs) hpending
          (.rejected (.object ⟨r.heap.size⟩))
        exact .of_ok ((exec_bind_of_ok hnew _).trans hsettled)
      · refine Checks.getThe.guards_bind fun a _ => ?_
        split
        · exact .addReactions object ⟨none, none, some promise⟩
        · exact .resolveWithObject promise object
    · exact .settlePromise promise _

end Realm

/-! ## Effects -/

/-- Effects that look at all they are given before they change anything. The length of an
array is not written where an element stops it from being shortened. -/
def Effect.ChecksFirst (h : Heap) : Effect → Prop
  | .get .. | .delete .. | .setCapture ..
  | .newKeyed .. | .keyedSet .. | .keyedGet .. | .keyedHas .. | .keyedDelete ..
  | .newSet .. | .setAdd .. | .setHas .. | .setDelete ..
  | .newWeakRef .. | .deref .. | .newRegistry .. | .register .. | .unregister ..
  | .newProxy .. | .proxyTarget .. | .bind ..
  | .promiseThen .. | .markHandled .. | .promiseSlots ..
  | .resolvePromise .. | .fulfillPromise .. | .rejectPromise .. => True
  | .set target key value => ¬ h.BlocksLength target key value
  | _ => False

namespace Realm

variable {r r' : Realm} {cause : Abrupt} {e : Effect}

theorem Guards.effect (he : e.ChecksFirst r.heap) : Guards e.run r := by
  cases e with
  | get target key => exact (Guards.get target key).map _
  | set target key value => exact (Guards.set he).bind_pure _
  | delete target key => exact (Guards.delete target key).bind_pure _
  | setCapture func index value => exact (Guards.setCapture func index value).bind_pure _
  | newKeyed weak => exact .of_ok rfl
  | keyedSet weak ref key value => exact (Guards.keyedSet weak ref key value).bind_pure _
  | keyedGet weak ref key => exact ((Checks.keyedGet? weak ref key).guards.bind_pure _).map _
  | keyedHas weak ref key => exact ((Checks.keyedGet? weak ref key).guards.bind_pure _).map _
  | keyedDelete weak ref key => exact (Guards.keyedDelete weak ref key).map _
  | newSet weak => exact .of_ok rfl
  | setAdd weak ref value => exact (Guards.setAdd weak ref value).bind_pure _
  | setHas weak ref value => exact (Guards.setHas weak ref value).map _
  | setDelete weak ref value => exact (Guards.setDelete weak ref value).map _
  | newWeakRef target => exact (Guards.newWeakRef target).map _
  | deref ref => exact (Guards.deref ref).map _
  | newRegistry callback => exact (Guards.newRegistry callback).map _
  | register ref target held token? => exact (Guards.register ref target held token?).bind_pure _
  | unregister ref token => exact (Guards.unregister ref token).map _
  | newProxy target handler => exact (Guards.newProxy target handler).bind_pure _
  | proxyTarget ref => exact (Guards.proxyTarget? ref).map _
  | bind target this args => exact (Guards.bind target this args).map _
  | promiseThen promise onFulfilled onRejected =>
    exact (Guards.promiseThen promise onFulfilled onRejected).map _
  | markHandled promise => exact (Guards.markHandled promise).bind_pure _
  | promiseSlots promise => exact (Checks.promiseSlots promise).guards.map _
  | resolvePromise promise value => exact (Guards.resolvePromise promise value).bind_pure _
  | fulfillPromise promise value => exact (Guards.settlePromise promise _).bind_pure _
  | rejectPromise promise reason => exact (Guards.settlePromise promise _).bind_pure _
  | _ => exact he.elim

/-- An effect that looks first, and ends abruptly, leaves the realm as it was, but for
the error that it throws. -/
theorem refuses_of_checksFirst (he : e.ChecksFirst r.heap)
    (hexec : exec e.run r = (.error cause, r')) : Refuses r cause r' :=
  Guards.effect he cause r' hexec

/-- A realm with a closure, and a registry that calls it. -/
def registering : Realm :=
  (exec (do newRegistry (.object (← newFunction "tidy" [] (.closure 0)))) {}).2

/-- The token of a registration is looked at last, and still before anything is written. -/
theorem refuses_of_checksFirst_token :
    Refuses registering (.thrown (.object ⟨registering.heap.size⟩))
      (registering.withError Intrinsic.typeError.ref "invalid value used as unregister token") :=
  refuses_of_checksFirst
    (e := .register ⟨registering.heap.size - 1⟩ (.object globalRef) .undefined (some .null))
    trivial (by decide +kernel)

end Realm
end Retention
