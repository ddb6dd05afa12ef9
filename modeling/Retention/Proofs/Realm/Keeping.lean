import Retention.Proofs.Heap.PropertyTable

/-!
# Operations that keep a realm consistent

A realm is consistent if its heap is, and if what is left to be done leads to
the promises and functions it needs (`Realm.Consistent`). An operation keeps a
realm consistent if it ends in a consistent realm whose heap extends the one it
started with, whether it throws or not (`Realm.Keeps`).

* `Keeps.bind`, `Keeps.tryCatch`, `Keeps.forM`: operations put together.
* `Keeps.kind`, `Keeps.update`, `Keeps.alloc`, …: what operations are made of.
* `Keeps.throwTypeError`: an operation that throws.
-/

namespace Retention

variable {α β : Type} {h h' : Heap}

/-! ## Consistent realms -/

/-- A thrown value leads somewhere. -/
def Abrupt.IsValid (h : Heap) : Abrupt → Prop
  | .thrown v => h.isValid v = true
  | .invalidHandle | .outOfFuel | .broken _ => True

/-- A value that the host throws leads somewhere. -/
def HostFailure.IsValid (h : Heap) : HostFailure → Prop
  | .abrupt cause => cause.IsValid h
  | .argumentType .. | .message _ => True

/-- What the host hands over leads somewhere. -/
def HostOutcome.IsValid (h : Heap) : HostOutcome → Prop
  | .completed _ => True
  | .failed failure => failure.IsValid h

/-- The work of a job finds what it needs. -/
def Work.Consistent (h : Heap) : Work → Prop
  | .react reaction settlement => reaction.Checked h ∧ h.isValid settlement.value = true
  | .adopt promise thenable method =>
    h.builtin? promise = some .promise ∧ h.isValid thenable = true ∧ h.isCallable method = true
  | .settle promise outcome => h.builtin? promise = some .promise ∧ outcome.IsValid h
  | .code _ => True

/-- The host owes an outcome to a promise. -/
structure HostWork.Consistent (h : Heap) (w : HostWork) : Prop where
  promise : h.builtin? w.promise = some .promise
  outcome : w.outcome.IsValid h

/-- A realm whose heap is consistent, and whose deferred work finds what it
needs. -/
structure Realm.Consistent (r : Realm) : Prop where
  heap : r.heap.Consistent
  jobs : ∀ job ∈ r.jobs.jobs.toList, job.work.Consistent r.heap
  hostWork : ∀ work ∈ r.hostWork.toList, work.Consistent r.heap
  unhandled : ∀ promise ∈ r.unhandled.toList, r.heap.builtin? promise = some .promise

/-- A fresh realm is consistent. -/
theorem Realm.consistent_fresh (options : Options) : ({ options } : Realm).Consistent where
  heap := Heap.consistent_initial
  jobs _ hj := absurd hj List.not_mem_nil
  hostWork _ hw := absurd hw List.not_mem_nil
  unhandled _ hp := absurd hp List.not_mem_nil

/-- Looking for an object throws nothing. -/
theorem Heap.isValid_of_object_eq_error {ref : ObjectRef} {cause : Abrupt}
    (ho : h.object ref = .error cause) : cause.IsValid h' := by
  rw [eq_invalidHandle_of_object ho]
  trivial

section Extension

variable (hext : h.Extends h')

include hext

theorem Abrupt.IsValid.mono {cause : Abrupt} (hc : cause.IsValid h) : cause.IsValid h' := by
  cases cause with
  | thrown v => exact hext.isValid hc
  | _ => trivial

theorem HostFailure.IsValid.mono {failure : HostFailure} (hf : failure.IsValid h) :
    failure.IsValid h' := by
  cases failure with
  | abrupt cause => exact Abrupt.IsValid.mono hext hf
  | _ => trivial

theorem HostOutcome.IsValid.mono {outcome : HostOutcome} (ho : outcome.IsValid h) :
    outcome.IsValid h' := by
  cases outcome with
  | completed value => trivial
  | failed failure => exact HostFailure.IsValid.mono hext ho

theorem Work.Consistent.mono {work : Work} (hw : work.Consistent h) : work.Consistent h' := by
  cases work with
  | react reaction settlement => exact ⟨hw.1.mono hext, hext.isValid hw.2⟩
  | adopt promise thenable method =>
    exact ⟨hext.builtin? hw.1, hext.isValid hw.2.1, hext.isCallable hw.2.2⟩
  | settle promise outcome => exact ⟨hext.builtin? hw.1, HostOutcome.IsValid.mono hext hw.2⟩
  | code code => trivial

theorem HostWork.Consistent.mono {work : HostWork} (hw : work.Consistent h) :
    work.Consistent h' :=
  ⟨hext.builtin? hw.promise, HostOutcome.IsValid.mono hext hw.outcome⟩

end Extension

namespace Realm

/-- A realm stays consistent when its heap is extended. -/
theorem Consistent.withHeap {r : Realm} (hr : r.Consistent) (hext : r.heap.Extends h)
    (hh : h.Consistent) : { r with heap := h }.Consistent where
  heap := hh
  jobs job hj := (hr.jobs job hj).mono hext
  hostWork work hw := (hr.hostWork work hw).mono hext
  unhandled promise hp := hext.builtin? (hr.unhandled promise hp)

/-! ## Operations -/

/-- What an operation answers, or why it ends abruptly, and the realm it leaves. -/
def exec (m : RealmM α) (r : Realm) : Except Abrupt α × Realm := m.run.run r

theorem exec_bind (m : RealmM α) (f : α → RealmM β) (r : Realm) :
    exec (m >>= f) r =
      match exec m r with
      | (.ok a, r') => exec (f a) r'
      | (.error cause, r') => (.error cause, r') := by
  show (ExceptT.bindCont f (exec m r).1 : StateM Realm _).run (exec m r).2 = _
  rcases exec m r with ⟨_ | _, _⟩ <;> rfl

theorem exec_tryCatch (m : RealmM α) (handler : Abrupt → RealmM α) (r : Realm) :
    exec (tryCatch m handler) r =
      match exec m r with
      | (.ok a, r') => (.ok a, r')
      | (.error cause, r') => exec (handler cause) r' := by
  unfold exec
  rw [ExceptT.run_tryCatch, StateT.run_bind]
  cases m.run.run r with
  | mk outcome r' => cases outcome <;> rfl

/-- An operation ends in a consistent realm whose heap extends the one before.
What it answers satisfies `Q`, and what it throws leads somewhere. -/
def Keeps (m : RealmM α) (r : Realm) (Q : α → Realm → Prop) : Prop :=
  match exec m r with
  | (.ok a, r') => r.heap.Extends r'.heap ∧ r'.Consistent ∧ Q a r'
  | (.error cause, r') => r.heap.Extends r'.heap ∧ r'.Consistent ∧ cause.IsValid r'.heap

namespace Keeps

variable {m : RealmM α} {r : Realm} {Q : α → Realm → Prop}

theorem bind {f : α → RealmM β} {Q' : β → Realm → Prop} (hm : Keeps m r Q)
    (hf : ∀ a r', r.heap.Extends r'.heap → r'.Consistent → Q a r' → Keeps (f a) r' Q') :
    Keeps (m >>= f) r Q' := by
  unfold Keeps at hm ⊢
  rw [exec_bind]
  cases he : exec m r with
  | mk outcome r' =>
    rw [he] at hm
    cases outcome with
    | error cause => exact hm
    | ok a =>
      have hfa := hf a r' hm.1 hm.2.1 hm.2.2
      unfold Keeps at hfa
      show match exec (f a) r' with
        | (.ok b, r'') => r.heap.Extends r''.heap ∧ r''.Consistent ∧ Q' b r''
        | (.error cause, r'') => r.heap.Extends r''.heap ∧ r''.Consistent ∧ cause.IsValid r''.heap
      split at hfa <;> exact ⟨hm.1.trans hfa.1, hfa.2⟩

theorem mono {Q' : α → Realm → Prop} (hm : Keeps m r Q)
    (hQ : ∀ a r', r.heap.Extends r'.heap → r'.Consistent → Q a r' → Q' a r') : Keeps m r Q' := by
  unfold Keeps at hm ⊢
  split at hm
  · exact ⟨hm.1, hm.2.1, hQ _ _ hm.1 hm.2.1 hm.2.2⟩
  · exact hm

/-- What is kept depends on what an operation does in the realm only. -/
theorem congr {m' : RealmM α} (hm : Keeps m r Q) (he : exec m' r = exec m r) : Keeps m' r Q := by
  unfold Keeps at hm ⊢
  rwa [he]

theorem pure (hr : r.Consistent) {a : α} (ha : Q a r) : Keeps (pure a) r Q := ⟨.refl _, hr, ha⟩

theorem map {f : α → β} {Q' : β → Realm → Prop} (hm : Keeps m r Q)
    (hf : ∀ a r', r.heap.Extends r'.heap → r'.Consistent → Q a r' → Q' (f a) r') :
    Keeps (f <$> m) r Q' := by
  rw [← bind_pure_comp]
  exact hm.bind fun a r' hext hr' ha => pure hr' (hf a r' hext hr' ha)

theorem tryCatch {handler : Abrupt → RealmM α} (hm : Keeps m r Q)
    (hcatch : ∀ cause r', r.heap.Extends r'.heap → r'.Consistent → cause.IsValid r'.heap →
      Keeps (handler cause) r' Q) : Keeps (tryCatch m handler) r Q := by
  unfold Keeps at hm ⊢
  rw [exec_tryCatch]
  cases he : exec m r with
  | mk outcome r' =>
    rw [he] at hm
    cases outcome with
    | ok a => exact hm
    | error cause =>
      have hc := hcatch cause r' hm.1 hm.2.1 hm.2.2
      unfold Keeps at hc
      show match exec (handler cause) r' with
        | (.ok b, r'') => r.heap.Extends r''.heap ∧ r''.Consistent ∧ Q b r''
        | (.error cause, r'') => r.heap.Extends r''.heap ∧ r''.Consistent ∧ cause.IsValid r''.heap
      split at hc <;> exact ⟨hm.1.trans hc.1, hc.2⟩

/-- A change of the realm that leaves its heap as it is. -/
theorem modifyGet {f : Realm → α × Realm} (hheap : (f r).2.heap = r.heap)
    (hf : (f r).2.Consistent) (hQ : Q (f r).1 (f r).2) : Keeps (modifyGetThe Realm f) r Q := by
  have hext : r.heap.Extends (f r).2.heap := by
    rw [hheap]
    exact .refl _
  exact ⟨hext, hf, hQ⟩

theorem modify {f : Realm → Realm} {Q : Unit → Realm → Prop} (hheap : (f r).heap = r.heap)
    (hf : (f r).Consistent) (hQ : Q () (f r)) : Keeps (modifyThe Realm f) r Q :=
  modifyGet hheap hf hQ

variable (hr : r.Consistent)

include hr

theorem throw {cause : Abrupt} (hc : cause.IsValid r.heap) : Keeps (throw cause) r Q :=
  ⟨.refl _, hr, hc⟩

theorem getThe : Keeps (getThe Realm) r fun a r' => a = r ∧ r' = r := ⟨.refl _, hr, rfl, rfl⟩

/-- An operation for each item of a list. -/
theorem forM {items : List α} {f : α → RealmM Unit}
    (hf : ∀ a ∈ items, ∀ r', r.heap.Extends r'.heap → r'.Consistent →
      Keeps (f a) r' fun _ _ => True) : Keeps (items.forM f) r fun _ _ => True := by
  induction items generalizing r with
  | nil => exact pure hr trivial
  | cons a rest ih =>
    refine (hf a List.mem_cons_self r (.refl _) hr).bind fun _ r' hext hr' _ => ih hr' ?_
    exact fun b hb r'' hext' hr'' => hf b (List.mem_cons_of_mem a hb) r'' (hext.trans hext') hr''

/-! ## The heap -/

theorem readHeap {read : Heap → Except Abrupt α}
    (hfail : ∀ cause, read r.heap = .error cause → cause.IsValid r.heap) :
    Keeps (readHeap read) r fun a r' => r' = r ∧ read r.heap = .ok a := by
  show match (read r.heap, r) with
    | (.ok a, r') => _
    | (.error cause, r') => _
  cases hread : read r.heap with
  | ok a => exact ⟨.refl _, hr, rfl, rfl⟩
  | error cause => exact ⟨.refl _, hr, hfail cause hread⟩

/-- A change of the heap that may fail. -/
theorem changeHeap {change : Heap → Except Abrupt α × Heap}
    (hext : r.heap.Extends (change r.heap).2) (hh : (change r.heap).2.Consistent)
    (hok : ∀ a, (change r.heap).1 = .ok a → Q a { r with heap := (change r.heap).2 })
    (hfail : ∀ cause, (change r.heap).1 = .error cause → cause.IsValid (change r.heap).2) :
    Keeps (changeHeap change) r Q := by
  show match ((change r.heap).1, { r with heap := (change r.heap).2 }) with
    | (.ok a, r') => _
    | (.error cause, r') => _
  cases hout : (change r.heap).1 with
  | ok a => exact ⟨hext, hr.withHeap hext hh, hok a hout⟩
  | error cause => exact ⟨hext, hr.withHeap hext hh, hfail cause hout⟩

/-- A change of one object, which keeps its kind. -/
theorem update {ref : ObjectRef} {change : Object → α × Object}
    (hkind : ∀ {o}, r.heap.object ref = .ok o → (change o).2.kind.builtin = o.kind.builtin)
    (hchange : ∀ {o}, r.heap.object ref = .ok o → o.Consistent r.heap →
      (change o).2.Consistent r.heap) :
    Keeps (Realm.changeHeap (·.update ref change)) r fun a _ =>
      ∃ o, r.heap.object ref = .ok o ∧ a = (change o).1 := by
  refine changeHeap hr (Heap.extends_update hkind) (hr.heap.update hkind hchange)
    (fun a ha => ?_) fun cause hc => ?_
  · cases ho : r.heap.object ref with
    | ok o =>
      simp only [Heap.update, ho] at ha
      exact ⟨o, rfl, (Except.ok.inj ha).symm⟩
    | error cause =>
      simp only [Heap.update, ho] at ha
      cases ha
  · cases ho : r.heap.object ref with
    | ok o =>
      simp only [Heap.update, ho] at hc
      cases hc
    | error cause' =>
      simp only [Heap.update, ho] at hc
      exact Except.error.inj hc ▸ Heap.isValid_of_object_eq_error ho

/-- A change of the heap that makes slots. -/
theorem onHeap {change : Heap → α × Heap} (hext : r.heap.Extends (change r.heap).2)
    (hh : (change r.heap).2.Consistent)
    (hQ : Q (change r.heap).1 { r with heap := (change r.heap).2 }) : Keeps (onHeap change) r Q :=
  ⟨hext, hr.withHeap hext hh, hQ⟩

end Keeps
end Realm
end Retention
