import Retention.Proofs.Realm.Weak
import Retention.Realm.Promise

/-!
# Promises and jobs

A promise keeps reactions that settle promises, and the jobs that settlements
bring about find the promises and functions that they need.

* `Keeps.settlePromise`, `Keeps.resolvePromise`, `Keeps.promiseThen`: promises.
* `Keeps.createResolvingFunctions`, `Keeps.callResolving`: functions that settle.
* `Keeps.takeJob`, `Keeps.takeHostWork`: what is left to be done.
-/

namespace Retention

variable {h : Heap}

/-- The slots of a promise say what its result and its reactions say. -/
theorem ObjectKind.consistent_promise_iff (p : PromiseSlots) :
    (promise p).Consistent h ↔ h.isValid p.result = true ∧
      (∀ r ∈ p.onFulfilled.toList, r.Checked h) ∧ ∀ r ∈ p.onRejected.toList, r.Checked h := by
  have hreaction : ∀ r : Reaction, r.Checked h →
      ∀ v ∈ (r.handler?.toList ++ r.derived?.toList).map Value.object, h.isValid v = true := by
    intro r hr v hv
    obtain ⟨ref, hmem, rfl⟩ := List.mem_map.mp hv
    rcases List.mem_append.mp hmem with hf | hp
    · exact Heap.isValid_of_isCallable (hr.handler ref (Option.mem_toList.mp hf))
    · exact Heap.isValid_of_builtin? (hr.derived ref (Option.mem_toList.mp hp))
  constructor
  · exact fun hk => ⟨hk.valid _ List.mem_cons_self,
      fun r hr => hk.checked r (List.mem_append_left _ hr),
      fun r hr => hk.checked r (List.mem_append_right _ hr)⟩
  · rintro ⟨hresult, hfulfilled, hrejected⟩
    have hchecked : (promise p).Checked h := fun r hr =>
      (List.mem_append.mp hr).elim (hfulfilled r) (hrejected r)
    refine ⟨fun v hv => ?_, hchecked⟩
    rcases List.mem_cons.mp hv with rfl | hv
    · exact hresult
    · obtain ⟨r, hr, hv⟩ := List.mem_flatMap.mp hv
      exact hreaction r (hchecked r hr) v hv

/-- A function is called if it can be. -/
theorem Heap.isCallable_of_callable? {v : Value} : ∀ f ∈ h.callable? v,
    h.isCallable (.object f) = true := by
  intro f hf
  obtain ⟨rfl, hc⟩ := callable?_eq_some_iff.mp hf
  exact hc

/-- The work that ends next is owed to a promise, and so are the works that
remain. -/
theorem HostWork.Consistent.next {order : HostOrder} {works rest : Queue HostWork}
    {work : HostWork} (hworks : ∀ w ∈ works.toList, w.Consistent h)
    (hnext : order.next works = some (work, rest)) :
    work.Consistent h ∧ ∀ w ∈ rest.toList, w.Consistent h := by
  have howed : ∀ w : HostWork, w.debt ∈ work.debt :: rest.toList.map HostWork.debt →
      w.Consistent h := by
    intro w hmem
    obtain ⟨w', hw', heq⟩ := List.mem_map.mp ((order.perm hnext).mem_iff.mpr hmem)
    obtain ⟨hpromise, houtcome⟩ := Prod.mk.inj heq
    exact ⟨hpromise ▸ (hworks w' hw').promise, houtcome ▸ (hworks w' hw').outcome⟩
  exact ⟨howed work List.mem_cons_self, fun w hw =>
    howed w (List.mem_cons_of_mem _ (List.mem_map_of_mem hw))⟩

namespace Realm

variable {r : Realm}

theorem promise?_eq_some {v : Value} {ref : ObjectRef} (hp : r.promise? v = some ref) :
    v = .object ref ∧ r.heap.builtin? ref = some .promise := by
  obtain ⟨hv, hk⟩ := Option.filter_eq_some_iff.mp hp
  cases v with
  | object ref' =>
    obtain rfl := Option.some.inj hv
    refine ⟨rfl, ?_⟩
    split at hk
    · rename_i slots hkind
      obtain ⟨o, ho, hslots⟩ := Heap.kind_eq_ok_iff.mp hkind
      rw [Heap.builtin?_of_object ho, hslots]
      rfl
    · cases hk
  | _ => cases hv

namespace Keeps

variable {promise : ObjectRef} {value : Value} (hr : r.Consistent)

include hr

/-! ## The queue -/

theorem enqueue {job : Job} (hj : job.work.Consistent r.heap) :
    Keeps (enqueue job) r fun _ _ => True := by
  refine modify rfl ⟨hr.heap, fun j hmem => ?_, hr.hostWork, hr.unhandled⟩ trivial
  rw [JobQueue.toList_jobs_push, List.mem_append, List.mem_singleton] at hmem
  rcases hmem with hmem | rfl
  · exact hr.jobs j hmem
  · exact hj

theorem takeJob :
    Keeps takeJob r fun job? r' => ∀ job ∈ job?, job.work.Consistent r'.heap := by
  refine modifyGet rfl ⟨hr.heap, fun j hmem => ?_, hr.hostWork, hr.unhandled⟩ fun j hj => ?_
  · exact hr.jobs j (List.mem_of_mem_tail (JobQueue.toList_jobs_pop r.jobs ▸ hmem))
  · refine hr.jobs j (List.mem_of_mem_head? ?_)
    rw [← JobQueue.pop_fst]
    exact hj

theorem chargeJob : Keeps chargeJob r fun _ _ => True := by
  have hcounted : { r with jobsRun := r.jobsRun + 1 }.Consistent :=
    ⟨hr.heap, hr.jobs, hr.hostWork, hr.unhandled⟩
  refine (modify (Q := fun _ _ => True) rfl hcounted trivial).bind fun _ r' _ hr' _ => ?_
  refine (getThe hr').bind ?_
  rintro _ _ - - ⟨rfl, rfl⟩
  split
  · exact throw hr' trivial
  · exact pure hr' trivial

theorem takeHostWork (order : HostOrder) :
    Keeps (takeHostWork order) r fun work? r' => ∀ work ∈ work?, work.Consistent r'.heap := by
  refine modifyGet ?_ ?_ ?_
  · split <;> rfl
  · split
    · rename_i hnext
      exact ⟨hr.heap, hr.jobs, (HostWork.Consistent.next hr.hostWork hnext).2, hr.unhandled⟩
    · exact hr
  · split
    · rename_i hnext
      exact fun _ hw => Option.some.inj hw ▸ (HostWork.Consistent.next hr.hostWork hnext).1
    · exact fun _ hw => absurd hw (Option.not_mem_none _)

/-! ## Promises -/

theorem newPromise :
    Keeps newPromise r fun promise r' => r'.heap.builtin? promise = some .promise :=
  (allocOf hr ((ObjectKind.consistent_promise_iff {}).mpr ⟨rfl, nofun, nofun⟩)).mono
    fun _ _ _ _ ho => Heap.builtin?_of_object ho

/-- The slots that were read, and where they can be written back. -/
theorem promiseSlots (promise : ObjectRef) :
    Keeps (promiseSlots promise) r fun slots r' => r' = r ∧
      r.heap.builtin? promise = some .promise ∧ (ObjectKind.promise slots).Consistent r.heap := by
  refine (kind hr promise).bind ?_
  rintro k _ - - ⟨rfl, o, ho, rfl⟩
  split
  · rename_i slots hk
    have hslots := (hr.heap.objects ho).kind
    have hb := Heap.builtin?_of_object ho
    rw [hk] at hslots hb
    exact pure hr ⟨rfl, hb, hslots⟩
  · exact throwTypeError hr _

theorem enqueueReaction {reaction : Reaction} {settlement : Settlement}
    (hreaction : reaction.Checked r.heap) (hv : r.heap.isValid settlement.value = true) :
    Keeps (enqueueReaction reaction settlement) r fun _ _ => True :=
  enqueue hr ⟨hreaction, hv⟩

/-- The reactions to a settlement become jobs. -/
theorem enqueueReactions {reactions : List Reaction} {settlement : Settlement}
    (hreactions : ∀ reaction ∈ reactions, reaction.Checked r.heap)
    (hv : r.heap.isValid settlement.value = true) :
    Keeps (reactions.forM (Realm.enqueueReaction · settlement)) r fun _ _ => True :=
  forM hr fun reaction hmem _ hext hr' =>
    enqueueReaction hr' ((hreactions reaction hmem).mono hext) (hext.isValid hv)

theorem settlePromise {settlement : Settlement}
    (hv : r.heap.isValid settlement.value = true) :
    Keeps (settlePromise promise settlement) r fun _ _ => True := by
  unfold Realm.settlePromise
  refine (promiseSlots hr promise).bind ?_
  rintro slots r - - ⟨rfl, hb, hslots⟩
  obtain ⟨-, hfulfilled, hrejected⟩ := (ObjectKind.consistent_promise_iff slots).mp hslots
  split
  · exact pure hr trivial
  have hsettled : (ObjectKind.promise
      { slots with
        state := settlement.state, result := settlement.value
        onFulfilled := {}, onRejected := {} }).Consistent r.heap :=
    (ObjectKind.consistent_promise_iff _).mpr
      ⟨hv, fun _ hmem => absurd hmem List.not_mem_nil, fun _ hmem => absurd hmem List.not_mem_nil⟩
  refine (setKind hr hb hsettled).bind fun _ r' hext hr' _ => ?_
  split
  · exact enqueueReactions hr' (fun reaction hmem => (hfulfilled reaction hmem).mono hext)
      (hext.isValid hv)
  · have hreject : ∀ r'', r'.heap.Extends r''.heap → r''.Consistent →
        Keeps (slots.onRejected.toList.forM (Realm.enqueueReaction · (.rejected _))) r''
          fun _ _ => True := fun r'' hext' hr'' =>
      enqueueReactions hr'' (fun reaction hmem => (hrejected reaction hmem).mono (hext.trans hext'))
        ((hext.trans hext').isValid hv)
    split
    · refine (modify (Q := fun _ _ => True) rfl ⟨hr'.heap, hr'.jobs, hr'.hostWork,
        fun p hmem => ?_⟩ trivial).bind fun _ r'' hext' hr'' _ => hreject r'' hext' hr''
      rw [Sequence.toList_push, List.mem_append, List.mem_singleton] at hmem
      rcases hmem with hmem | rfl
      · exact hr'.unhandled p hmem
      · exact hext.builtin? hb
    · exact hreject r' (.refl _) hr'

theorem forgetUnhandled (promise : ObjectRef) :
    Keeps (forgetUnhandled promise) r fun _ _ => True := by
  refine modify rfl ⟨hr.heap, hr.jobs, hr.hostWork, fun p hmem => ?_⟩ trivial
  rw [Sequence.toList_filter] at hmem
  exact hr.unhandled p (List.mem_filter.mp hmem).1

theorem addReactions {onFulfilled onRejected : Reaction} (hf : onFulfilled.Checked r.heap)
    (hj : onRejected.Checked r.heap) :
    Keeps (addReactions promise onFulfilled onRejected) r fun _ _ => True := by
  unfold Realm.addReactions
  refine (promiseSlots hr promise).bind ?_
  rintro slots r - - ⟨rfl, hb, hslots⟩
  obtain ⟨hresult, hfulfilled, hrejected⟩ := (ObjectKind.consistent_promise_iff slots).mp hslots
  have hhandled : (ObjectKind.promise { slots with handled := true }).Consistent r.heap :=
    (ObjectKind.consistent_promise_iff _).mpr ⟨hresult, hfulfilled, hrejected⟩
  have hpush : ∀ {reactions : Sequence Reaction} {new : Reaction}, new.Checked r.heap →
      (∀ old ∈ reactions.toList, old.Checked r.heap) →
      ∀ reaction ∈ (reactions.push new).toList, reaction.Checked r.heap := by
    intro reactions new hnew hold reaction hmem
    rw [Sequence.toList_push, List.mem_append, List.mem_singleton] at hmem
    exact hmem.elim (hold reaction) fun heq => heq ▸ hnew
  dsimp only
  split
  · exact setKind hr hb ((ObjectKind.consistent_promise_iff _).mpr
      ⟨hresult, hpush hf hfulfilled, hpush hj hrejected⟩)
  · exact (setKind hr hb hhandled).bind fun _ r' hext hr' _ =>
      enqueueReaction hr' (hf.mono hext) (hext.isValid hresult)
  · refine (setKind hr hb hhandled).bind fun _ r' hext hr' _ => ?_
    exact (forgetUnhandled hr' promise).bind fun _ r'' hext' hr'' _ =>
      enqueueReaction hr'' (hj.mono (hext.trans hext')) ((hext.trans hext').isValid hresult)

/-! ## Resolution -/

theorem resolveWithObject {object : ObjectRef} (hp : r.heap.builtin? promise = some .promise)
    (ho : r.heap.isValid (.object object) = true) :
    Keeps (resolveWithObject promise object) r fun _ _ => True := by
  unfold Realm.resolveWithObject
  refine bind (Q := fun method r' => ∀ v, method = .ok v ∨ method = .error v →
    r'.heap.isValid v = true) (tryCatch ((get hr).map ?_) ?_) fun method r' hext hr' hv => ?_
  · rintro v r' - - hv _ (heq | heq)
    · exact Except.ok.inj heq ▸ hv
    · cases heq
  · rintro (reason | _ | _ | _) r' - hr' hc
    · refine pure hr' ?_
      rintro _ (heq | heq)
      · cases heq
      · exact Except.error.inj heq ▸ hc
    all_goals exact throw hr' trivial
  cases method with
  | error reason => exact settlePromise hr' (hv reason (.inr rfl))
  | ok method =>
    refine (getThe hr').bind ?_
    rintro _ r' - - ⟨rfl, rfl⟩
    split
    · exact enqueue hr' ⟨hext.builtin? hp, hext.isValid ho, ‹_›⟩
    · exact settlePromise hr' (hext.isValid ho)

theorem resolvePromise (hv : r.heap.isValid value = true) :
    Keeps (resolvePromise promise value) r fun _ _ => True := by
  unfold Realm.resolvePromise
  refine (promiseSlots hr promise).bind ?_
  rintro slots r - - ⟨rfl, hb, -⟩
  split
  · exact pure hr trivial
  split
  · rename_i object
    split
    · exact (newError hr (hr.heap.intrinsics .typeError) _).bind fun reason r' _ hr' hreason =>
        settlePromise hr' hreason
    · refine (getThe hr).bind ?_
      rintro _ r - - ⟨rfl, rfl⟩
      have hreaction : Reaction.Checked r.heap { handler? := none, derived? := some promise } :=
        ⟨nofun, fun p hp => Option.some.inj hp ▸ hb⟩
      split
      · exact addReactions hr hreaction hreaction
      · exact resolveWithObject hr hb hv
  · exact settlePromise hr hv

theorem rejectPromise (hv : r.heap.isValid value = true) :
    Keeps (rejectPromise promise value) r fun _ _ => True :=
  settlePromise hr hv

theorem promiseResolve (hv : r.heap.isValid value = true) :
    Keeps (promiseResolve value) r fun promise r' => r'.heap.isValid (.object promise) = true := by
  unfold Realm.promiseResolve
  refine (getThe hr).bind ?_
  rintro _ r - - ⟨rfl, rfl⟩
  split
  · rename_i hp
    exact pure hr (Heap.isValid_of_builtin? (promise?_eq_some hp).2)
  · refine (newPromise hr).bind fun promise r' hext hr' hb => ?_
    exact (resolvePromise hr' (hext.isValid hv)).bind fun _ r'' hext' hr'' _ =>
      pure hr'' (hext'.isValid (Heap.isValid_of_builtin? hb))

theorem promiseThen (promise : ObjectRef) (onFulfilled onRejected : Value) :
    Keeps (promiseThen promise onFulfilled onRejected) r fun derived r' =>
      r'.heap.isValid (.object derived) = true := by
  unfold Realm.promiseThen
  refine (promiseSlots hr promise).bind ?_
  rintro - r - - ⟨rfl, -⟩
  refine (newPromise hr).bind fun derived r' _ hr' hb => ?_
  refine (getThe hr').bind ?_
  rintro _ r' - - ⟨rfl, rfl⟩
  have hreaction : ∀ handler : Value, Reaction.Checked r'.heap
      { handler? := r'.heap.callable? handler, derived? := some derived } := fun handler =>
    ⟨Heap.isCallable_of_callable?, fun p hp => Option.some.inj hp ▸ hb⟩
  exact (addReactions hr' (hreaction _) (hreaction _)).bind fun _ r'' hext hr'' _ =>
    pure hr'' (hext.isValid (Heap.isValid_of_builtin? hb))

theorem markHandled (promise : ObjectRef) : Keeps (markHandled promise) r fun _ _ => True := by
  unfold Realm.markHandled
  refine (promiseSlots hr promise).bind ?_
  rintro slots r - - ⟨rfl, hb, hslots⟩
  have hhandled := (ObjectKind.consistent_promise_iff { slots with handled := true }).mpr
    ((ObjectKind.consistent_promise_iff slots).mp hslots)
  exact (setKind hr hb hhandled).bind fun _ _ _ hr' _ => forgetUnhandled hr' promise

/-! ## Functions that settle a promise -/

theorem createResolvingFunctions (hp : r.heap.isValid (.object promise) = true) :
    Keeps (createResolvingFunctions promise) r fun pair r' =>
      r'.heap.isValid (.object pair.1) = true ∧ r'.heap.isValid (.object pair.2) = true := by
  unfold Realm.createResolvingFunctions
  refine (modifyGet (Q := fun _ _ => True) rfl ⟨hr.heap, hr.jobs, hr.hostWork, hr.unhandled⟩
    trivial).bind fun latch r₁ hext₁ hr₁ _ => ?_
  have hcaptures : ∀ {h : Heap}, r₁.heap.Extends h →
      ∀ b ∈ [({ name := "promise", value := .object promise } : Binding)],
        h.isValid b.value = true := by
    intro h hext b hb
    rw [List.mem_singleton.mp hb]
    exact hext.isValid (hext₁.isValid hp)
  refine (newFunction hr₁ (hcaptures (.refl _))).bind fun resolve r₂ hext₂ hr₂ hresolve => ?_
  refine (newFunction hr₂ (hcaptures hext₂)).bind fun reject r₃ hext₃ hr₃ hreject => ?_
  exact pure hr₃ ⟨hext₃.isValid (Heap.isValid_of_builtin? hresolve),
    Heap.isValid_of_builtin? hreject⟩

theorem newCapability :
    Keeps newCapability r fun triple r' => r'.heap.isValid (.object triple.1) = true ∧
      r'.heap.isValid (.object triple.2.1) = true ∧
      r'.heap.isValid (.object triple.2.2) = true := by
  refine (newPromise hr).bind fun promise r' _ hr' hb => ?_
  have hp := Heap.isValid_of_builtin? hb
  refine (createResolvingFunctions hr' hp).bind fun pair r'' hext hr'' hpair => ?_
  exact pure hr'' ⟨hext.isValid hp, hpair⟩

theorem callResolving {latch : Nat} {settle : ObjectRef → Value → RealmM Unit}
    {captured : Value}
    (hsettle : ∀ promise r', r'.Consistent → r'.heap.isValid value = true →
      Keeps (settle promise value) r' fun _ _ => True)
    (hv : r.heap.isValid value = true) :
    Keeps (callResolving latch settle captured value) r fun _ _ => True := by
  unfold Realm.callResolving
  refine (getThe hr).bind ?_
  rintro _ r - - ⟨rfl, rfl⟩
  split
  · exact pure hr trivial
  refine (modify (Q := fun _ _ => True) rfl ⟨hr.heap, hr.jobs, hr.hostWork, hr.unhandled⟩
    trivial).bind fun _ r' hext hr' _ => ?_
  split
  · exact hsettle _ r' hr' (hext.isValid hv)
  · exact pure hr' trivial

/-! ## Promises of the host -/

theorem promiseFromHost {polls : Nat} {outcome : HostOutcome} (ho : outcome.IsValid r.heap) :
    Keeps (promiseFromHost polls outcome) r fun promise r' =>
      r'.heap.isValid (.object promise) = true := by
  refine (newPromise hr).bind fun promise r' hext hr' hb => ?_
  refine (modify (Q := fun _ r'' => r''.heap.isValid (.object promise) = true) rfl
    ⟨hr'.heap, hr'.jobs, fun w hmem => ?_, hr'.unhandled⟩ (Heap.isValid_of_builtin? hb)).bind
    fun _ r'' _ hr'' hp => pure hr'' hp
  rw [Queue.toList_push, List.mem_append, List.mem_singleton] at hmem
  rcases hmem with hmem | rfl
  · exact hr'.hostWork w hmem
  · exact ⟨hb, ho.mono hext⟩

theorem settleFromHost {outcome : HostOutcome} (ho : outcome.IsValid r.heap) :
    Keeps (settleFromHost promise outcome) r fun _ _ => True := by
  unfold Realm.settleFromHost
  split
  · rename_i value
    exact resolvePromise hr (Heap.isValid_of_primitive (by cases value <;> rfl))
  · exact settlePromise hr ho
  · rename_i cause hcause
    exact throw hr ho
  · exact (newError hr (hr.heap.intrinsics .typeError) _).bind fun reason r' _ hr' hreason =>
      settlePromise hr' hreason

end Keeps
end Realm
end Retention
