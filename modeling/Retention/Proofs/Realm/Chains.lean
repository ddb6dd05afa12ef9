import Retention.Proofs.Realm.Outcomes

/-!
# Chains of promises

A link passes the settlement of one promise on to another: the other promise was
derived with handlers that cannot be called, or it was resolved with the first
(`Realm.Links`). Both attach the same reactions (`Attachment.passOn`). The links
of a chain can be built in any order, before and after its first promise is
settled (`Realm.Builds`).

* `Realm.Chained`: a chain of which the first promises are settled.
* `Chained.attach`, `Chained.settle`, `Chained.aside`: what can happen to it.
* `Builds.chained`: a chain that was built, and the job that it waits for.
-/

namespace Retention

/-- A promise is pending, and these attachments wait for its settlement. -/
structure PromiseSlots.Awaits (slots : PromiseSlots) (attachments : List Attachment) : Prop where
  state : slots.state = .pending
  onFulfilled : slots.onFulfilled.toList = attachments.map Attachment.onFulfilled
  onRejected : slots.onRejected.toList = attachments.map Attachment.onRejected

namespace PromiseSlots.Awaits

variable {slots : PromiseSlots} {attachments : List Attachment}

/-- A new promise. -/
theorem nil : ({} : PromiseSlots).Awaits [] := ⟨rfl, rfl, rfl⟩

theorem handled (h : slots.Awaits attachments) (handled : Bool) :
    { slots with handled }.Awaits attachments :=
  ⟨h.state, h.onFulfilled, h.onRejected⟩

theorem attach (h : slots.Awaits attachments) (a : Attachment) :
    (slots.after (.attach a)).Awaits (attachments ++ [a]) := by
  constructor <;> simp [after, h.state, h.onFulfilled, h.onRejected]

/-- What waits for a settlement becomes due. -/
theorem due (h : slots.Awaits attachments) (settlement : Settlement) :
    slots.due (.settle settlement) = attachments.map (·.job settlement) := by
  cases settlement <;> simp [PromiseSlots.due, reactions, h.onFulfilled, h.onRejected,
    Attachment.job]

end PromiseSlots.Awaits

namespace Realm

variable {r r' : Realm} {p q promise : ObjectRef} {slots : PromiseSlots}
  {settlement : Settlement} {chain : List ObjectRef} {built : List Nat}

/-- The jobs that wait to be run, the next one first. -/
def waiting (r : Realm) : List Job := r.jobs.jobs.toList.map QueuedJob.toJob

theorem waiting_acted (r : Realm) (promise : ObjectRef) (slots : PromiseSlots) (act : PromiseAct) :
    (r.acted promise slots act).waiting = r.waiting ++ slots.due act :=
  toList_pushAll r.jobs (slots.due act)

/-! ## Links -/

/-- A link from a promise to the next one. -/
inductive Links (p q : ObjectRef) (r r' : Realm) : Prop where
  /-- The next promise was derived, with handlers that cannot be called. -/
  | derived (onFulfilled onRejected : Value) (fulfilled : r.heap.isCallable onFulfilled = false)
    (rejected : r.heap.isCallable onRejected = false)
    (happens : exec (promiseThen p onFulfilled onRejected) r = (.ok q, r'))
  /-- The next promise was resolved with a promise. -/
  | adopted (there : ∃ slots, r.heap.promiseSlots? p = some slots)
    (happens : exec (resolvePromise q (.object p)) r = (.ok (), r'))

/-! ## Chains -/

/-- Something else happened than what concerns a chain: its promises may be made,
or marked as handled, but are left alone otherwise, and so are the jobs. -/
structure LeavesChain (chain : List ObjectRef) (r r' : Realm) : Prop where
  kept : ∀ {p slots}, p ∈ chain → r.heap.promiseSlots? p = some slots →
    ∃ handled, r'.heap.promiseSlots? p = some { slots with handled }
  new : ∀ {p slots}, p ∈ chain → r.heap.promiseSlots? p = none →
    r'.heap.promiseSlots? p = some slots → slots.Awaits []
  waiting : r'.waiting = r.waiting
  options : r'.options = r.options

/-- A realm in which a chain is being built: the places from which there is a
link to the next promise, and whether the first promise was settled. Nothing else
waits for the promises of the chain, or waits to be run. -/
inductive Builds (chain : List ObjectRef) (settlement : Settlement) :
    List Nat → Bool → Realm → Prop
  /-- No link was built, and nothing happened to the promises that are there. -/
  | pending {r : Realm} (unlimited : r.options.jobBudget? = none) (empty : r.waiting = [])
    (unused : ∀ {p slots}, p ∈ chain → r.heap.promiseSlots? p = some slots → slots.Awaits []) :
    Builds chain settlement [] false r
  /-- No link was built, and the first promise was settled. -/
  | settled {r : Realm} {first : ObjectRef} (unlimited : r.options.jobBudget? = none)
    (empty : r.waiting = []) (head : chain[0]? = some first)
    (settled : r.IsSettled first settlement)
    (unused : ∀ {p slots}, p ∈ chain.tail → r.heap.promiseSlots? p = some slots →
      slots.Awaits []) :
    Builds chain settlement [] true r
  | link {built : List Nat} {started : Bool} {r r' : Realm} {i : Nat} {p q : ObjectRef}
    (before : Builds chain settlement built started r)
    (new : i ∉ built) (source : chain[i]? = some p) (target : chain[i + 1]? = some q)
    (links : Links p q r r') : Builds chain settlement (i :: built) started r'
  | settle {built : List Nat} {r r' : Realm} {first : ObjectRef}
    (before : Builds chain settlement built false r)
    (head : chain[0]? = some first)
    (happens : exec (settlePromise first settlement) r = (.ok (), r')) :
    Builds chain settlement built true r'
  | aside {built : List Nat} {started : Bool} {r r' : Realm}
    (before : Builds chain settlement built started r)
    (change : LeavesChain chain r r') : Builds chain settlement built started r'

/-- What waits for the promise at a place of a chain. -/
def attached (chain : List ObjectRef) (built : List Nat) (i : Nat) : List Attachment :=
  if i ∈ built then chain[i + 1]?.toList.map Attachment.passOn else []

/-- A chain of which so many promises are settled, the first ones. Links lead
from and to promises that are there. -/
structure Chained (chain : List ObjectRef) (settlement : Settlement) (built : List Nat)
    (count : Nat) (r : Realm) : Prop where
  unlimited : r.options.jobBudget? = none
  there : ∀ {i p}, i ∈ built → chain[i]? = some p ∨ chain[i + 1]? = some p →
    ∃ slots, r.heap.promiseSlots? p = some slots
  settled : ∀ {i p}, i < count → chain[i]? = some p → r.IsSettled p settlement
  pending : ∀ {i p slots}, count ≤ i → chain[i]? = some p →
    r.heap.promiseSlots? p = some slots → slots.Awaits (attached chain built i)

/-- A place of a chain of distinct promises is known by its promise. -/
theorem eq_of_getElem? {i j : Nat} (hdistinct : chain.Nodup) (hi : chain[i]? = some p)
    (hj : chain[j]? = some p) : i = j := by
  obtain ⟨hlt, -⟩ := List.getElem?_eq_some_iff.mp hi
  exact (List.getElem?_inj hlt hdistinct).mp (hi.trans hj.symm)

/-- A promise that was there is there after something happened to one. -/
theorem exists_promiseSlots?_acted (hs : r.heap.promiseSlots? promise = some slots)
    (act : PromiseAct) (hp : ∃ slots, r.heap.promiseSlots? p = some slots) :
    ∃ slots', (r.acted promise slots act).heap.promiseSlots? p = some slots' := by
  by_cases hne : p = promise
  · subst hne
    exact ⟨_, promiseSlots?_acted hs act⟩
  · rw [promiseSlots?_acted_of_ne hne]
    exact hp

namespace Chained

variable {count i : Nat}

/-- The jobs have no part in it. -/
theorem of_eq (h : Chained chain settlement built count r) (hheap : r'.heap = r.heap)
    (hoptions : r'.options = r.options) : Chained chain settlement built count r' where
  unlimited := by rw [hoptions, h.unlimited]
  there hi hp := by rw [hheap]; exact h.there hi hp
  settled hi hp := by
    obtain ⟨slots, hs, hsettled⟩ := h.settled hi hp
    exact ⟨slots, hheap ▸ hs, hsettled⟩
  pending hi hp hs := h.pending hi hp (hheap ▸ hs)

theorem aside (h : Chained chain settlement built count r) (hleaves : LeavesChain chain r r') :
    Chained chain settlement built count r' where
  unlimited := by rw [hleaves.options, h.unlimited]
  there {i p} hi hp := by
    obtain ⟨slots, hs⟩ := h.there hi hp
    have hmem : p ∈ chain := hp.elim List.mem_of_getElem? List.mem_of_getElem?
    obtain ⟨handled, hs'⟩ := hleaves.kept hmem hs
    exact ⟨_, hs'⟩
  settled hi hp := by
    obtain ⟨slots, hs, hsettled⟩ := h.settled hi hp
    obtain ⟨handled, hs'⟩ := hleaves.kept (List.mem_of_getElem? hp) hs
    exact ⟨_, hs', hsettled⟩
  pending {i p slots'} hi hp hs' := by
    have hmem := List.mem_of_getElem? hp
    cases hs : r.heap.promiseSlots? p with
    | none =>
      have hnot : i ∉ built := fun hbuilt => by
        obtain ⟨slots, hsome⟩ := h.there hbuilt (.inl hp)
        cases hs.symm.trans hsome
      rw [attached, if_neg hnot]
      exact hleaves.new hmem hs hs'
    | some slots =>
      obtain ⟨handled, hkept⟩ := hleaves.kept hmem hs
      obtain rfl := Option.some.inj (hkept.symm.trans hs')
      exact (h.pending hi hp hs).handled handled

/-- A link is built between two promises that are there. -/
theorem attach (h : Chained chain settlement built count r) (hdistinct : chain.Nodup)
    (hnew : i ∉ built) (hp : chain[i]? = some p) (hq : chain[i + 1]? = some q)
    (hs : r.heap.promiseSlots? p = some slots)
    (hthere : ∃ slots, r.heap.promiseSlots? q = some slots) :
    Chained chain settlement (i :: built) count (r.acted p slots (.attach (.passOn q))) where
  unlimited := h.unlimited
  there {j p'} hj hp' := by
    refine exists_promiseSlots?_acted hs _ ?_
    obtain rfl | hj := List.mem_cons.mp hj
    · obtain hp' | hp' := hp'
      · cases hp.symm.trans hp'
        exact ⟨slots, hs⟩
      · cases hq.symm.trans hp'
        exact hthere
    · exact h.there hj hp'
  settled hj hp' := (h.settled hj hp').acted hs trivial
  pending {j p' slots'} hj hp' hs' := by
    by_cases hij : j = i
    · subst hij
      cases hp.symm.trans hp'
      obtain rfl := Option.some.inj ((promiseSlots?_acted hs _).symm.trans hs')
      have hwaits := h.pending hj hp hs
      rw [attached, if_neg hnew] at hwaits
      rw [attached, if_pos List.mem_cons_self, hq]
      exact hwaits.attach (.passOn q)
    · have hne : p' ≠ p := fun heq => hij (eq_of_getElem? hdistinct hp' (heq ▸ hp))
      rw [promiseSlots?_acted_of_ne hne] at hs'
      have hsame : attached chain (i :: built) j = attached chain built j := by
        simp [attached, hij]
      rw [hsame]
      exact h.pending hj hp' hs'

/-- The next promise of a chain is settled. -/
theorem settle (h : Chained chain settlement built count r) (hdistinct : chain.Nodup)
    (hp : chain[count]? = some p) (hs : r.heap.promiseSlots? p = some slots) :
    exec (settlePromise p settlement) r = (.ok (), r.acted p slots (.settle settlement)) ∧
    Chained chain settlement built (count + 1) (r.acted p slots (.settle settlement)) ∧
    (r.acted p slots (.settle settlement)).waiting =
      r.waiting ++ (attached chain built count).map (·.job settlement) := by
  have hwaits := h.pending (Nat.le_refl count) hp hs
  refine ⟨exec_settlePromise hs hwaits.state settlement, ?_, ?_⟩
  · exact
      { unlimited := h.unlimited
        there := fun hi hp' => exists_promiseSlots?_acted hs _ (h.there hi hp')
        settled := fun {i p'} hi hp' => by
          obtain hlt | rfl := Nat.lt_succ_iff_lt_or_eq.mp hi
          · exact (h.settled hlt hp').acted hs hwaits.state
          · cases hp.symm.trans hp'
            exact isSettled_acted hs settlement
        pending := fun {i p' slots'} hi hp' hs' => by
          have hne : p' ≠ p := fun heq =>
            Nat.ne_of_lt hi (eq_of_getElem? hdistinct hp (heq ▸ hp'))
          rw [promiseSlots?_acted_of_ne hne] at hs'
          exact h.pending (Nat.le_of_succ_le hi) hp' hs' }
  · rw [waiting_acted, hwaits.due]

end Chained

/-! ## Building a chain -/

theorem LeavesChain.refl (chain : List ObjectRef) (r : Realm) : LeavesChain chain r r where
  kept {p slots} _ hs := ⟨slots.handled, hs⟩
  new _ hs hs' := by cases hs.symm.trans hs'
  waiting := rfl
  options := rfl

/-- A new promise leaves chains alone. -/
theorem leavesChain_withNewPromise (chain : List ObjectRef) (r : Realm) :
    LeavesChain chain r r.withNewPromise where
  kept {p slots} _ hs := ⟨slots.handled, Heap.promiseSlots?_alloc hs _ _⟩
  new {p slots} _ hs hs' := by
    have hleaves : r.heap.LeavesPromises (· = {}) r.withNewPromise.heap :=
      Heap.leavesPromises_alloc fun slots heq => (ObjectKind.promise.inj heq).symm
    obtain hs'' | rfl := hleaves.new hs'
    · cases hs.symm.trans hs''
    · exact .nil
  waiting := rfl
  options := rfl

/-- A link attaches the reactions that pass a settlement on. The next promise may
come into being before that. -/
theorem Links.exists_attach (h : Links p q r r') (hne : p ≠ q)
    (hq : ∀ {slots}, r.heap.promiseSlots? q = some slots → slots.state = .pending)
    (chain : List ObjectRef) :
    ∃ r₁ slots, LeavesChain chain r r₁ ∧ r₁.heap.promiseSlots? p = some slots ∧
      (∃ slots, r₁.heap.promiseSlots? q = some slots) ∧
      r' = r₁.acted p slots (.attach (.passOn q)) := by
  cases h with
  | derived onFulfilled onRejected fulfilled rejected happens =>
    obtain ⟨slots, hs⟩ := exists_promiseSlots (f := fun slots => _) happens
    obtain ⟨hq, hr'⟩ := Prod.mk.inj ((exec_promiseThen hs ..).symm.trans happens)
    obtain rfl := Except.ok.inj hq
    have hnone : r.handlers onFulfilled onRejected ⟨r.heap.size⟩ = .passOn ⟨r.heap.size⟩ := by
      simp only [handlers, Attachment.passOn, Heap.callable?, fulfilled, rejected,
        Bool.false_eq_true, if_false]
    rw [hnone] at hr'
    exact ⟨_, slots, leavesChain_withNewPromise chain r, Heap.promiseSlots?_alloc hs _ _,
      ⟨{}, Heap.promiseSlots?_eq_some_iff.mpr ⟨_, Heap.object_alloc_self .., rfl⟩⟩, hr'.symm⟩
  | adopted there happens =>
    obtain ⟨slots, hs⟩ := there
    obtain ⟨slots', hs'⟩ := exists_promiseSlots (f := fun slots => _) happens
    have hexec := exec_resolvePromise_adopt ⟨slots', hs', hq hs'⟩ hs hne
    exact ⟨r, slots, .refl chain r, hs, ⟨slots', hs'⟩,
      (congrArg Prod.snd (hexec.symm.trans happens)).symm⟩

/-- A link is built. If the promise that it leads from was settled last, a job is
due at once. -/
theorem Chained.link {count i : Nat} (h : Chained chain settlement built count r)
    (hdistinct : chain.Nodup) (hcount : count ≤ i + 1) (hnew : i ∉ built)
    (hp : chain[i]? = some p) (hq : chain[i + 1]? = some q) (hlinks : Links p q r r') :
    Chained chain settlement (i :: built) count r' ∧
      r'.waiting = r.waiting ++ if count = i + 1 then [(Attachment.passOn q).job settlement]
        else [] := by
  have hne : p ≠ q := fun heq =>
    Nat.succ_ne_self i (eq_of_getElem? hdistinct hq (heq ▸ hp))
  obtain ⟨r₁, slots, hleaves, hs, hthere, rfl⟩ :=
    hlinks.exists_attach hne (fun hs => (h.pending hcount hq hs).state) chain
  have h₁ := h.aside hleaves
  refine ⟨h₁.attach hdistinct hnew hp hq hs hthere, ?_⟩
  rw [waiting_acted, hleaves.waiting, PromiseSlots.due]
  split
  · rename_i hlast
    obtain ⟨slots', hs', hsettled⟩ := h₁.settled (hlast ▸ Nat.lt_succ_self i) hp
    obtain rfl := Option.some.inj (hs.symm.trans hs')
    rw [hsettled]
    rfl
  · rename_i hlast
    have hpending := h₁.pending (Nat.le_of_lt_succ (Nat.lt_of_le_of_ne hcount hlast)) hp hs
    rw [PromiseSlots.settlement?_eq_none_iff.mpr hpending.state]
    rfl

/-- The job that is due when a promise of a chain was settled. -/
theorem attached_of_mem {i : Nat} (hi : i ∈ built) (hq : chain[i + 1]? = some q) :
    attached chain built i = [.passOn q] := by
  rw [attached, if_pos hi, hq]
  rfl

/-- What was built is a chain. Nothing waits to be run but what the first promise
passes on. -/
theorem Builds.chained {started : Bool} (hdistinct : chain.Nodup)
    (h : Builds chain settlement built started r) :
    Chained chain settlement built started.toNat r ∧
      r.waiting = if started then (attached chain built 0).map (·.job settlement) else [] := by
  induction h with
  | pending unlimited empty unused =>
    refine ⟨⟨unlimited, nofun, nofun, fun _ hp hs => ?_⟩, empty⟩
    exact unused (List.mem_of_getElem? hp) hs
  | @settled r first unlimited empty head settled unused =>
    refine ⟨⟨unlimited, nofun, fun {i p} hi hp => ?_, fun {i p slots} hi hp hs => ?_⟩, empty⟩
    · obtain rfl := Nat.lt_one_iff.mp hi
      cases head.symm.trans hp
      exact settled
    · have htail : chain.tail[i - 1]? = some p := by
        rw [List.getElem?_tail, Nat.sub_add_cancel (show 1 ≤ i from hi), hp]
      exact unused (List.mem_of_getElem? htail) hs
  | @link built started r r' i p q before new source target links ih =>
    obtain ⟨hchained, hwaiting⟩ := ih
    have hcount : started.toNat ≤ i + 1 := Nat.le_trans started.toNat_le (Nat.le_add_left 1 i)
    obtain ⟨hlinked, hwaits⟩ := hchained.link hdistinct hcount new source target links
    refine ⟨hlinked, ?_⟩
    rw [hwaits, hwaiting]
    cases started with
    | false => rfl
    | true =>
      by_cases hi : i = 0
      · subst hi
        rw [attached, if_neg new, attached_of_mem List.mem_cons_self target]
        rfl
      · have hsame : attached chain (i :: built) 0 = attached chain built 0 := by
          simp [attached, Ne.symm hi]
        have hlater : (true.toNat = i + 1) = False := eq_false (by simp; omega)
        simp only [hsame, hlater, if_false, List.append_nil]
  | @settle built r r' first before head happens ih =>
    obtain ⟨hchained, hwaiting⟩ := ih
    obtain ⟨slots, hs, -⟩ := exists_promiseSlots_of_settlePromise happens
    obtain ⟨hexec, hsettled, hwaits⟩ := hchained.settle hdistinct head hs
    obtain rfl := congrArg Prod.snd (hexec.symm.trans happens)
    rw [hwaiting] at hwaits
    exact ⟨hsettled, hwaits⟩
  | aside before change ih =>
    obtain ⟨hchained, hwaiting⟩ := ih
    exact ⟨hchained.aside change, change.waiting.trans hwaiting⟩

end Realm
end Retention
