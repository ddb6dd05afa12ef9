import Retention.Proofs.Associations
import Retention.Proofs.Realm.Refusing

/-!
# The ledger of collections

To calls on maps and sets, a realm is a ledger: what is written in each collection,
which values can be held weakly, and which slot comes next (`Heap.ledger`). A ledger
knows by itself what a call answers, and what it leaves (`Ledger.reply`). It keeps
association lists, which know the keys as the guest does, so that the operations on
collections, whose scans stop at the first match, do what the ledger says as long as
each list has each key once (`Ledger.Distinct`).

* `Ledger.change_reply`: how a call changes a ledger.
* `Agrees.entriesOf`, `Agrees.membersOf`: the receiver of a call.
* `Agrees.call`: a call answers what the ledger says.
* `Realm.perform_eq_ledger`: any number of calls, on any number of collections.
-/

namespace Retention

/-! ## Ledgers -/

/-- A collection: its kind, and its entries in order. The members of a set are keys
without values. -/
structure Collection where
  kind : BuiltinKind
  entries : Associations

/-- The collection that internal slots are. -/
def ObjectKind.collection? : ObjectKind → Option Collection
  | map entries => some ⟨.map, Entries.associations entries⟩
  | weakMap entries => some ⟨.weakMap, Entries.associations entries⟩
  | set values => some ⟨.set, Members.associations values⟩
  | weakSet values => some ⟨.weakSet, Members.associations values⟩
  | _ => none

theorem ObjectKind.kind_of_collection? {k : ObjectKind} {c : Collection}
    (hc : k.collection? = some c) : c.kind = k.builtin := by
  cases k <;> cases hc <;> rfl

/-- What calls on collections depend on. -/
structure Ledger where
  collection? : ObjectRef → Option Collection
  /-- The values that can be held weakly, among them all objects that are there. -/
  holdable : Value → Bool
  /-- The slot that comes next. -/
  next : Nat

/-- The ledger of a heap. -/
def Heap.ledger (h : Heap) : Ledger where
  collection? ref := (h.kind ref).toOption.bind ObjectKind.collection?
  holdable := h.canBeHeldWeakly
  next := h.size

/-- A call on a collection, or one that makes a collection. -/
inductive CollectionCall where
  | newKeyed (weak : Bool)
  | set (weak : Bool) (ref : ObjectRef) (key value : Value)
  | get (weak : Bool) (ref : ObjectRef) (key : Value)
  | has (weak : Bool) (ref : ObjectRef) (key : Value)
  | delete (weak : Bool) (ref : ObjectRef) (key : Value)
  | newSet (weak : Bool)
  | add (weak : Bool) (ref : ObjectRef) (value : Value)
  | contains (weak : Bool) (ref : ObjectRef) (value : Value)
  | remove (weak : Bool) (ref : ObjectRef) (value : Value)
deriving DecidableEq, Repr

/-- The effect that a call is. -/
def CollectionCall.effect : CollectionCall → Effect
  | newKeyed weak => .newKeyed weak
  | set weak ref key value => .keyedSet weak ref key value
  | get weak ref key => .keyedGet weak ref key
  | has weak ref key => .keyedHas weak ref key
  | delete weak ref key => .keyedDelete weak ref key
  | newSet weak => .newSet weak
  | add weak ref value => .setAdd weak ref value
  | contains weak ref value => .setHas weak ref value
  | remove weak ref value => .setDelete weak ref value

/-- The collection that a call is made on. -/
def CollectionCall.receiver? : CollectionCall → Option ObjectRef
  | newKeyed _ | newSet _ => none
  | set _ ref .. | get _ ref _ | has _ ref _ | delete _ ref _ => some ref
  | add _ ref _ | contains _ ref _ | remove _ ref _ => some ref

/-- The kind of a keyed collection. -/
def BuiltinKind.keyed (weak : Bool) : BuiltinKind := if weak then .weakMap else .map

/-- The kind of a set. -/
def BuiltinKind.members (weak : Bool) : BuiltinKind := if weak then .weakSet else .set

/-- What a call answers, or why it ends abruptly, and the ledger that it leaves. -/
abbrev Reply := Except Abrupt Answer × Ledger

namespace Ledger

variable (l : Ledger)

/-- A new object takes the next slot. -/
def push (c? : Option Collection) : Ledger where
  collection? ref := if ref = ⟨l.next⟩ then c? else l.collection? ref
  holdable v := v == .object ⟨l.next⟩ || l.holdable v
  next := l.next + 1

/-- Other entries for a collection. -/
def record (ref : ObjectRef) (c : Collection) : Ledger :=
  { l with collection? := fun other => if other = ref then some c else l.collection? other }

/-- A refused call throws a new object, which is no collection, and changes nothing. -/
def refuse : Reply := (.error (.thrown (.object ⟨l.next⟩)), l.push none)

/-- The receiver of a call must be there, and be of the given kind. -/
def receive (kind : BuiltinKind) (ref : ObjectRef) (reply : Associations → Reply) : Reply :=
  if l.holdable (.object ref) then
    match l.collection? ref with
    | some c => if c.kind = kind then reply c.entries else l.refuse
    | none => l.refuse
  else (.error .invalidHandle, l)

/-- A new, empty collection. -/
def create (kind : BuiltinKind) : Reply := (.ok (.ofRef ⟨l.next⟩), l.push (some ⟨kind, []⟩))

/-- A value is stored under a key, which must be one that can be held if it is held weakly. -/
def store (weak : Bool) (kind : BuiltinKind) (ref : ObjectRef) (key value : Value) : Reply :=
  l.receive kind ref fun entries =>
    if weak && !l.holdable key then l.refuse
    else (.ok .unit, l.record ref ⟨kind, entries.set key value⟩)

/-- The value of a key is looked up. -/
def look (kind : BuiltinKind) (ref : ObjectRef) (key : Value) (answer : Option Value → Answer) :
    Reply :=
  l.receive kind ref fun entries => (.ok (answer (entries.get? key)), l)

/-- A key is removed. -/
def discard (kind : BuiltinKind) (ref : ObjectRef) (key : Value) : Reply :=
  l.receive kind ref fun entries =>
    (.ok (.bool (entries.get? key).isSome), l.record ref ⟨kind, entries.delete key⟩)

/-- What a call answers and leaves. -/
def reply : CollectionCall → Reply
  | .newKeyed weak => l.create (.keyed weak)
  | .set weak ref key value => l.store weak (.keyed weak) ref key value
  | .get weak ref key => l.look (.keyed weak) ref key fun v? => .value (v?.getD .undefined)
  | .has weak ref key => l.look (.keyed weak) ref key fun v? => .bool v?.isSome
  | .delete weak ref key => l.discard (.keyed weak) ref key
  | .newSet weak => l.create (.members weak)
  | .add weak ref value => l.store weak (.members weak) ref value .undefined
  | .contains weak ref value => l.look (.members weak) ref value fun v? => .bool v?.isSome
  | .remove weak ref value => l.discard (.members weak) ref value

/-- What some calls answer, one after the other, and the ledger that they leave. -/
def perform (l : Ledger) : List CollectionCall → List (Except Abrupt Answer) × Ledger
  | [] => ([], l)
  | call :: rest =>
    let first := l.reply call
    let others := perform first.2 rest
    (first.1 :: others.1, others.2)

/-- Every collection lists each of its keys once. -/
def Distinct : Prop := ∀ ref c, l.collection? ref = some c → c.entries.Distinct

/-- The ways in which a call changes a ledger. -/
inductive Change (call : CollectionCall) : Reply → Prop
  | still (outcome : Except Abrupt Answer) : Change call (outcome, l)
  | refused : Change call l.refuse
  | created (kind : BuiltinKind) : Change call (l.create kind)
  | written {ref : ObjectRef} {kind : BuiltinKind} {entries : Associations} (answer : Answer)
    (key value : Value) (receiver : call.receiver? = some ref)
    (before : l.collection? ref = some ⟨kind, entries⟩) :
    Change call (.ok answer, l.record ref ⟨kind, entries.set key value⟩)
  | deleted {ref : ObjectRef} {kind : BuiltinKind} {entries : Associations} (answer : Answer)
    (key : Value) (receiver : call.receiver? = some ref)
    (before : l.collection? ref = some ⟨kind, entries⟩) :
    Change call (.ok answer, l.record ref ⟨kind, entries.delete key⟩)

variable {l} {call : CollectionCall} {kind : BuiltinKind} {ref : ObjectRef}

theorem Change.receive {reply : Associations → Reply}
    (hreply : ∀ entries, l.collection? ref = some ⟨kind, entries⟩ → l.Change call (reply entries)) :
    l.Change call (l.receive kind ref reply) := by
  unfold Ledger.receive
  split
  · split
    · rename_i c hc
      split
      · rename_i hkind
        exact hreply c.entries (hkind ▸ hc)
      · exact .refused
    · exact .refused
  · exact .still _

theorem Change.look {key : Value} {answer : Option Value → Answer} :
    l.Change call (l.look kind ref key answer) :=
  .receive fun _ _ => .still _

theorem Change.store {weak : Bool} {key value : Value} (hcall : call.receiver? = some ref) :
    l.Change call (l.store weak kind ref key value) :=
  .receive fun entries hentries => by
    split
    · exact .refused
    · exact .written .unit key value hcall hentries

theorem Change.discard {key : Value} (hcall : call.receiver? = some ref) :
    l.Change call (l.discard kind ref key) :=
  .receive fun _ hentries => .deleted _ key hcall hentries

/-- Whatever is called, it changes the ledger in one of these ways. -/
theorem change_reply (l : Ledger) (call : CollectionCall) : l.Change call (l.reply call) := by
  cases call with
  | newKeyed | newSet => exact .created _
  | set | add => exact .store rfl
  | get | has | contains =>
    rw [Ledger.reply]
    exact .look
  | delete | remove => exact .discard rfl

theorem collection?_push_of_ne (hne : ref ≠ ⟨l.next⟩) (c? : Option Collection) :
    (l.push c?).collection? ref = l.collection? ref := if_neg hne

theorem collection?_record_of_ne {other : ObjectRef} (hne : ref ≠ other) (c : Collection) :
    (l.record other c).collection? ref = l.collection? ref := if_neg hne

/-- A call leaves the collections that it is not made on as they are. -/
theorem collection?_reply_of_ne (hne : call.receiver? ≠ some ref) (hthere : ref ≠ ⟨l.next⟩) :
    (l.reply call).2.collection? ref = l.collection? ref := by
  have hchange := l.change_reply call
  generalize l.reply call = reply at hchange
  cases hchange with
  | still => rfl
  | refused => exact collection?_push_of_ne hthere none
  | created => exact collection?_push_of_ne hthere _
  | written answer key value receiver | deleted answer key receiver =>
    exact collection?_record_of_ne (fun heq => hne (receiver.trans (congrArg some heq.symm))) _

/-- A call that fails leaves all collections as they are. -/
theorem collection?_reply_of_error {cause : Abrupt} (hfail : (l.reply call).1 = .error cause)
    (hthere : ref ≠ ⟨l.next⟩) : (l.reply call).2.collection? ref = l.collection? ref := by
  have hchange := l.change_reply call
  generalize l.reply call = reply at hchange hfail
  cases hchange with
  | still => rfl
  | refused => exact collection?_push_of_ne hthere none
  | created | written | deleted => cases hfail

namespace Distinct

variable (h : l.Distinct)

include h

theorem push {c? : Option Collection} (hc : ∀ c ∈ c?, c.entries.Distinct) : (l.push c?).Distinct := by
  intro ref c hfound
  simp only [Ledger.push] at hfound
  split at hfound
  · exact hc c hfound
  · exact h ref c hfound

theorem record {c : Collection} (hc : c.entries.Distinct) : (l.record ref c).Distinct := by
  intro other c' hfound
  simp only [Ledger.record] at hfound
  split at hfound
  · exact Option.some.inj hfound ▸ hc
  · exact h other c' hfound

/-- Whatever is called, each key is listed once. -/
theorem reply (call : CollectionCall) : (l.reply call).2.Distinct := by
  have hchange := l.change_reply call
  generalize l.reply call = reply at hchange
  cases hchange with
  | still => exact h
  | refused => exact h.push fun _ hc => nomatch hc
  | created => exact h.push fun _ hc => Option.some.inj hc ▸ Associations.distinct_nil
  | written answer key value receiver before => exact h.record ((h _ _ before).set key value)
  | deleted answer key receiver before => exact h.record ((h _ _ before).delete key)

end Distinct
end Ledger

/-! ## Heaps -/

namespace Heap

variable {h : Heap} {ref : ObjectRef} {o : Object} {k : ObjectKind}

theorem collection?_ledger (hk : h.kind ref = .ok k) : h.ledger.collection? ref = k.collection? := by
  simp [ledger, hk, Except.toOption]

theorem holdable_ledger (hk : h.kind ref = .ok k) : h.ledger.holdable (.object ref) = true := by
  obtain ⟨o, ho, -⟩ := kind_eq_ok_iff.mp hk
  exact isValid_object_iff.mpr ⟨o, ho⟩

theorem holdable_ledger_of_error {cause : Abrupt} (hk : h.kind ref = .error cause) :
    h.ledger.holdable (.object ref) = false := by
  refine Bool.eq_false_iff.mpr fun hheld => ?_
  obtain ⟨o, ho⟩ := isValid_object_iff.mp hheld
  exact nomatch (kind_of_object ho).symm.trans hk

/-- The object in a new slot. -/
theorem object_push_self (h : Heap) (o : Object) :
    { h with slots := h.slots.push (.object o) }.object ⟨h.size⟩ = .ok o := by
  simp [object, size]

theorem object_push_of_ne (hne : ref ≠ ⟨h.size⟩) (o : Object) :
    { h with slots := h.slots.push (.object o) }.object ref = h.object ref := by
  have hslot : ref.slot ≠ h.slots.size := fun heq => hne (congrArg ObjectRef.mk heq)
  simp only [object, Array.getElem?_push, if_neg hslot]

theorem symbol_push (h : Heap) (o : Object) (s : SymbolRef) :
    { h with slots := h.slots.push (.object o) }.symbol s = h.symbol s := by
  simp only [symbol, Array.getElem?_push]
  by_cases hslot : s.slot = h.slots.size
  · simp [hslot]
  · rw [if_neg hslot]

/-- Whether a value can be held weakly depends on what is there only. -/
theorem canBeHeldWeakly_congr {h h' : Heap} {v : Value}
    (hobject : ∀ ref, v = .object ref → h'.isObject ref = h.isObject ref)
    (hsymbol : ∀ s, h'.symbol s = h.symbol s) : h'.canBeHeldWeakly v = h.canBeHeldWeakly v := by
  cases v with
  | object ref => exact hobject ref rfl
  | symbol s => simp only [canBeHeldWeakly, hsymbol]
  | _ => rfl

/-- A new object, in the ledger. -/
theorem ledger_push (h : Heap) (o : Object) :
    { h with slots := h.slots.push (.object o) }.ledger = h.ledger.push o.kind.collection? := by
  have hcollection (ref : ObjectRef) :
      { h with slots := h.slots.push (.object o) }.ledger.collection? ref =
        (h.ledger.push o.kind.collection?).collection? ref := by
    by_cases heq : ref = ⟨h.size⟩
    · subst heq
      rw [collection?_ledger (kind_of_object (object_push_self h o))]
      exact (if_pos rfl).symm
    · have hkind : { h with slots := h.slots.push (.object o) }.kind ref = h.kind ref := by
        rw [kind, object_push_of_ne heq, kind]
      simp only [ledger, hkind, Ledger.push]
      exact (if_neg heq).symm
  have hholdable (v : Value) : { h with slots := h.slots.push (.object o) }.canBeHeldWeakly v =
      (v == .object ⟨h.size⟩ || h.canBeHeldWeakly v) := by
    by_cases heq : v = .object ⟨h.size⟩
    · rw [heq, beq_self_eq_true, Bool.true_or]
      exact isValid_object_iff.mpr ⟨o, object_push_self h o⟩
    · rw [beq_eq_false_iff_ne.mpr heq, Bool.false_or]
      refine canBeHeldWeakly_congr (fun ref hv => ?_) fun s => symbol_push h o s
      rw [isObject, object_push_of_ne (fun href => heq (hv.trans (congrArg _ href))), isObject]
  have hnext : { h with slots := h.slots.push (.object o) }.size = h.size + 1 := Array.size_push _
  rw [ledger, ledger, Ledger.push]
  exact congr (congr (congrArg Ledger.mk (funext hcollection)) (funext hholdable)) hnext

/-- Other internal slots, in the ledger. -/
theorem ledger_setKind {c : Collection} (hk : h.kind ref = .ok k) {k' : ObjectKind}
    (hc : k'.collection? = some c) :
    (h.update ref fun o => ((), { o with kind := k' })).2.ledger = h.ledger.record ref c := by
  obtain ⟨o, ho, -⟩ := kind_eq_ok_iff.mp hk
  have hself := object_update_of_object ho fun o => ((), { o with kind := k' })
  have hcollection (other : ObjectRef) :
      (h.update ref fun o => ((), { o with kind := k' })).2.ledger.collection? other =
        (h.ledger.record ref c).collection? other := by
    by_cases heq : other = ref
    · rw [heq, collection?_ledger (kind_of_object hself)]
      exact hc.trans (if_pos rfl).symm
    · have hkind : (h.update ref fun o => ((), { o with kind := k' })).2.kind other =
          h.kind other := by
        rw [kind, object_update_of_ne h _ heq, kind]
      simp only [ledger, hkind, Ledger.record, if_neg heq]
  have hholdable (v : Value) :
      (h.update ref fun o => ((), { o with kind := k' })).2.canBeHeldWeakly v =
        h.canBeHeldWeakly v := by
    refine canBeHeldWeakly_congr (fun other _ => ?_) fun s => symbol_update h ref _ s
    by_cases heq : other = ref
    · rw [heq, isObject, isObject, hself, ho]
      exact rfl
    · rw [isObject, object_update_of_ne h _ heq, isObject]
  rw [ledger, ledger, Ledger.record]
  exact congr (congr (congrArg Ledger.mk (funext hcollection)) (funext hholdable)) (size_update ..)

/-- The collections of a consistent heap list each of their keys once. -/
theorem Consistent.distinct_ledger (hh : h.Consistent) : h.ledger.Distinct := by
  intro ref c hc
  cases hk : h.kind ref with
  | error cause =>
    have hnone : (h.kind ref).toOption.bind ObjectKind.collection? = some c := hc
    rw [hk] at hnone
    cases hnone
  | ok k =>
    rw [collection?_ledger hk] at hc
    obtain ⟨o, ho, rfl⟩ := kind_eq_ok_iff.mp hk
    have hchecked := (hh.objects ho).kind.checked
    cases hkind : o.kind <;> rw [hkind] at hc hchecked <;> cases hc
    · exact Entries.distinct_associations hchecked
    · exact Members.distinct_associations hchecked
    · exact Entries.distinct_associations hchecked.1
    · exact Members.distinct_associations hchecked.1

end Heap

namespace Realm

variable {α β : Type} {r : Realm} {ref : ObjectRef} {weak : Bool} {answer : α → Answer}

/-- An operation answers and leaves what a ledger says. -/
structure Agrees (m : RealmM α) (r : Realm) (answer : α → Answer) (reply : Reply) : Prop where
  answers : (exec m r).1.map answer = reply.1
  leaves : (exec m r).2.heap.ledger = reply.2

namespace Agrees

variable {m : RealmM α} {reply : Reply}

theorem of_exec {outcome : Except Abrupt α} {r' : Realm} (hm : exec m r = (outcome, r'))
    (hanswer : outcome.map answer = reply.1) (hledger : r'.heap.ledger = reply.2) :
    Agrees m r answer reply := by
  refine ⟨?_, ?_⟩
  · rwa [hm]
  · rwa [hm]

theorem bind_pure {f : α → β} {answer : β → Answer} (hm : Agrees m r (answer ∘ f) reply) :
    Agrees (m >>= fun a => pure (f a)) r answer reply := by
  obtain ⟨hanswers, hleaves⟩ := hm
  cases he : exec m r with
  | mk outcome r' =>
    rw [he] at hanswers hleaves
    cases outcome with
    | ok a => exact .of_exec (exec_bind_of_ok he _) hanswers hleaves
    | error cause =>
      have hfail : exec (m >>= fun a => pure (f a)) r = (.error cause, r') := by rw [exec_bind, he]
      exact .of_exec hfail hanswers hleaves

theorem map {f : α → β} {answer : β → Answer} (hm : Agrees m r (answer ∘ f) reply) :
    Agrees (f <$> m) r answer reply := by
  rw [← bind_pure_comp]
  exact hm.bind_pure

theorem bind_throwTypeError (message : String) (f : β → RealmM α) :
    Agrees ((Realm.throwTypeError message : RealmM β) >>= f) r answer r.heap.ledger.refuse := by
  have hfail : exec ((Realm.throwTypeError message : RealmM β) >>= f) r =
      (.error (.thrown (.object ⟨r.heap.size⟩)), r.withError Intrinsic.typeError.ref message) := by
    rw [exec_bind, exec_throwTypeError_eq]
  exact of_exec hfail rfl (Heap.ledger_push ..)

theorem congr {m' : RealmM α} (hm : Agrees m r answer reply) (he : exec m' r = exec m r) :
    Agrees m' r answer reply := by
  refine ⟨?_, ?_⟩
  · rw [he]
    exact hm.answers
  · rw [he]
    exact hm.leaves

theorem pure {a : α} : Agrees (pure a) r answer (.ok (answer a), r.heap.ledger) := ⟨rfl, rfl⟩

/-- Other internal slots for a collection. -/
theorem setKind {k k' : ObjectKind} {c : Collection} {answer : Unit → Answer}
    (hk : r.heap.kind ref = .ok k) (hc : k'.collection? = some c) :
    Agrees (setKind ref k') r answer (.ok (answer ()), r.heap.ledger.record ref c) := by
  obtain ⟨o, ho, -⟩ := Heap.kind_eq_ok_iff.mp hk
  refine of_exec (exec_changeHeap _) ?_ (Heap.ledger_setKind hk hc)
  rw [Heap.update_of_object ho]
  exact rfl

/-- A value that is held weakly must be one that can be. -/
theorem requireIf {m : RealmM Unit} {answer : Unit → Answer} (weak : Bool) (v : Value)
    (role : String) (hm : Agrees m r answer reply) :
    Agrees (do
      if weak then Realm.requireWeaklyHoldable v role
      m) r answer (if weak && !r.heap.ledger.holdable v then r.heap.ledger.refuse else reply) := by
  cases weak with
  | false => exact hm
  | true =>
    cases hv : r.heap.canBeHeldWeakly v with
    | true =>
      have hexec : exec (requireWeaklyHoldable v role) r = (.ok (), r) := by
        rw [requireWeaklyHoldable, exec_bind_of_ok (exec_getThe r), hv]
        exact rfl
      rw [show r.heap.ledger.holdable v = true from hv]
      exact hm.congr (exec_bind_of_ok hexec _)
    | false =>
      have hexec : exec (requireWeaklyHoldable v role) r =
          exec (Realm.throwTypeError s!"invalid value used as {role}" : RealmM Unit) r := by
        rw [requireWeaklyHoldable, exec_bind_of_ok (exec_getThe r), hv]
        exact rfl
      rw [show r.heap.ledger.holdable v = false from hv]
      refine (bind_throwTypeError s!"invalid value used as {role}" fun _ : Unit => m).congr ?_
      show exec (requireWeaklyHoldable v role >>= fun _ => m) r = _
      rw [exec_bind, hexec, exec_bind]

/-! ## Receivers -/

theorem distinct_entries {entries : Sequence KeyedEntry} (hr : r.heap.ledger.Distinct)
    (hk : r.heap.kind ref = .ok (keyedKind weak entries)) :
    (Entries.associations entries).Distinct := by
  refine hr ref ⟨.keyed weak, Entries.associations entries⟩ ((Heap.collection?_ledger hk).trans ?_)
  cases weak <;> rfl

theorem distinct_members {values : Sequence Value} (hr : r.heap.ledger.Distinct)
    (hk : r.heap.kind ref = .ok (setKindOf weak values)) :
    (Members.associations values).Distinct := by
  refine hr ref ⟨.members weak, Members.associations values⟩
    ((Heap.collection?_ledger hk).trans ?_)
  cases weak <;> rfl

/-- The check of a receiver, before the rest of a call. -/
theorem receive {check : RealmM β} {f : β → RealmM α} {kind : BuiltinKind}
    {reply : Associations → Reply}
    (hinvalid : ∀ cause, r.heap.kind ref = .error cause → exec check r = (.error cause, r))
    (hother : ∀ k, r.heap.kind ref = .ok k → k.builtin ≠ kind →
      ∃ message, exec check r = exec (Realm.throwTypeError message) r)
    (hfound : ∀ k, r.heap.kind ref = .ok k → k.builtin = kind →
      ∃ b entries, exec check r = (.ok b, r) ∧ k.collection? = some ⟨kind, entries⟩ ∧
        Agrees (f b) r answer (reply entries)) :
    Agrees (check >>= f) r answer (r.heap.ledger.receive kind ref reply) := by
  unfold Ledger.receive
  cases hk : r.heap.kind ref with
  | error cause =>
    rw [Heap.holdable_ledger_of_error hk, if_neg Bool.false_ne_true]
    have hfail : exec (check >>= f) r = (.error cause, r) := by
      rw [exec_bind, hinvalid cause hk]
    exact of_exec hfail (congrArg Except.error (Heap.eq_invalidHandle_of_kind hk)) rfl
  | ok k =>
    rw [Heap.holdable_ledger hk, if_pos rfl, Heap.collection?_ledger hk]
    by_cases hkind : k.builtin = kind
    · obtain ⟨b, entries, hexec, hc, hagrees⟩ := hfound k hk hkind
      rw [hc]
      dsimp only
      rw [if_pos rfl]
      exact hagrees.congr (exec_bind_of_ok hexec f)
    · obtain ⟨message, hexec⟩ := hother k hk hkind
      have hrefused : Agrees (check >>= f) r answer r.heap.ledger.refuse :=
        (bind_throwTypeError message f).congr (by rw [exec_bind, hexec, exec_bind])
      cases hc : k.collection? with
      | none => exact hrefused
      | some c =>
        dsimp only
        rw [if_neg fun heq => hkind ((ObjectKind.kind_of_collection? hc).symm.trans heq)]
        exact hrefused

theorem exec_entriesOf_of_error {cause : Abrupt} (hk : r.heap.kind ref = .error cause) :
    exec (entriesOf weak ref) r = (.error cause, r) := by
  rw [entriesOf, exec_bind, exec_kind, hk]

theorem exec_membersOf_of_error {cause : Abrupt} (hk : r.heap.kind ref = .error cause) :
    exec (membersOf weak ref) r = (.error cause, r) := by
  rw [membersOf, exec_bind, exec_kind, hk]

theorem entriesOf {f : Sequence KeyedEntry → RealmM α} {reply : Associations → Reply}
    (hf : ∀ entries, r.heap.kind ref = .ok (keyedKind weak entries) →
      Agrees (f entries) r answer (reply (Entries.associations entries))) :
    Agrees (entriesOf weak ref >>= f) r answer
      (r.heap.ledger.receive (.keyed weak) ref reply) := by
  refine receive (fun _ => exec_entriesOf_of_error) (fun k hk hne => ?_) fun k hk hkind => ?_
  · refine ⟨s!"receiver is not a {(keyedKind weak (.ofList [])).builtin.name}", ?_⟩
    rw [Realm.entriesOf, exec_bind_of_ok (exec_kind_of_ok hk)]
    cases weak <;> cases k <;> first | rfl | exact absurd rfl hne
  · obtain ⟨entries, rfl⟩ : ∃ entries, k = keyedKind weak entries := by
      cases weak <;> cases k <;> first | exact ⟨_, rfl⟩ | cases hkind
    refine ⟨entries, Entries.associations entries, ?_, ?_, hf entries hk⟩
    · rw [Realm.entriesOf, exec_bind_of_ok (exec_kind_of_ok hk)]
      cases weak <;> rfl
    · cases weak <;> rfl

theorem membersOf {f : Sequence Value → RealmM α} {reply : Associations → Reply}
    (hf : ∀ values, r.heap.kind ref = .ok (setKindOf weak values) →
      Agrees (f values) r answer (reply (Members.associations values))) :
    Agrees (membersOf weak ref >>= f) r answer
      (r.heap.ledger.receive (.members weak) ref reply) := by
  refine receive (fun _ => exec_membersOf_of_error) (fun k hk hne => ?_) fun k hk hkind => ?_
  · refine ⟨s!"receiver is not a {(setKindOf weak (.ofList [])).builtin.name}", ?_⟩
    rw [Realm.membersOf, exec_bind_of_ok (exec_kind_of_ok hk)]
    cases weak <;> cases k <;> first | rfl | exact absurd rfl hne
  · obtain ⟨values, rfl⟩ : ∃ values, k = setKindOf weak values := by
      cases weak <;> cases k <;> first | exact ⟨_, rfl⟩ | cases hkind
    refine ⟨values, Members.associations values, ?_, ?_, hf values hk⟩
    · rw [Realm.membersOf, exec_bind_of_ok (exec_kind_of_ok hk)]
      cases weak <;> rfl
    · cases weak <;> rfl

/-! ## Calls -/

section Calls

variable (hr : r.heap.ledger.Distinct) (weak : Bool) (ref : ObjectRef) (key value : Value)

theorem keyedGet? {answer : Option Value → Answer} :
    Agrees (keyedGet? weak ref key) r answer (r.heap.ledger.look (.keyed weak) ref key answer) :=
  entriesOf fun entries _ => by
    rw [Entries.get?_associations]
    exact pure

theorem setHas {answer : Bool → Answer} :
    Agrees (setHas weak ref key) r answer
      (r.heap.ledger.look (.members weak) ref key fun v? => answer v?.isSome) :=
  membersOf fun values _ => by
    rw [← Members.isSome_get?_associations]
    exact pure

/-- A new object with the internal slots of an empty collection. -/
theorem allocOf {kind : BuiltinKind} {k : ObjectKind} (prototype : Intrinsic)
    (hk : k.collection? = some ⟨kind, []⟩) :
    Agrees (allocOf prototype k) r .ofRef (r.heap.ledger.create kind) := by
  have hexec : exec (Realm.allocOf prototype k) r =
      (.ok ⟨r.heap.size⟩, { r with heap := (r.heap.alloc (some prototype.ref) k).2 }) := rfl
  refine of_exec hexec rfl ((Heap.ledger_push r.heap _).trans ?_)
  rw [Ledger.create, ← hk]

theorem newKeyed : Agrees (newKeyed weak) r .ofRef (r.heap.ledger.create (.keyed weak)) :=
  allocOf _ (by cases weak <;> rfl)

theorem newSet : Agrees (newSet weak) r .ofRef (r.heap.ledger.create (.members weak)) :=
  allocOf _ (by cases weak <;> rfl)

theorem setAdd :
    Agrees (setAdd weak ref key) r (fun _ => .unit)
      (r.heap.ledger.store weak (.members weak) ref key .undefined) :=
  membersOf fun values hk => requireIf weak key _ <| setKind hk <| by
    rw [← Members.associations_insert]
    cases weak <;> rfl

include hr

theorem keyedSet :
    Agrees (keyedSet weak ref key value) r (fun _ => .unit)
      (r.heap.ledger.store weak (.keyed weak) ref key value) :=
  entriesOf fun entries hk => requireIf weak key _ <| setKind hk <| by
    rw [← Entries.associations_insert (distinct_entries hr hk)]
    cases weak <;> rfl

theorem keyedDelete :
    Agrees (keyedDelete weak ref key) r .bool
      (r.heap.ledger.discard (.keyed weak) ref key) :=
  entriesOf fun entries hk => by
    rw [Entries.get?_associations, ← Entries.associations_erase (distinct_entries hr hk)]
    refine bind_pure (setKind hk ?_)
    cases weak <;> rfl

theorem setDelete :
    Agrees (setDelete weak ref key) r .bool
      (r.heap.ledger.discard (.members weak) ref key) :=
  membersOf fun values hk => by
    rw [Members.isSome_get?_associations, ← Members.associations_erase (distinct_members hr hk)]
    refine bind_pure (setKind hk ?_)
    cases weak <;> rfl

/-- A call answers and leaves what the ledger says. -/
theorem call (call : CollectionCall) :
    Agrees call.effect.run r id (r.heap.ledger.reply call) := by
  cases call with
  | newKeyed weak => exact map (newKeyed weak)
  | set weak ref key value => exact bind_pure (keyedSet hr weak ref key value)
  | get weak ref key => exact map (bind_pure (keyedGet? weak ref key))
  | has weak ref key => exact map (bind_pure (keyedGet? weak ref key))
  | delete weak ref key => exact map (keyedDelete hr weak ref key)
  | newSet weak => exact map (newSet weak)
  | add weak ref value => exact bind_pure (setAdd weak ref value)
  | contains weak ref value => exact map (setHas weak ref value)
  | remove weak ref value => exact map (setDelete hr weak ref value)

end Calls
end Agrees

/-- What some calls answer, one after the other, and the realm that they leave. -/
def perform (r : Realm) : List CollectionCall → List (Except Abrupt Answer) × Realm
  | [] => ([], r)
  | call :: rest =>
    let first := exec call.effect.run r
    let others := perform first.2 rest
    (first.1 :: others.1, others.2)

/-- Whatever is called, on any number of collections, the ledger says what is answered,
and what is written in the collections afterwards. -/
theorem perform_eq_ledger (hr : r.heap.ledger.Distinct) (calls : List CollectionCall) :
    (r.perform calls).1 = (r.heap.ledger.perform calls).1 ∧
      (r.perform calls).2.heap.ledger = (r.heap.ledger.perform calls).2 := by
  induction calls generalizing r with
  | nil => exact ⟨rfl, rfl⟩
  | cons call rest ih =>
    obtain ⟨hanswers, hleaves⟩ := Agrees.call hr call
    rw [Except.map_id] at hanswers
    have hdistinct : (exec call.effect.run r).2.heap.ledger.Distinct := hleaves ▸ hr.reply call
    obtain ⟨hrest, hlast⟩ := ih hdistinct
    rw [hleaves] at hrest hlast
    exact ⟨congr (congrArg List.cons hanswers) hrest, hlast⟩

/-- Both zeros and a NaN as keys of a map, a key that a weak map refuses, and a call on
an object that is no collection. -/
def mixedCalls : List CollectionCall :=
  let map : ObjectRef := ⟨Heap.initial.size⟩
  let weakMap : ObjectRef := ⟨Heap.initial.size + 1⟩
  let negativeZero : Value := .number (.ofWord (Number.signWord true))
  [.newKeyed false, .newKeyed true, .set false map negativeZero .null,
    .set false map (.number .nan) (.bool true), .set false map (.number .zero) (.bool false),
    .set true weakMap (.number .zero) .null, .set true weakMap (.object map) .null,
    .delete false map (.number .zero), .set false map negativeZero .undefined,
    .has false map (.number .nan), .add false globalRef .null, .get true weakMap (.object map)]

theorem perform_eq_ledger_mixedCalls :
    (({} : Realm).perform mixedCalls).1 = (Heap.initial.ledger.perform mixedCalls).1 ∧
      (({} : Realm).perform mixedCalls).2.heap.ledger =
        (Heap.initial.ledger.perform mixedCalls).2 :=
  perform_eq_ledger (r := {}) Heap.consistent_initial.distinct_ledger mixedCalls

end Realm
end Retention
