import Retention.Proofs.Heap.Consistency
import Retention.Proofs.Realm.Changing
import Retention.Proofs.Realm.Outcomes
import Retention.Proofs.Walking

/-!
# The latches of resolving functions

The two functions that settle a promise share a latch, which the first call of
either sets before it does anything else. What else happens in a realm leaves
closures and latches as they are (`Realm.Steady`), except that captured bindings of
a closure may change. A trace tells both (`Realm.Trace`).

* `Changes.exists_trace`: whatever changes an operation makes, they leave a trace.
* `Trace.latch`: which latches are set.
* `Trace.closure`: a closure stays what it is, up to its captured bindings.
* `Realm.resolvers_of_createResolvingFunctions`: a new pair of functions.
* `Realm.exec_callResolving_of_unset`, `Realm.exec_callResolving_of_set`: the first
  call of one of them, and later ones.
-/

namespace Retention

namespace Heap

variable {h h' : Heap} {ref : ObjectRef}

/-- Every closure is left as it is. -/
structure KeepsClosures (h h' : Heap) : Prop where
  kept : ∀ {ref name behaviour captures}, h.kind ref = .ok (.function name behaviour captures) →
    h'.kind ref = .ok (.function name behaviour captures)

namespace KeepsClosures

theorem refl (h : Heap) : h.KeepsClosures h := ⟨id⟩

theorem of_keepsSlots (hkeeps : KeepsSlots .function h h') : h.KeepsClosures h' :=
  ⟨fun hk => hkeeps.kept hk rfl⟩

end KeepsClosures
end Heap

/-- What can happen to closures and latches. -/
inductive Deed where
  /-- A resolving function is called, before the others that share its latch. -/
  | latches (latch : Nat)
  /-- The captured bindings of a closure change. -/
  | rebinds (func : ObjectRef)
deriving DecidableEq, Repr

namespace Realm

variable {fresh : PromiseSlots → Prop} {host : Prop} {r r' r'' : Realm} {h : Heap}
  {deeds deeds' : List Deed}

/-- Closures and latches are left as they are. -/
structure Steady (r r' : Realm) : Prop where
  closures : r.heap.KeepsClosures r'.heap
  latches : ∀ {latch : Nat} {set}, r.latches[latch]? = some set → r'.latches[latch]? = some set

namespace Steady

theorem withHeap (hkeeps : r.heap.KeepsClosures h) : Steady r { r with heap := h } :=
  ⟨hkeeps, id⟩

/-- A change of what calls do not depend on. -/
theorem of_eq (hheap : r'.heap = r.heap) (hlatches : r'.latches = r.latches) : Steady r r' :=
  ⟨hheap ▸ .refl _, fun hl => hlatches ▸ hl⟩

end Steady

/-! ## Traces -/

/-- What happened to the closures and latches of a realm until it became another. -/
inductive Trace (r : Realm) : List Deed → Realm → Prop
  | nil : Trace r [] r
  | steady {deeds : List Deed} {r' r'' : Realm} (before : Trace r deeds r')
    (change : Steady r' r'') : Trace r deeds r''
  | latches {deeds : List Deed} {r' : Realm} {latch : Nat} (before : Trace r deeds r')
    (unset : r'.latches[latch]? = some false) :
    Trace r (deeds ++ [.latches latch]) (r'.latched latch)
  | rebinds {deeds : List Deed} {r' : Realm} {func : ObjectRef} {name : String}
    {behaviour : Behaviour} {captures captures' : List Binding} (before : Trace r deeds r')
    (there : r'.heap.kind func = .ok (.function name behaviour captures)) :
    Trace r (deeds ++ [.rebinds func])
      { r' with heap := (r'.heap.update func fun o =>
          ((), { o with kind := .function name behaviour captures' })).2 }

theorem Steady.trace (h : Steady r r') : Trace r [] r' := .steady .nil h

theorem Trace.trans (h : Trace r deeds r') (h' : Trace r' deeds' r'') :
    Trace r (deeds ++ deeds') r'' := by
  induction h' with
  | nil => rwa [List.append_nil]
  | steady _ change ih => exact ih.steady change
  | latches _ unset ih =>
    rw [← List.append_assoc]
    exact ih.latches unset
  | rebinds _ there ih =>
    rw [← List.append_assoc]
    exact ih.rebinds there

theorem Change.exists_trace (hchange : Change fresh host r r') : ∃ deeds, Trace r deeds r' := by
  cases hchange with
  | push => exact ⟨[], (Steady.withHeap (.of_keepsSlots .push)).trace⟩
  | update same =>
    exact ⟨[], (Steady.withHeap (.of_keepsSlots (.update fun {o} _ _ => same o))).trace⟩
  | setKind there plain =>
    exact ⟨[], (Steady.withHeap (.of_keepsSlots (.setKind there plain.closure))).trace⟩
  | rebind there => exact ⟨_, Trace.nil.rebinds there⟩
  | act there =>
    exact ⟨[], .steady .nil
      ⟨.of_keepsSlots (.setKind (Heap.kind_of_promiseSlots? there) nofun), id⟩⟩
  | newLatch => exact ⟨[], .steady .nil ⟨.refl _, (Heap.getElem?_push_of_some · _)⟩⟩
  | latch unset => exact ⟨_, Trace.nil.latches unset⟩
  | enqueue | tables | kept => exact ⟨[], .steady .nil (.of_eq rfl rfl)⟩

/-- Whatever changes, it leaves a trace. -/
theorem Changes.exists_trace (h : Changes fresh host r r') : ∃ deeds, Trace r deeds r' := by
  refine keeps_of_steps (P := fun r' => ∃ deeds, Trace r deeds r') ?_ ⟨[], .nil⟩ h
  rintro r' r'' ⟨deeds, htrace⟩ hchange
  obtain ⟨deeds', htrace'⟩ := hchange.exists_trace
  exact ⟨deeds ++ deeds', htrace.trans htrace'⟩

namespace Trace

/-- A closure stays what it is, and its captured bindings stay unless they are
changed. -/
theorem closure (h : Trace r deeds r') {ref : ObjectRef} {name : String} {behaviour : Behaviour}
    {captures : List Binding} (hk : r.heap.kind ref = .ok (.function name behaviour captures)) :
    ∃ captures', r'.heap.kind ref = .ok (.function name behaviour captures') ∧
      (.rebinds ref ∉ deeds → captures' = captures) := by
  induction h with
  | nil => exact ⟨captures, hk, fun _ => rfl⟩
  | steady _ change ih =>
    obtain ⟨captures', hk', hsame⟩ := ih
    exact ⟨captures', change.closures.kept hk', hsame⟩
  | latches _ unset ih =>
    obtain ⟨captures', hk', hsame⟩ := ih
    exact ⟨captures', hk', fun hnot => hsame fun hmem => hnot (List.mem_append_left _ hmem)⟩
  | @rebinds deeds r' func _ _ _ new _ there ih =>
    obtain ⟨captures', hk', hsame⟩ := ih
    by_cases hne : ref = func
    · subst hne
      cases hk'.symm.trans there
      obtain ⟨o, ho, -⟩ := Heap.kind_eq_ok_iff.mp there
      refine ⟨new, Heap.kind_of_object (Heap.object_update_of_object ho _), fun hnot => ?_⟩
      exact absurd (List.mem_append_right _ (List.mem_singleton_self _)) hnot
    · refine ⟨captures', ?_, fun hnot => hsame fun hmem => hnot (List.mem_append_left _ hmem)⟩
      rw [Heap.kind, Heap.object_update_of_ne _ _ hne]
      exact hk'

/-- A latch is set once a function is called that has it, and stays set. -/
theorem latch (h : Trace r deeds r') {latch : Nat} {set : Bool}
    (hl : r.latches[latch]? = some set) :
    r'.latches[latch]? = some (set || decide (.latches latch ∈ deeds)) := by
  induction h with
  | nil => simpa using hl
  | steady _ change ih => exact change.latches ih
  | @latches deeds r' other _ unset ih =>
    rw [latched, Array.getElem?_setIfInBounds]
    obtain ⟨hlt, -⟩ := Array.getElem?_eq_some_iff.mp ih
    by_cases heq : other = latch
    · subst heq
      simp [hlt]
    · simp [heq, ih, Ne.symm heq]
  | @rebinds deeds _ func _ _ _ _ _ there ih =>
    have hdeeds : decide (Deed.latches latch ∈ deeds ++ [Deed.rebinds func]) =
        decide (.latches latch ∈ deeds) := by simp
    rw [hdeeds]
    exact ih

end Trace

/-! ## Pairs of functions -/

/-- A function settles the promise that it captured, in the given way, unless its
latch is set. -/
def Resolves (r : Realm) (latch : Nat) (settle : ObjectRef → Value → RealmM Unit)
    (f : ObjectRef) (captured : Value) : Prop :=
  ∃ name behaviour captures, r.heap.kind f = .ok (.function name behaviour captures) ∧
    (captures.map Binding.value).getD 0 .undefined = captured ∧
    (behaviour = .resolve latch ∧ settle = resolvePromise ∨
      behaviour = .reject latch ∧ settle = rejectPromise)

/-- A function of a pair stays what it is, up to what it captured. -/
theorem Resolves.trace {latch : Nat} {settle : ObjectRef → Value → RealmM Unit} {f : ObjectRef}
    {captured : Value} (hf : r.Resolves latch settle f captured) (h : Trace r deeds r') :
    ∃ captured', r'.Resolves latch settle f captured' ∧
      (.rebinds f ∉ deeds → captured' = captured) := by
  obtain ⟨name, behaviour, captures, hk, rfl, hb⟩ := hf
  obtain ⟨captures', hk', hsame⟩ := h.closure hk
  exact ⟨_, ⟨name, behaviour, captures', hk', rfl, hb⟩, fun hnot => by rw [hsame hnot]⟩

/-- What both ways to settle a promise change. -/
theorem Resolves.changing {latch : Nat} {settle : ObjectRef → Value → RealmM Unit} {f : ObjectRef}
    {captured : Value} (hf : r.Resolves latch settle f captured) (argument : Value) :
    ∀ promise r, Changing (fun _ => True) True (settle promise argument) r
      fun _ _ => True := by
  obtain ⟨-, -, -, -, -, ⟨-, rfl⟩ | ⟨-, rfl⟩⟩ := hf
  · exact fun promise _ => .resolvePromise promise argument
  · exact fun promise _ => .settlePromise promise _

/-- Two functions that settle a promise, before either of them is called. -/
structure Resolvers (r : Realm) (promise resolve reject : ObjectRef) (latch : Nat) : Prop where
  resolve : r.Resolves latch resolvePromise resolve (.object promise)
  reject : r.Resolves latch rejectPromise reject (.object promise)
  unset : r.latches[latch]? = some false

theorem resolvers_of_createResolvingFunctions {promise resolve reject : ObjectRef}
    (hnew : exec (createResolvingFunctions promise) r = (.ok (resolve, reject), r')) :
    r'.Resolvers promise resolve reject r.latches.size := by
  have hclosure : ∀ (h : Heap) (k : ObjectKind),
      (h.alloc (some Intrinsic.function.ref) k).2.kind ⟨h.size⟩ = .ok k :=
    fun h k => Heap.kind_of_object (Heap.object_alloc_self h (some Intrinsic.function.ref) k)
  obtain ⟨hpair, rfl⟩ := Prod.mk.inj hnew
  obtain ⟨rfl, rfl⟩ := Prod.mk.inj (Except.ok.inj hpair)
  exact
    { resolve := ⟨_, _, _, Heap.KeepsSlots.push.kept (hclosure _ _) rfl, rfl, .inl ⟨rfl, rfl⟩⟩
      reject := ⟨_, _, _, hclosure _ _, rfl, .inr ⟨rfl, rfl⟩⟩
      unset := Array.getElem?_push_size }

/-! ## Calls -/

variable {latch : Nat} {settle : ObjectRef → Value → RealmM Unit} {captured argument : Value}

theorem latched_of_set (hset : r.latches[latch]? = some true) : r.latched latch = r := by
  obtain ⟨hlt, htrue⟩ := Array.getElem?_eq_some_iff.mp hset
  rw [latched, Array.setIfInBounds, dif_pos hlt, ← htrue, Array.set_getElem_self]

/-- A later call changes nothing. -/
theorem exec_callResolving_of_set (settle : ObjectRef → Value → RealmM Unit)
    (captured argument : Value) (hset : r.latches.getD latch true = true) :
    exec (callResolving latch settle captured argument) r = (.ok (), r) := by
  rw [callResolving.eq_def, exec_bind_of_ok (exec_getThe r), if_pos hset]
  rfl

/-- The first call sets the latch before it settles the promise. -/
theorem exec_callResolving_of_unset (settle : ObjectRef → Value → RealmM Unit)
    (promise : ObjectRef) (argument : Value) (hunset : r.latches[latch]? = some false) :
    exec (callResolving latch settle (.object promise) argument) r =
      exec (settle promise argument) (r.latched latch) := by
  rw [callResolving.eq_def, exec_bind_of_ok (exec_getThe r), getD_latches hunset,
    if_neg Bool.false_ne_true]
  exact exec_bind_of_ok (exec_modify _) _

/-- A call of a function whose latch is there goes on from the realm in which it
is set. -/
theorem exists_trace_of_callResolving {set : Bool} (captured : Value)
    (hl : r.latches[latch]? = some set)
    (hsettle : ∀ promise r, Changing fresh host (settle promise argument) r fun _ _ => True) :
    ∃ rest, (r.latched latch).Trace rest
      (exec (callResolving latch settle captured argument) r).2 := by
  cases set with
  | true =>
    rw [exec_callResolving_of_set _ _ _ (getD_latches hl), latched_of_set hl]
    exact ⟨[], .nil⟩
  | false =>
    rw [callResolving.eq_def, exec_bind_of_ok (exec_getThe r), getD_latches hl,
      if_neg Bool.false_ne_true, exec_bind_of_ok (exec_modify _)]
    cases captured with
    | object promise => exact (hsettle promise (r.latched latch)).1.exists_trace
    | _ => exact ⟨[], .nil⟩

end Realm
end Retention
