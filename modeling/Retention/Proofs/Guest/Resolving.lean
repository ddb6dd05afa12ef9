import Retention.Proofs.Guest.Promises
import Retention.Proofs.Guest.Stepping
import Retention.Proofs.Realm.Latching

/-!
# The first call of a resolving function counts

Whatever guest code does leaves a trace of what happened to closures and latches
(`Machine.leavesTrace_of_walks`), so that the functions of a pair stay what they
are, and so does their latch once it is set. Hence later calls do nothing, whenever
they are made.

* `Machine.run_call_of_unset`: the first call.
* `Machine.run_call_of_set`: a later call.
* `Machine.first_call_counts`: calls in any order, and those of a thenable that is
  adopted.
-/

namespace Retention

open Relation

/-- What happened to the closures and latches of a world until it became another
left a trace. -/
def World.Traced (w w' : World) : Prop := ∃ deeds, w.realm.Trace deeds w'.realm

namespace Machine

variable {α : Type} {e : Embedding} {steps : Nat} {w w' : World}

/-- An operation leaves a trace, whatever its outcome is. -/
def LeavesTrace (m : Machine α) : Prop :=
  ∀ {w outcome w'}, m.run.run w = some (outcome, w') → w.Traced w'

/-- What changes the realm leaves a trace. -/
theorem leavesTrace_of_walks {fresh : PromiseSlots → Prop} {m : Machine α}
    (hm : Walks (World.Changes fresh) m) : LeavesTrace m := fun hrun =>
  have hchanges := World.Changes.of_steps (hm.steps hrun)
  hchanges.exists_trace

/-! ## Calls -/

variable {latch : Nat} {f promise resolve reject : ObjectRef} {captured this : Value}
  {args : List Value} {settle : ObjectRef → Value → RealmM Unit}

/-- What a call of one of two functions does. -/
theorem run_call_resolving (e : Embedding) (steps : Nat)
    (hf : w.realm.Resolves latch settle f captured) (this : Value) (args : List Value) :
    (call e (steps + 1) (.object f) this args).run.run w =
      (do
        lift (Realm.callResolving latch settle captured (args.getD 0 .undefined))
        return Value.undefined : Machine Value).run.run w := by
  obtain ⟨name, behaviour, captures, hk, rfl, hb⟩ := hf
  have hkind := Realm.exec_kind_of_ok hk
  unfold call
  obtain ⟨rfl, rfl⟩ | ⟨rfl, rfl⟩ := hb
  · exact run_bind_of_ok (run_lift_of_exec hkind)
  · exact run_bind_of_ok (run_lift_of_exec hkind)

/-- The first call sets the latch and settles the promise. -/
theorem run_call_of_unset (e : Embedding) (steps : Nat)
    (hf : w.realm.Resolves latch settle f (.object promise))
    (hunset : w.realm.latches[latch]? = some false) (this : Value) (args : List Value) :
    (call e (steps + 1) (.object f) this args).run.run w =
      (do
        lift (settle promise (args.getD 0 .undefined))
        return Value.undefined : Machine Value).run.run
          { w with realm := w.realm.latched latch } := by
  have hexec := Realm.exec_callResolving_of_unset settle promise (args.getD 0 .undefined) hunset
  have hlift : (lift (Realm.callResolving latch settle (.object promise)
        (args.getD 0 .undefined))).run.run w =
      (lift (settle promise (args.getD 0 .undefined))).run.run
        { w with realm := w.realm.latched latch } := by
    rw [run_lift, hexec]
    rfl
  rw [run_call_resolving e steps hf, ExceptT.run_bind, StateT.run_bind, hlift, ExceptT.run_bind,
    StateT.run_bind]

/-- A later call does nothing. -/
theorem run_call_of_set (e : Embedding) (steps : Nat)
    (hf : w.realm.Resolves latch settle f captured)
    (hset : w.realm.latches[latch]? = some true) (this : Value) (args : List Value) :
    (call e (steps + 1) (.object f) this args).run.run w = some (.ok .undefined, w) := by
  have hexec := Realm.exec_callResolving_of_set settle captured (args.getD 0 .undefined)
    (Realm.getD_latches hset)
  rw [run_call_resolving e steps hf, run_bind_of_ok (run_lift_of_exec hexec)]
  rfl

/-- A call goes on from the world in which the latch is set. -/
theorem exists_trace_of_call {set : Bool} {outcome : Except Abrupt Value}
    (hf : w.realm.Resolves latch settle f captured) (hl : w.realm.latches[latch]? = some set)
    (hrun : (call e steps (.object f) this args).run.run w = some (outcome, w')) :
    ∃ rest, (w.realm.latched latch).Trace rest w'.realm := by
  cases steps with
  | zero => exact nomatch hrun
  | succ steps =>
    obtain ⟨rest, hrest⟩ :=
      Realm.exists_trace_of_callResolving captured hl (hf.changing (args.getD 0 .undefined))
    rw [run_call_resolving e steps hf] at hrun
    obtain ⟨cause, realm, hexec, -, rfl⟩ | ⟨_, realm, hexec, hdone⟩ := run_lift_bind hrun
    · rw [hexec] at hrest
      exact ⟨rest, hrest⟩
    · obtain ⟨-, rfl⟩ := Prod.mk.inj (Option.some.inj hdone)
      rw [hexec] at hrest
      exact ⟨rest, hrest⟩

/-- What calls of one of two functions do, in every world that a trace leads to from
the realm in which they were made. -/
structure Calls (e : Embedding) (r : Realm) (promise : ObjectRef) (latch : Nat)
    (settle : ObjectRef → Value → RealmM Unit) (f : ObjectRef) : Prop where
  /-- The promise is captured unless the binding was reassigned. -/
  captured : ∀ {before} {w : World}, r.Trace before w.realm → .rebinds f ∉ before →
    w.realm.Resolves latch settle f (.object promise)
  /-- Before any other call, a call sets the latch, and only then settles the promise. -/
  first : ∀ {before} {w : World}, r.Trace before w.realm → .latches latch ∉ before →
    w.realm.Resolves latch settle f (.object promise) →
    ∀ steps this args, (call e (steps + 1) (.object f) this args).run.run w =
      (do
        lift (settle promise (args.getD 0 .undefined))
        return Value.undefined : Machine Value).run.run { w with realm := w.realm.latched latch }
  /-- A call goes through the realm in which the latch is set, and counts from then on. -/
  counts : ∀ {before} {w : World}, r.Trace before w.realm → ∀ steps this args {outcome w'},
    (call e steps (.object f) this args).run.run w = some (outcome, w') →
    ∃ called rest, .latches latch ∈ called ∧ r.Trace called (w.realm.latched latch) ∧
      (w.realm.latched latch).Trace rest w'.realm
  /-- After any other call, a call does nothing. -/
  later : ∀ {before} {w : World}, r.Trace before w.realm → .latches latch ∈ before →
    ∀ steps this args,
      (call e (steps + 1) (.object f) this args).run.run w = some (.ok .undefined, w)

/-- A call sets the latch, if no other did. -/
theorem exists_trace_latched {r : Realm} {before : List Deed}
    (hunset : r.latches[latch]? = some false) (hbefore : r.Trace before w.realm) :
    ∃ called, .latches latch ∈ called ∧ r.Trace called (w.realm.latched latch) := by
  have hl := hbefore.latch hunset
  by_cases hcalled : .latches latch ∈ before
  · rw [decide_eq_true hcalled] at hl
    exact ⟨before, hcalled, (Realm.latched_of_set hl).symm ▸ hbefore⟩
  · rw [decide_eq_false hcalled] at hl
    exact ⟨_, List.mem_append_right _ (List.mem_singleton_self _), hbefore.latches hl⟩

theorem calls_of_resolves {r : Realm} (e : Embedding)
    (hf : r.Resolves latch settle f (.object promise)) (hunset : r.latches[latch]? = some false) :
    Calls e r promise latch settle f where
  captured hbefore hrebound := by
    obtain ⟨captured, hcaptured, hsame⟩ := hf.trace hbefore
    exact hsame hrebound ▸ hcaptured
  first hbefore hcalled hpromise steps := by
    have hl := hbefore.latch hunset
    rw [decide_eq_false hcalled] at hl
    exact run_call_of_unset e steps hpromise hl
  counts {_ _} hbefore _ _ _ {_ _} hrun := by
    obtain ⟨captured, hcaptured, -⟩ := hf.trace hbefore
    obtain ⟨called, hcalled, htrace⟩ := exists_trace_latched hunset hbefore
    obtain ⟨rest, hrest⟩ := exists_trace_of_call hcaptured (hbefore.latch hunset) hrun
    exact ⟨called, rest, hcalled, htrace, hrest⟩
  later hbefore hcalled steps this args := by
    obtain ⟨captured, hcaptured, -⟩ := hf.trace hbefore
    have hl := hbefore.latch hunset
    rw [decide_eq_true hcalled] at hl
    exact run_call_of_set e steps hcaptured hl this args

/-! ## Thenables that are adopted -/

theorem run_caught_of_thrown {m : Machine α} {reason : Value}
    (hrun : m.run.run w = some (.error (.thrown reason), w')) :
    (caught m).run.run w = some (.ok (.error reason), w') := by
  rw [caught, ExceptT.run_tryCatch, StateT.run_bind, ExceptT.run_map, StateT.run_map, hrun]
  rfl

theorem run_discard_of_ok {m : Machine α} {a : α} (hrun : m.run.run w = some (.ok a, w')) :
    (discard m).run.run w = some (.ok (), w') := by
  show ((fun _ => ()) <$> m).run.run w = _
  rw [ExceptT.run_map, StateT.run_map, hrun]
  rfl

/-- A thenable is adopted whose `then` throws: the new function that rejects is
called with what was thrown. -/
theorem run_adopt_of_thrown {r : Realm} {thenable method reason : Value} {kind : JobKind}
    {w₂ w₃ : World} {v : Value}
    (hnew : Realm.exec (Realm.createResolvingFunctions promise) w.realm =
      (.ok (resolve, reject), r))
    (hthrows : (call e steps method thenable [.object resolve, .object reject]).run.run
      { w with realm := r } = some (.error (.thrown reason), w₂))
    (hrejects : (call e steps (.object reject) .undefined [reason]).run.run w₂ =
      some (.ok v, w₃)) :
    (runJob e (steps + 1) ⟨kind, .adopt promise thenable method⟩).run.run w =
      some (.ok (), w₃) := by
  unfold runJob
  dsimp only
  rw [run_bind_of_ok (run_lift_of_exec hnew)]
  dsimp only
  rw [run_bind_of_ok (run_caught_of_thrown hthrows)]
  exact run_discard_of_ok hrejects

/-- Two new functions that settle a promise share a latch, which is set when one of
them is called. Whatever runs leaves a trace, which tells whether one was.

The first call settles the promise. From the moment at which it sets the latch, also
while it still runs, every call of either function answers `undefined` and changes
nothing.

When the functions are made for a thenable that is adopted, and its `then` throws:
if one of them was called before, the throw changes nothing. If none of them was, and
the promise is still pending, the promise is rejected with what was thrown. -/
theorem first_call_counts (e : Embedding) {r : Realm}
    (hnew : Realm.exec (Realm.createResolvingFunctions promise) w.realm =
      (.ok (resolve, reject), r)) :
    (∀ steps, (∀ callee this args, LeavesTrace (call e steps callee this args)) ∧
      (∀ job, LeavesTrace (runJob e steps job)) ∧ ∀ op, LeavesTrace (perform e steps op)) ∧
    ∃ latch,
    Calls e r promise latch Realm.resolvePromise resolve ∧
    Calls e r promise latch Realm.rejectPromise reject ∧
    ∀ {thenable method steps reason deeds w₂} (kind : JobKind),
      (call e steps method thenable [.object resolve, .object reject]).run.run
        { w with realm := r } = some (.error (.thrown reason), w₂) →
      r.Trace deeds w₂.realm →
      (.latches latch ∈ deeds →
        (runJob e (steps + 1) ⟨kind, .adopt promise thenable method⟩).run.run w =
          some (.ok (), w₂)) ∧
      (.latches latch ∉ deeds →
        w₂.realm.Resolves latch Realm.rejectPromise reject (.object promise) →
        w₂.realm.isPending promise = true →
        ∃ w₃, (runJob e (steps + 1) ⟨kind, .adopt promise thenable method⟩).run.run w =
          some (.ok (), w₃) ∧ w₃.realm.IsSettled promise (.rejected reason)) := by
  have hpair := Realm.resolvers_of_createResolvingFunctions hnew
  have hreject := calls_of_resolves e hpair.reject hpair.unset
  have hevolving : ∀ steps, Evolving (fun _ => True) e steps := evolving trivial e.makes_any
  refine ⟨fun steps => ⟨fun _ _ _ => leavesTrace_of_walks ((hevolving steps).call _ _ _),
    fun _ => leavesTrace_of_walks ((hevolving steps).runJob _),
    fun op => leavesTrace_of_walks ((hevolving steps).perform op.makes_any)⟩,
    w.realm.latches.size, calls_of_resolves e hpair.resolve hpair.unset, hreject,
    fun {thenable method steps reason deeds w₂} kind hthrows hdeeds => ?_⟩
  obtain ⟨steps, rfl⟩ : ∃ k, steps = k + 1 := by
    cases steps with
    | zero => exact nomatch hthrows
    | succ steps => exact ⟨steps, rfl⟩
  constructor
  · intro hcalled
    exact run_adopt_of_thrown hnew hthrows (hreject.later hdeeds hcalled _ _ _)
  · intro hcalled hresolves hpending
    have hcall := hreject.first hdeeds hcalled hresolves steps .undefined [reason]
    obtain ⟨slots, hs, hstate⟩ := Realm.exists_promiseSlots_of_isPending hpending
    have hsettles := Realm.exec_settlePromise (r := w₂.realm.latched w.realm.latches.size) hs
      hstate (.rejected reason)
    rw [run_bind_of_ok (run_lift_of_exec hsettles)] at hcall
    exact ⟨_, run_adopt_of_thrown hnew hthrows hcall, Realm.isSettled_acted hs _⟩

/-- A `then` that throws. If it is of the second kind, it calls the first function
that it is given before. -/
def thrower : Embedding where
  code kind a :=
    let throws : Program Abrupt Value := .done (.error (.thrown (.bool true)))
    match kind with
    | 0 => throws
    | _ => .perform (.call (a.arg 0) .undefined [.bool false]) fun _ => throws
  host _ _ _ := .done (.ok .undefined)
  analyzer _ _ _ _ := []

/-- A promise, and a thenable with such a `then`. -/
def adopting (kind : Nat) : World :=
  afterEffects [.newPromise, .newFunction "then" [] kind] { realm := {} }

/-- The job that adopts the thenable. -/
def adopts : Job := { kind := .promise, work := .adopt ⟨14⟩ .undefined (.object ⟨15⟩) }

/-- The realm with the new functions. -/
def equipped (kind : Nat) : Realm :=
  (Realm.exec (Realm.createResolvingFunctions ⟨14⟩) (adopting kind).realm).2

theorem exec_equipped (kind : Nat) :
    Realm.exec (Realm.createResolvingFunctions ⟨14⟩) (adopting kind).realm =
      (.ok (⟨16⟩, ⟨17⟩), equipped kind) := rfl

/-- The promise is rejected with what is thrown, unless it was fulfilled before. -/
theorem first_call_counts_thrower :
    (∃ w', (runJob thrower 2 adopts).run.run (adopting 0) = some (.ok (), w') ∧
      w'.realm.IsSettled ⟨14⟩ (.rejected (.bool true))) ∧
    ∃ w', (runJob thrower 4 adopts).run.run (adopting 1) = some (.ok (), w') ∧
      w'.realm.IsSettled ⟨14⟩ (.fulfilled (.bool false)) := by
  constructor
  · obtain ⟨-, latch, -, hreject, hadopt⟩ :=
      first_call_counts (w := adopting 0) thrower (exec_equipped 0)
    have hnone : Realm.Trace (equipped 0) [] (equipped 0) := .nil
    have hrebound := hreject.captured (w := { adopting 0 with realm := equipped 0 }) hnone
    exact (hadopt _ rfl hnone).2 List.not_mem_nil (hrebound List.not_mem_nil) rfl
  · obtain ⟨-, latch, hresolve, -, hadopt⟩ :=
      first_call_counts (w := adopting 1) thrower (exec_equipped 1)
    have hcounts := hresolve.counts (w := { adopting 1 with realm := equipped 1 }) .nil
    obtain ⟨called, rest, hcalled, htrace, hrest⟩ := hcounts 1 .undefined [.bool false] rfl
    exact ⟨_, (hadopt _ rfl (htrace.trans hrest)).1 (List.mem_append_left _ hcalled), _, rfl, rfl⟩

end Machine
end Retention
