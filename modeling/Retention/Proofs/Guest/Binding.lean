import Retention.Proofs.Guest.Deferring
import Retention.Proofs.Guest.Evolution
import Retention.Proofs.Guest.Promises
import Retention.Proofs.Heap.Prototypes
import Retention.Proofs.Realm.Outcomes
import Retention.Proofs.Realm.Weak

/-!
# Bound functions

A function may be bound any number of times, and guest code may do anything in
between (`Machine.Binds`). What a bound function holds never changes, so it still holds
the functions that were bound before it, one in the other (`Heap.HoldsBound`). A call
goes through all of them: each puts its arguments in front, and the receiver that was
bound first is the one that is left.

* `Binds.holdsBound`: what a bound function holds, whatever happened since.
* `Machine.run_call_of_holdsBound`: a call of a bound function, by induction on what it
  holds.
* `Machine.call_of_binds`: binding any number of times is the same as binding once.
-/

namespace Retention

/-! ## What bound functions hold -/

/-- A function, after receivers and leading arguments were bound to it, one pair after
the other. -/
inductive Heap.HoldsBound (h : Heap) (f : Value) : List (Value × List Value) → Value → Prop where
  | self : HoldsBound h f [] f
  | bound {fixed : List (Value × List Value)} {ref target : ObjectRef} {this : Value}
    {args : List Value} (inner : HoldsBound h f fixed (.object target))
    (there : h.kind ref = .ok (.boundFunction target this args)) :
    HoldsBound h f (fixed ++ [(this, args)]) (.object ref)

theorem Heap.HoldsBound.mono {h h' : Heap} {f b : Value} {fixed : List (Value × List Value)}
    (hb : h.HoldsBound f fixed b) (hkeeps : KeepsSlots .boundFunction h h') :
    h'.HoldsBound f fixed b := by
  induction hb with
  | self => exact .self
  | bound _ there ih => exact .bound ih (hkeeps.kept there rfl)

namespace Realm

variable {fresh : PromiseSlots → Prop} {host : Prop} {r r' : Realm} {b this : Value}
  {args : List Value} {ref : ObjectRef}

/-- No change is one of what a bound function holds. -/
theorem Change.keepsBound (hchange : Change fresh host r r') :
    Heap.KeepsSlots .boundFunction r.heap r'.heap := by
  cases hchange with
  | push => exact .push
  | update same => exact .update fun {o} _ _ => same o
  | setKind there plain => exact .setKind there plain.bound
  | rebind there => exact .setKind there nofun
  | act there => exact .setKind (Heap.kind_of_promiseSlots? there) nofun
  | enqueue | tables | newLatch | latch | kept => exact .refl _

theorem Changes.keepsBound (h : Changes fresh host r r') :
    Heap.KeepsSlots .boundFunction r.heap r'.heap :=
  keeps_of_steps (P := fun r' => Heap.KeepsSlots .boundFunction r.heap r'.heap)
    (fun hkeeps hchange => hkeeps.trans hchange.keepsBound) (.refl _) h

/-- Binding to a function makes a new function that holds it. -/
theorem exec_bindFunction {target : ObjectRef} {o : Object} (ho : r.heap.object target = .ok o)
    (hcallable : r.heap.isCallable (.object target) = true) (this : Value) (args : List Value) :
    exec (bind (.object target) this args) r =
      (.ok ⟨r.heap.size⟩, { r with heap :=
        (r.heap.alloc o.prototype? (.boundFunction target this args)).2 }) := by
  have hread : exec (readHeap (·.prototype? target)) r = (.ok o.prototype?, r) := by
    rw [exec_readHeap, Heap.prototype?_of_object ho]
  rw [bind, exec_bind_of_ok (exec_getThe r), Heap.callable?_eq_some_iff.mpr ⟨rfl, hcallable⟩]
  exact exec_bind_of_ok hread _

/-- Only a function can be bound to. -/
theorem isCallable_of_bind (hbind : exec (bind b this args) r = (.ok ref, r')) :
    r.heap.isCallable b = true := by
  cases hc : r.heap.callable? b with
  | some target => exact (Heap.callable?_eq_some_iff.mp hc).2
  | none =>
    rw [bind, exec_bind_of_ok (exec_getThe r), hc] at hbind
    obtain ⟨v, r'', hthrows⟩ :=
      exec_throwTypeError (α := ObjectRef) "bind must be called on a function" r
    cases hthrows.symm.trans hbind

/-- The new function holds the one that was bound to. -/
theorem exists_kind_of_bind (hbind : exec (bind b this args) r = (.ok ref, r')) :
    ∃ target, b = .object target ∧ r'.heap.kind ref = .ok (.boundFunction target this args) := by
  obtain ⟨target, o, rfl, ho, -⟩ := Heap.isCallable_iff.mp (isCallable_of_bind hbind)
  have hnew := (exec_bindFunction ho (isCallable_of_bind hbind) this args).symm.trans hbind
  obtain ⟨href, rfl⟩ := Prod.mk.inj hnew
  cases href
  exact ⟨target, rfl, Heap.kind_of_object (Heap.object_alloc_self ..)⟩

end Realm

namespace Machine

variable {e : Embedding} {f b : Value} {w w' : World} {fixed : List (Value × List Value)}

/-! ## Chains -/

/-- Receivers and leading arguments are bound to a function, one pair after the other.
In between, guest code does anything at all. -/
inductive Binds (e : Embedding) (f : Value) : List (Value × List Value) → Value → World → Prop where
  | start (w : World) : Binds e f [] f w
  | bind {fixed : List (Value × List Value)} {b this : Value} {args : List Value}
    {ref : ObjectRef} {w w' : World} (before : Binds e f fixed b w)
    (ran : (lift (Realm.bind b this args)).run.run w = some (.ok ref, w')) :
    Binds e f (fixed ++ [(this, args)]) (.object ref) w'
  | later {fixed : List (Value × List Value)} {b : Value} {op : Operation} {steps : Nat}
    {outcome : Except Abrupt Answer} {w w' : World} (before : Binds e f fixed b w)
    (ran : (perform e steps op).run.run w = some (outcome, w')) : Binds e f fixed b w'

/-- What guest code does leaves bound functions as they are. -/
theorem keepsBound_of_perform {op : Operation} {steps : Nat} {outcome : Except Abrupt Answer}
    (hrun : (perform e steps op).run.run w = some (outcome, w')) :
    Heap.KeepsSlots .boundFunction w.realm.heap w'.realm.heap := by
  have hevolving : Evolving (fun _ => True) e steps := evolving trivial e.makes_any steps
  exact (World.Changes.of_steps ((hevolving.perform op.makes_any).steps hrun)).keepsBound

/-- The function that was bound last still holds all the others. -/
theorem Binds.holdsBound (h : Binds e f fixed b w) : w.realm.heap.HoldsBound f fixed b := by
  induction h with
  | start => exact .self
  | @bind fixed b this args ref w w' _ ran ih =>
    obtain ⟨hbind, rfl⟩ := Prod.mk.inj (Option.some.inj ((run_lift _ w).symm.trans ran))
    have hexec := Prod.ext (y := (_, _)) hbind rfl
    obtain ⟨target, rfl, hk⟩ := Realm.exists_kind_of_bind hexec
    have hchanging : Realm.Changing (fun _ => True) True (Realm.bind (.object target) this args)
        w.realm fun _ _ => True := .bindFunction ..
    exact .bound (ih.mono hchanging.1.keepsBound) hk
  | later _ ran ih => exact ih.mono (keepsBound_of_perform ran)

/-! ## Calls -/

/-- A call of a bound function. -/
theorem run_call_bound {ref target : ObjectRef} {boundThis : Value} {boundArgs : List Value}
    (hk : w.realm.heap.kind ref = .ok (.boundFunction target boundThis boundArgs)) (steps : Nat)
    (this : Value) (args : List Value) :
    (call e (steps + 1) (.object ref) this args).run.run w =
      (call e steps (.object target) boundThis (boundArgs ++ args)).run.run w := by
  rw [call]
  exact run_bind_of_ok (run_lift_of_exec (Realm.exec_kind_of_ok hk))

/-- A call goes through what is bound, with one step for each. The receiver that was
bound first is left, and the arguments that were bound first come first. -/
theorem run_call_of_holdsBound (h : w.realm.heap.HoldsBound f fixed b) (steps : Nat)
    (this : Value) (args : List Value) :
    (call e (steps + fixed.length) b this args).run.run w =
      (call e steps f ((fixed.map Prod.fst).headD this)
        (fixed.flatMap Prod.snd ++ args)).run.run w := by
  induction h generalizing this args with
  | self => rfl
  | @bound fixed ref target boundThis boundArgs _ there ih =>
    rw [List.length_append, List.length_singleton, ← Nat.add_assoc, run_call_bound there, ih]
    cases fixed with
    | nil => simp
    | cons first rest => simp

/-- There is no outcome with fewer steps. -/
theorem run_call_of_lt (h : w.realm.heap.HoldsBound f fixed b) {steps : Nat}
    (hlt : steps < fixed.length) (this : Value) (args : List Value) :
    (call e steps b this args).run.run w = none := by
  induction h generalizing steps this args with
  | self => exact absurd hlt (Nat.not_lt_zero steps)
  | bound _ there ih =>
    rw [List.length_append, List.length_singleton] at hlt
    cases steps with
    | zero => rw [call]; rfl
    | succ steps =>
      rw [run_call_bound there]
      exact ih (Nat.lt_of_succ_lt_succ hlt) _ _

/-- Bound calls flatten. However often receivers and arguments were bound to a function,
and whatever guest code did in between, a call of the function that was bound last is a
call of the first one: with the receiver that was bound first, and with all the
arguments in the order in which they were bound. It takes a step more for each time that
was bound, and has the same outcomes in the same worlds. -/
theorem call_of_binds {first : Value × List Value} {rest : List (Value × List Value)}
    (h : Binds e f (first :: rest) b w) (this : Value) (args : List Value) :
    (∀ steps, (call e (steps + (first :: rest).length) b this args).run.run w =
      (call e steps f first.1 ((first :: rest).flatMap Prod.snd ++ args)).run.run w) ∧
    ∀ outcome, (∃ steps, (call e steps b this args).run.run w = some outcome) ↔
      ∃ steps, (call e steps f first.1 ((first :: rest).flatMap Prod.snd ++ args)).run.run w =
        some outcome := by
  have hflat := fun steps => run_call_of_holdsBound (e := e) h.holdsBound steps this args
  refine ⟨hflat, fun outcome => ⟨?_, ?_⟩⟩
  · rintro ⟨steps, hrun⟩
    by_cases hlt : steps < (first :: rest).length
    · cases (run_call_of_lt h.holdsBound hlt this args).symm.trans hrun
    · obtain ⟨steps, rfl⟩ := Nat.exists_eq_add_of_le' (Nat.le_of_not_lt hlt)
      exact ⟨steps, (hflat steps).symm.trans hrun⟩
  · rintro ⟨steps, hrun⟩
    exact ⟨_, (hflat steps).trans hrun⟩

/-! ### A function that tells -/

/-- Guest code that notes its receiver and its arguments, and throws the receiver. -/
def teller : Embedding where
  code _ a := (a.this :: a.args).foldr (fun v rest => .perform (.note v) fun _ => rest)
    (.done (.error (.thrown a.this)))
  host _ _ _ := .done (.ok .undefined)
  analyzer _ _ _ _ := []

/-- A function that tells. -/
def telling : World := afterEffects [.newFunction "tell" [] 0] { realm := {} }

/-- It was bound, and a promise was made. -/
def boundOnce : World :=
  afterEffects [.bind (.object ⟨14⟩) (.bool true) [.null], .newPromise] telling

/-- It was bound again. -/
def boundTwice : World :=
  afterEffects [.bind (.object ⟨15⟩) (.bool false) [.bool false, .undefined]] boundOnce

theorem binds_boundTwice :
    Binds teller (.object ⟨14⟩) [(.bool true, [.null]), (.bool false, [.bool false, .undefined])]
      (.object ⟨17⟩) boundTwice := by
  have hpromise : (perform teller 1 (.effect .newPromise)).run.run
      (afterEffects [.bind (.object ⟨14⟩) (.bool true) [.null]] telling) =
        some (.ok (.ofRef ⟨16⟩), boundOnce) := rfl
  have honce : Binds teller (.object ⟨14⟩) [(.bool true, [.null])] (.object ⟨15⟩) boundOnce :=
    .later (.bind (.start telling) rfl) hpromise
  exact .bind honce rfl

theorem call_of_binds_boundTwice :
    (call teller 6 (.object ⟨17⟩) .undefined [.object globalRef]).run.run boundTwice =
      some (.error (.thrown (.bool true)), { boundTwice with journal :=
        #[.noted (.bool true), .noted .null, .noted (.bool false), .noted .undefined,
          .noted (.object globalRef)] }) :=
  ((call_of_binds binds_boundTwice .undefined [.object globalRef]).1 4).trans rfl

end Machine
end Retention
