import Retention.Proofs.Guest.Running
import Retention.Proofs.Search.Modes

/-!
# Reachable worlds

Operations that are given values that lead somewhere turn one world into
another (`Machine.Step`), whether they succeed or throw. From a fresh realm on,
they keep the world consistent (`consistent_of_reachable`): no slot ever changes
what it is, what is stored leads somewhere and is what the operations that store
it have checked. So a search with the built-in analyzers cannot fail.
-/

namespace Retention

open Relation

/-! ## Code that passes answers on -/

/-- The value of an answer leads somewhere if the answer does. -/
theorem Answer.isValid_toValue {h : Heap} {a : Answer} (ha : a.IsValid h) :
    h.isValid a.toValue = true := by
  unfold toValue
  cases a with
  | value v => exact ha v List.mem_cons_self
  | object? ref? =>
    cases ref? with
    | none => exact Heap.isValid_of_primitive rfl
    | some ref => exact ha _ List.mem_cons_self
  | _ => exact Heap.isValid_of_primitive rfl

/-- A program that ends with the value that its only operation answers. -/
theorem Program.proper_ask {h : Heap} {op : Operation} (hop : op.IsValid h) :
    (Answer.toValue <$> Program.ask op).Proper Abrupt.IsValid h := by
  refine ⟨hop, fun h' outcome _ houtcome => ?_⟩
  cases outcome with
  | ok a => exact Answer.isValid_toValue houtcome
  | error cause => exact houtcome

namespace Machine

/-- One operation, which is given values that lead somewhere. -/
def Step (e : Embedding) (w w' : World) : Prop :=
  ∃ steps op outcome, op.IsValid w.realm.heap ∧
    (perform e steps op).run.run w = some (outcome, w')

variable {e : Embedding} {w w' : World}

theorem Step.keeps (he : e.Proper) (hstep : Step e w w') (hw : w.Consistent) :
    w.realm.heap.Extends w'.realm.heap ∧ w'.Consistent := by
  obtain ⟨steps, op, outcome, hop, hrun⟩ := hstep
  obtain ⟨hext, hw', -⟩ := (sound he steps).perform hw hop outcome w' hrun
  exact ⟨hext, hw'⟩

theorem keeps_of_steps (he : e.Proper) (hsteps : ReflTransGen (Step e) w w')
    (hw : w.Consistent) : w.realm.heap.Extends w'.realm.heap ∧ w'.Consistent := by
  induction hsteps with
  | refl => exact ⟨.refl _, hw⟩
  | tail _ hstep ih =>
    obtain ⟨hext, hw'⟩ := hstep.keeps he ih.2
    exact ⟨ih.1.trans hext, hw'⟩

/-- In a consistent realm, a search with the built-in analyzers answers. -/
theorem exists_search_eq_ok {r : Realm} (hr : r.Consistent) (options : Search.Options)
    {target : Value} {held : List Value} (hidentity : target.hasIdentity = true)
    (htarget : r.heap.isValid target = true) (hheld : ∀ v ∈ held, r.heap.isValid v = true) :
    ∃ g, (Search.run r.heap options .builtin target held).1 = .ok g :=
  Search.exists_run_eq_ok (fun _ hreq => hreq.isValid_builtin hr.heap.wellFormed) hidentity htarget
    hheld

/-- Whatever happens in a realm, its heap and what is deferred stay consistent,
each slot stays what it is, and searches with the built-in analyzers answer. -/
theorem consistent_of_reachable (he : e.Proper) (options : Options)
    (hreach : ReflTransGen (Step e) { realm := { options } } w)
    (hsteps : ReflTransGen (Step e) w w') :
    w.realm.heap.Extends w'.realm.heap ∧ w'.Consistent ∧
      ∀ searchOptions target held, target.hasIdentity = true →
        w'.realm.heap.isValid target = true → (∀ v ∈ held, w'.realm.heap.isValid v = true) →
        ∃ g, (Search.run w'.realm.heap searchOptions .builtin target held).1 = .ok g := by
  obtain ⟨-, hw⟩ := keeps_of_steps he hreach (World.consistent_fresh options)
  obtain ⟨hext, hw'⟩ := keeps_of_steps he hsteps hw
  exact ⟨hext, hw', fun searchOptions _ _ => exists_search_eq_ok hw'.realm searchOptions⟩

/-! ### Two calls -/

/-- Guest code that makes a weak reference to the first argument, and host
functions that answer it. -/
def weakly : Embedding where
  code _ a := Answer.toValue <$> Program.ask (.effect (.newWeakRef (a.arg 0)))
  host _ _ args := pure (args.getD 0 .undefined)
  analyzer _ _ _ _ := []

theorem proper_weakly : weakly.Proper where
  code _ _ _ ha := Program.proper_ask
    ⟨List.forall_mem_singleton.mpr (Sound.isValid_getD ha.args 0), nofun⟩
  host _ _ _ _ _ hargs := Sound.isValid_getD hargs 0
  analyzer _ _ _ _ _ _ _ hmem := absurd hmem List.not_mem_nil

/-- The world after an operation that needs few steps. -/
def after (op : Operation) (w : World) : World := ((perform weakly 3 op).run.run w).elim w Prod.snd

theorem step_after {op : Operation} (hop : op.IsValid w.realm.heap)
    (hrun : ((perform weakly 3 op).run.run w).isSome = true) : Step weakly w (after op w) := by
  obtain ⟨⟨outcome, w'⟩, hsome⟩ := Option.isSome_iff_exists.mp hrun
  refine ⟨3, op, outcome, hop, ?_⟩
  rw [after, hsome]
  rfl

/-- A fresh realm in which a closure is defined. -/
def defined : World := after (.effect (.newFunction "weakly" [] 0)) { realm := {} }

/-- A call of the closure. -/
def callOf (args : List Value) : Operation := .call (.object ⟨14⟩) .undefined args

/-- The closure was called with the global object. -/
def called : World := after (callOf [.object globalRef]) defined

/-- The closure was called again, with nothing, for which it throws. -/
def calledTwice : World := after (callOf []) called

theorem consistent_of_reachable_calledTwice :
    defined.realm.heap.Extends calledTwice.realm.heap ∧ calledTwice.Consistent ∧
      ∃ g, (Search.run calledTwice.realm.heap {} .builtin (.object ⟨15⟩) [.object globalRef]).1 =
        .ok g := by
  have hdefined : Step weakly { realm := {} } defined :=
    step_after ⟨by decide, nofun⟩ (by decide)
  have hcalled : Step weakly defined called :=
    step_after ⟨by decide, by decide, by decide⟩ (by decide)
  have hagain : Step weakly called calledTwice :=
    step_after ⟨by decide, by decide, by decide⟩ (by decide)
  obtain ⟨hext, hw, hsearch⟩ := consistent_of_reachable proper_weakly {} (.single hdefined)
    (.tail (.single hcalled) hagain)
  exact ⟨hext, hw, hsearch {} _ _ rfl (by decide) (by decide)⟩

end Machine
end Retention
