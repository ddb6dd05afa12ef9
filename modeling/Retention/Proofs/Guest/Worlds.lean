import Retention.Guest.World
import Retention.Proofs.Guest.Effects

/-!
# Operations that keep a world consistent

A world is consistent if its realm is, and if its variables lead somewhere. An
operation on a world keeps it consistent if it ends in a consistent world whose
heap extends the one it started with, provided that it does not run out of
steps (`Machine.Leaves`). A machine does so whether it fails or not
(`Machine.Keeps`).

* `Leaves.bind`, `Keeps.bind`, `Keeps.tryCatch`: operations put together.
* `Keeps.lift`: an operation on the realm.
* `Keeps.caught`, `Keeps.attempt`: operations whose failures are seen to.
-/

namespace Retention

/-- A world whose realm is consistent, and whose variables lead somewhere. -/
structure World.Consistent (w : World) : Prop where
  realm : w.realm.Consistent
  vars : ∀ entry ∈ w.vars, w.realm.heap.isValid entry.2 = true

/-- The world around a fresh realm is consistent. -/
theorem World.consistent_fresh (options : Options) :
    ({ realm := { options } } : World).Consistent where
  realm := Realm.consistent_fresh options
  vars _ he := absurd he List.not_mem_nil

/-- A world stays consistent when its realm goes on. -/
theorem World.Consistent.withRealm {w : World} {realm : Realm} (hw : w.Consistent)
    (hext : w.realm.heap.Extends realm.heap) (hr : realm.Consistent) :
    { w with realm }.Consistent where
  realm := hr
  vars entry he := hext.isValid (hw.vars entry he)

namespace Machine

variable {ε α β : Type}

/-! ## Operations that leave a world -/

/-- An operation that does not run out of steps ends in a consistent world whose
heap extends the one before, and what it answers satisfies `Q`. -/
def Leaves (m : StateT World Option α) (w : World) (Q : α → World → Prop) : Prop :=
  ∀ a w', m.run w = some (a, w') →
    w.realm.heap.Extends w'.realm.heap ∧ w'.Consistent ∧ Q a w'

namespace Leaves

variable {m : StateT World Option α} {w : World} {Q : α → World → Prop}

theorem bind {f : α → StateT World Option β} {Q' : β → World → Prop} (hm : Leaves m w Q)
    (hf : ∀ a w', w.realm.heap.Extends w'.realm.heap → w'.Consistent → Q a w' →
      Leaves (f a) w' Q') : Leaves (m >>= f) w Q' := by
  intro b w₂ hrun
  rw [StateT.run_bind] at hrun
  obtain ⟨⟨a, w₁⟩, hm₁, hf₂⟩ := Option.bind_eq_some_iff.mp hrun
  obtain ⟨hext, hw₁, ha⟩ := hm a w₁ hm₁
  obtain ⟨hext', hrest⟩ := hf a w₁ hext hw₁ ha b w₂ hf₂
  exact ⟨hext.trans hext', hrest⟩

theorem mono {Q' : α → World → Prop} (hm : Leaves m w Q)
    (hQ : ∀ a w', w.realm.heap.Extends w'.realm.heap → w'.Consistent → Q a w' → Q' a w') :
    Leaves m w Q' := fun a w' hrun =>
  have ⟨hext, hw', ha⟩ := hm a w' hrun
  ⟨hext, hw', hQ a w' hext hw' ha⟩

/-- An operation that has an outcome at once. -/
theorem of_run {a : α} {w' : World} (hrun : m.run w = some (a, w'))
    (hext : w.realm.heap.Extends w'.realm.heap) (hw' : w'.Consistent) (ha : Q a w') :
    Leaves m w Q := by
  intro a' w'' hrun'
  cases hrun.symm.trans hrun'
  exact ⟨hext, hw', ha⟩

/-- A change of the world that leaves its heap as it is. -/
theorem modify {f : World → World} {Q : Unit → World → Prop}
    (hheap : (f w).realm.heap = w.realm.heap) (hf : (f w).Consistent) (hQ : Q () (f w)) :
    Leaves (modifyThe World f) w Q := by
  have hext : w.realm.heap.Extends (f w).realm.heap := by
    rw [hheap]
    exact .refl _
  exact of_run rfl hext hf hQ

variable (hw : w.Consistent)

include hw

theorem pure {a : α} (ha : Q a w) : Leaves (pure a) w Q := of_run rfl (.refl _) hw ha

theorem getThe : Leaves (getThe World) w fun a w' => a = w ∧ w' = w :=
  of_run rfl (.refl _) hw ⟨rfl, rfl⟩

end Leaves

/-! ## Operations that may fail -/

/-- What is answered satisfies `Q`, and the reason for a failure satisfies
`fails`, in the world that is left. -/
def Meets (fails : Heap → ε → Prop) (Q : α → World → Prop) : Except ε α → World → Prop
  | .ok a, w => Q a w
  | .error e, w => fails w.realm.heap e

/-- An operation leaves a consistent world, whether it fails or not. -/
def Keeps (fails : Heap → ε → Prop) (m : ExceptT ε (StateT World Option) α) (w : World)
    (Q : α → World → Prop) : Prop :=
  Leaves m.run w (Meets fails Q)

namespace Keeps

section Failures

variable {fails : Heap → ε → Prop} {m : ExceptT ε (StateT World Option) α} {w : World}
  {Q : α → World → Prop}

theorem bind {f : α → ExceptT ε (StateT World Option) β} {Q' : β → World → Prop}
    (hm : Keeps fails m w Q)
    (hf : ∀ a w', w.realm.heap.Extends w'.realm.heap → w'.Consistent → Q a w' →
      Keeps fails (f a) w' Q') : Keeps fails (m >>= f) w Q' := by
  unfold Keeps
  rw [ExceptT.run_bind]
  refine Leaves.bind hm fun outcome w' hext hw' hout => ?_
  cases outcome with
  | ok a => exact hf a w' hext hw' hout
  | error e => exact .pure hw' hout

theorem tryCatch {handler : ε → ExceptT ε (StateT World Option) α} (hm : Keeps fails m w Q)
    (hcatch : ∀ e w', w.realm.heap.Extends w'.realm.heap → w'.Consistent →
      fails w'.realm.heap e → Keeps fails (handler e) w' Q) :
    Keeps fails (tryCatch m handler) w Q := by
  unfold Keeps
  rw [ExceptT.run_tryCatch]
  refine Leaves.bind hm fun outcome w' hext hw' hout => ?_
  cases outcome with
  | ok a => exact .pure hw' hout
  | error e => exact hcatch e w' hext hw' hout

theorem mono {Q' : α → World → Prop} (hm : Keeps fails m w Q)
    (hQ : ∀ a w', w.realm.heap.Extends w'.realm.heap → w'.Consistent → Q a w' → Q' a w') :
    Keeps fails m w Q' := by
  refine Leaves.mono hm fun outcome w' hext hw' hout => ?_
  cases outcome with
  | ok a => exact hQ a w' hext hw' hout
  | error e => exact hout

/-- An operation that cannot fail. -/
theorem liftM {m : StateT World Option α} (hm : Leaves m w Q) :
    Keeps fails (liftM m : ExceptT ε (StateT World Option) α) w Q := by
  show Leaves (ExceptT.lift m : ExceptT ε (StateT World Option) α).run w (Meets fails Q)
  rw [ExceptT.run_lift, ← bind_pure_comp]
  exact hm.bind fun a w' _ hw' ha => .pure hw' ha

/-- A change of the world that leaves its heap as it is. -/
theorem modify {f : World → World} {Q : Unit → World → Prop}
    (hheap : (f w).realm.heap = w.realm.heap) (hf : (f w).Consistent) (hQ : Q () (f w)) :
    Keeps fails (modifyThe World f) w Q :=
  liftM (Leaves.modify hheap hf hQ)

variable (hw : w.Consistent)

include hw

theorem pure {a : α} (ha : Q a w) : Keeps fails (pure a) w Q := Leaves.pure hw ha

theorem throw {e : ε} (he : fails w.realm.heap e) : Keeps fails (throw e) w Q := Leaves.pure hw he

theorem getThe : Keeps fails (getThe World) w fun a w' => a = w ∧ w' = w :=
  liftM (Leaves.getThe hw)

omit hw in
theorem map {f : α → β} {Q' : β → World → Prop} (hm : Keeps fails m w Q)
    (hf : ∀ a w', w.realm.heap.Extends w'.realm.heap → w'.Consistent → Q a w' → Q' (f a) w') :
    Keeps fails (f <$> m) w Q' := by
  rw [← bind_pure_comp]
  exact hm.bind fun a w' hext hw' ha => pure hw' (hf a w' hext hw' ha)

end Failures

/-! ## Operations of machines -/

variable {w : World} {m : Machine α} {Q : α → World → Prop}

theorem exhausted : Keeps Abrupt.IsValid exhausted w Q := fun _ _ hrun => nomatch hrun

/-- An operation whose failures are seen to. -/
theorem attempt {fails : Heap → ε → Prop} {m : StateT World Option (Except ε α)}
    {fail : ε → Machine α} (hm : Leaves m w (Meets fails Q))
    (hfail : ∀ e w', w'.Consistent → fails w'.realm.heap e →
      Keeps Abrupt.IsValid (fail e) w' Q) : Keeps Abrupt.IsValid (Machine.attempt m fail) w Q := by
  refine (liftM hm).bind fun outcome w' _ hw' hout => ?_
  cases outcome with
  | ok a => exact pure hw' hout
  | error e => exact hfail e w' hw' hout

/-- An operation whose thrown values are caught. -/
theorem caught (hm : Keeps Abrupt.IsValid m w Q) :
    Keeps Abrupt.IsValid (Machine.caught m) w fun outcome w' =>
      match outcome with
      | .ok a => Q a w'
      | .error reason => w'.realm.heap.isValid reason = true := by
  refine tryCatch (hm.map fun a w' _ _ ha => ha) fun cause w' _ hw' hcause => ?_
  cases cause with
  | thrown reason => exact pure hw' hcause
  | _ => exact throw hw' hcause

variable (hw : w.Consistent)

include hw

theorem lift {m : RealmM α} {Q : α → Realm → Prop} (hm : Realm.Keeps m w.realm Q) :
    Keeps Abrupt.IsValid (lift m) w fun a w' => Q a w'.realm := by
  have hrun : (Machine.lift m).run.run w =
      some ((Realm.exec m w.realm).1, { w with realm := (Realm.exec m w.realm).2 }) := rfl
  unfold Realm.Keeps at hm
  cases he : Realm.exec m w.realm with
  | mk outcome realm =>
    rw [he] at hm hrun
    cases outcome with
    | ok a => exact Leaves.of_run hrun hm.1 (hw.withRealm hm.1 hm.2.1) hm.2.2
    | error cause => exact Leaves.of_run hrun hm.1 (hw.withRealm hm.1 hm.2.1) hm.2.2

theorem record (events : List Event) :
    Keeps Abrupt.IsValid (record events) w fun _ w' => w'.realm = w.realm :=
  modify rfl ⟨hw.realm, hw.vars⟩ rfl

theorem deal (dealings : List Dealing) :
    Keeps Abrupt.IsValid (deal dealings) w fun _ w' => w'.realm = w.realm :=
  modify rfl ⟨hw.realm, hw.vars⟩ rfl

omit hw in
/-- Deferred work keeps what it keeps, whether it fails or not. -/
theorem interruptible {work : Machine Unit}
    (hwork : Keeps Abrupt.IsValid work w fun _ _ => True) :
    Keeps Abrupt.IsValid (interruptible work) w fun _ _ => True := by
  refine hwork.tryCatch fun cause w' _ hw' hcause => (deal hw' _).bind fun _ w'' hext hw'' _ => ?_
  exact throw hw'' (hcause.mono hext)

end Keeps
end Machine
end Retention
