import Mathlib.Logic.Relation

/-!
# Operations that go step by step

An operation on a state that may have no outcome goes along steps of a relation
if every outcome that it has is one that steps lead to (`Treads`). An operation
that may fail does so whether it fails or not (`Walks`).

* `Treads.bind`, `Walks.bind`, `Walks.tryCatch`: operations put together.
* `Walks.mapM`: one operation for each item of a list.
-/

namespace Retention

open Relation

variable {σ ε α β : Type} {R : σ → σ → Prop}

/-! ## Outcomes -/

/-- An operation after another has an outcome if the first one fails, or answers
what the second one goes on with. -/
theorem run_bind_eq_some_iff {m : ExceptT ε (StateT σ Option) α}
    {f : α → ExceptT ε (StateT σ Option) β} {s s' : σ} {outcome : Except ε β} :
    (m >>= f).run.run s = some (outcome, s') ↔
      (∃ e, m.run.run s = some (.error e, s') ∧ outcome = .error e) ∨
      ∃ a s₁, m.run.run s = some (.ok a, s₁) ∧ (f a).run.run s₁ = some (outcome, s') := by
  rw [ExceptT.run_bind, StateT.run_bind]
  constructor
  · intro hrun
    obtain ⟨⟨first, s₁⟩, hm, hrest⟩ := Option.bind_eq_some_iff.mp hrun
    cases first with
    | ok a => exact .inr ⟨a, s₁, hm, hrest⟩
    | error e =>
      obtain ⟨rfl, rfl⟩ := Prod.mk.inj (Option.some.inj hrest)
      exact .inl ⟨e, hm, rfl⟩
  · intro hcases
    obtain ⟨e, hm, rfl⟩ | ⟨a, s₁, hm, hrest⟩ := hcases
    · exact Option.bind_eq_some_iff.mpr ⟨_, hm, rfl⟩
    · exact Option.bind_eq_some_iff.mpr ⟨_, hm, hrest⟩

/-- An operation that succeeds goes on after what comes before it. -/
theorem run_bind_eq_ok {m : ExceptT ε (StateT σ Option) α}
    {f : α → ExceptT ε (StateT σ Option) β} {s s' : σ} {b : β}
    (hrun : (m >>= f).run.run s = some (.ok b, s')) :
    ∃ a s₁, m.run.run s = some (.ok a, s₁) ∧ (f a).run.run s₁ = some (.ok b, s') := by
  obtain ⟨failure, -, herror⟩ | hok := run_bind_eq_some_iff.mp hrun
  · cases herror
  · exact hok

/-- An operation goes on with what the one before it answers. -/
theorem run_bind_of_ok {m : ExceptT ε (StateT σ Option) α} {f : α → ExceptT ε (StateT σ Option) β}
    {s s' : σ} {a : α} (hm : m.run.run s = some (.ok a, s')) :
    (m >>= f).run.run s = (f a).run.run s' := by
  rw [ExceptT.run_bind, StateT.run_bind, hm]
  rfl

/-- Nothing comes after an operation that fails. -/
theorem run_bind_of_error {m : ExceptT ε (StateT σ Option) α}
    {f : α → ExceptT ε (StateT σ Option) β} {s s' : σ} {e : ε}
    (hm : m.run.run s = some (.error e, s')) :
    (m >>= f).run.run s = some (.error e, s') :=
  run_bind_eq_some_iff.mpr (.inl ⟨e, hm, rfl⟩)

/-- Operations that agree on what they go on with, and then go on in the same way. -/
theorem run_bind_congr {m m' : ExceptT ε (StateT σ Option) α}
    {f f' : α → ExceptT ε (StateT σ Option) β} {s : σ} (hm : m.run.run s = m'.run.run s)
    (hf : ∀ a s', m.run.run s = some (.ok a, s') → (f a).run.run s' = (f' a).run.run s') :
    (m >>= f).run.run s = (m' >>= f').run.run s := by
  rw [ExceptT.run_bind, ExceptT.run_bind, StateT.run_bind, StateT.run_bind, ← hm]
  refine Option.bind_congr fun (outcome, s') hfirst => ?_
  cases outcome with
  | ok a => exact hf a s' hfirst
  | error e => rfl

/-! ## More outcomes -/

/-- Each outcome that an operation has is one that another operation has. -/
def Covers (m m' : ExceptT ε (StateT σ Option) α) : Prop :=
  ∀ s result, m.run.run s = some result → m'.run.run s = some result

namespace Covers

variable {m m' : ExceptT ε (StateT σ Option) α}

theorem refl (m : ExceptT ε (StateT σ Option) α) : Covers m m := fun _ _ hrun => hrun

theorem trans {m'' : ExceptT ε (StateT σ Option) α} (h : Covers m m') (h' : Covers m' m'') :
    Covers m m'' :=
  fun s result hrun => h' s result (h s result hrun)

theorem bind {f f' : α → ExceptT ε (StateT σ Option) β} (hm : Covers m m')
    (hf : ∀ a, Covers (f a) (f' a)) : Covers (m >>= f) (m' >>= f') := by
  rintro s ⟨outcome, s'⟩ hrun
  obtain ⟨e, hfails, rfl⟩ | ⟨a, s₁, hfirst, hrest⟩ := run_bind_eq_some_iff.mp hrun
  · exact run_bind_eq_some_iff.mpr (.inl ⟨e, hm s _ hfails, rfl⟩)
  · exact run_bind_eq_some_iff.mpr (.inr ⟨a, s₁, hm s _ hfirst, hf a s₁ _ hrest⟩)

/-- One operation for each item of a list, in order. -/
theorem forM {f f' : β → ExceptT ε (StateT σ Option) PUnit} (hf : ∀ item, Covers (f item) (f' item))
    (items : List β) : Covers (items.forM f) (items.forM f') := by
  induction items with
  | nil => exact refl _
  | cons item rest ih => exact (hf item).bind fun _ => ih

end Covers

/-! ## Steps -/

/-- What every step keeps, steps keep one after the other. -/
theorem keeps_of_steps {P : σ → Prop} (hstep : ∀ {s s'}, P s → R s s' → P s') {s s' : σ}
    (hs : P s) (h : ReflTransGen R s s') : P s' := by
  induction h with
  | refl => exact hs
  | tail _ hlast ih => exact hstep ih hlast

/-- Steps lead to whatever outcome an operation has. -/
structure Treads (R : σ → σ → Prop) (m : StateT σ Option α) : Prop where
  steps : ∀ {s a s'}, m.run s = some (a, s') → ReflTransGen R s s'

namespace Treads

variable {m : StateT σ Option α}

theorem bind {f : α → StateT σ Option β} (hm : Treads R m) (hf : ∀ a, Treads R (f a)) :
    Treads R (m >>= f) := by
  refine ⟨fun {s b s₂} hrun => ?_⟩
  rw [StateT.run_bind] at hrun
  obtain ⟨⟨a, s₁⟩, hm₁, hf₂⟩ := Option.bind_eq_some_iff.mp hrun
  exact (hm.steps hm₁).trans ((hf a).steps hf₂)

theorem mono {R' : σ → σ → Prop} (hm : Treads R m) (hR : ∀ {s s'}, R s s' → R' s s') :
    Treads R' m :=
  ⟨fun hrun => ReflTransGen.mono (fun _ _ => hR) _ _ (hm.steps hrun)⟩

/-- An operation that has its outcome after one step. -/
theorem step {f : σ → α × σ} (hrun : ∀ s, m.run s = some (f s)) (hstep : ∀ s, R s (f s).2) :
    Treads R m := by
  refine ⟨fun {s a s'} hsome => ?_⟩
  rw [hrun] at hsome
  obtain rfl := congrArg Prod.snd (Option.some.inj hsome)
  exact .single (hstep s)

/-- An operation that leaves the state as it is. -/
theorem still {f : σ → α} (hrun : ∀ s, m.run s = some (f s, s)) : Treads R m := by
  refine ⟨fun {s a s'} hsome => ?_⟩
  rw [hrun] at hsome
  obtain rfl := congrArg Prod.snd (Option.some.inj hsome)
  exact .refl

theorem pure (a : α) : Treads R (pure a) := still fun _ => rfl

theorem getThe : Treads R (getThe σ) := still fun _ => rfl

theorem modify {f : σ → σ} (hf : ∀ s, R s (f s)) : Treads R (modifyThe σ f) :=
  step (fun _ => rfl) hf

end Treads

/-- Steps lead to whatever outcome an operation has, whether it fails or not. -/
def Walks (R : σ → σ → Prop) (m : ExceptT ε (StateT σ Option) α) : Prop := Treads R m.run

namespace Walks

variable {m : ExceptT ε (StateT σ Option) α}

theorem bind {f : α → ExceptT ε (StateT σ Option) β} (hm : Walks R m) (hf : ∀ a, Walks R (f a)) :
    Walks R (m >>= f) := by
  unfold Walks
  rw [ExceptT.run_bind]
  refine Treads.bind hm fun outcome => ?_
  cases outcome with
  | ok a => exact hf a
  | error e => exact .pure _

theorem mono {R' : σ → σ → Prop} (hm : Walks R m) (hR : ∀ {s s'}, R s s' → R' s s') :
    Walks R' m := Treads.mono hm hR

theorem tryCatch {handler : ε → ExceptT ε (StateT σ Option) α} (hm : Walks R m)
    (hcatch : ∀ e, Walks R (handler e)) : Walks R (tryCatch m handler) := by
  unfold Walks
  rw [ExceptT.run_tryCatch]
  refine Treads.bind hm fun outcome => ?_
  cases outcome with
  | ok a => exact .pure _
  | error e => exact hcatch e

theorem pure (a : α) : Walks R (pure a : ExceptT ε (StateT σ Option) α) := Treads.pure _

theorem throw (e : ε) : Walks R (throw e : ExceptT ε (StateT σ Option) α) := Treads.pure _

theorem map {f : α → β} (hm : Walks R m) : Walks R (f <$> m) := by
  rw [← bind_pure_comp]
  exact hm.bind fun _ => pure _

/-- An operation that cannot fail. -/
theorem liftM {m : StateT σ Option α} (hm : Treads R m) :
    Walks R (liftM m : ExceptT ε (StateT σ Option) α) := by
  show Treads R (ExceptT.lift m : ExceptT ε (StateT σ Option) α).run
  rw [ExceptT.run_lift, ← bind_pure_comp]
  exact hm.bind fun _ => .pure _

theorem getThe : Walks R (getThe σ : ExceptT ε (StateT σ Option) σ) := liftM Treads.getThe

theorem modify {f : σ → σ} (hf : ∀ s, R s (f s)) :
    Walks R (modifyThe σ f : ExceptT ε (StateT σ Option) Unit) :=
  liftM (Treads.modify hf)

/-- One operation for each item of a list, in order. -/
theorem mapM {f : β → ExceptT ε (StateT σ Option) α} (hf : ∀ item, Walks R (f item))
    (items : List β) : Walks R (items.mapM f) := by
  induction items with
  | nil => exact pure _
  | cons item rest ih =>
    rw [List.mapM_cons]
    exact (hf item).bind fun _ => ih.bind fun _ => pure _

end Walks
end Retention
