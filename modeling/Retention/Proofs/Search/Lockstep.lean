import Mathlib.Data.List.Forall2
import Retention.Proofs.Search.Step

/-!
# Two searches in lockstep

What two steps, each from a state of its own, answer and leave (`Lockstep`):
both answer, or both fail for the same cause. In contrast to `Agree` the states
need not be related the same way before and after.

* `Lockstep.bind`, `Lockstep.forM`, `Lockstep.mapM`: a step after another, and a
  step for each item of two lists;
* `Lockstep.and_left`, `Lockstep.and_right`: what is known of one of the two;
* `Lockstep.diagonal`: a search in lockstep with itself.
-/

namespace Retention.Search

variable {α β γ δ : Type}

/-- Two steps answer and leave what `Q` says, or fail alike. -/
def Lockstep (m : Step α) (n : Step β) (s t : State) (Q : α → β → State → State → Prop) : Prop :=
  match exec m s, exec n t with
  | (.ok a, s'), (.ok b, t') => Q a b s' t'
  | (.error cause, _), (.error cause', _) => cause = cause'
  | _, _ => False

namespace Lockstep

variable {m : Step α} {n : Step β} {s t : State} {Q : α → β → State → State → Prop}

theorem pure {a : α} {b : β} (h : Q a b s t) : Lockstep (pure a) (pure b) s t Q := h

theorem throw (cause : Abrupt) :
    Lockstep (throw cause : Step α) (throw cause : Step β) s t Q := rfl

theorem get {Q : State → State → State → State → Prop} (h : Q s t s t) :
    Lockstep get get s t Q := h

theorem modify {f g : State → State} {Q : Unit → Unit → State → State → Prop}
    (h : Q () () (f s) (g t)) : Lockstep (modify f) (modify g) s t Q := h

theorem modifyGet {f : State → α × State} {g : State → β × State}
    (h : Q (f s).1 (g t).1 (f s).2 (g t).2) : Lockstep (modifyGet f) (modifyGet g) s t Q := h

theorem lift {x : Except Abrupt α} {y : Except Abrupt β}
    (hok : ∀ a, x = .ok a → ∃ b, y = .ok b ∧ Q a b s t)
    (hfail : ∀ cause, x = .error cause → y = .error cause) :
    Lockstep (liftM x) (liftM y) s t Q := by
  unfold Lockstep
  rw [exec_lift, exec_lift]
  cases x with
  | ok a =>
    obtain ⟨b, rfl, h⟩ := hok a rfl
    exact h
  | error cause =>
    rw [hfail cause rfl]

theorem bind {f : α → Step γ} {g : β → Step δ} {Q : γ → δ → State → State → Prop}
    (h : Lockstep m n s t fun a b s' t' => Lockstep (f a) (g b) s' t' Q) :
    Lockstep (m >>= f) (n >>= g) s t Q := by
  unfold Lockstep at h ⊢
  rw [exec_bind, exec_bind]
  revert h
  rcases exec m s with ⟨_ | a, s'⟩ <;> rcases exec n t with ⟨_ | b, t'⟩
  · exact id
  · exact False.elim
  · exact False.elim
  · exact id

theorem map {f : α → γ} {g : β → δ} {Q : γ → δ → State → State → Prop}
    (h : Lockstep m n s t fun a b => Q (f a) (g b)) : Lockstep (f <$> m) (g <$> n) s t Q := by
  rw [← bind_pure_comp, ← bind_pure_comp]
  exact bind h

theorem mono {Q' : α → β → State → State → Prop} (h : Lockstep m n s t Q)
    (hQ : ∀ a b s' t', Q a b s' t' → Q' a b s' t') : Lockstep m n s t Q' := by
  unfold Lockstep at h ⊢
  revert h
  rcases exec m s with ⟨_ | a, s'⟩ <;> rcases exec n t with ⟨_ | b, t'⟩
  · exact id
  · exact id
  · exact id
  · exact hQ a b s' t'

/-- What is known of the first step alone. -/
theorem and_left {P : α → State → Prop} (h : Lockstep m n s t Q) (hP : WP m True s P) :
    Lockstep m n s t fun a b s' t' => Q a b s' t' ∧ P a s' := by
  unfold Lockstep at h ⊢
  unfold WP at hP
  revert h hP
  rcases exec m s with ⟨_ | a, s'⟩ <;> rcases exec n t with ⟨_ | b, t'⟩
  · exact fun h _ => h
  · exact fun h _ => h
  · exact fun h _ => h
  · exact fun h hP => ⟨h, hP⟩

/-- What is known of the second step alone. -/
theorem and_right {P : β → State → Prop} (h : Lockstep m n s t Q) (hP : WP n True t P) :
    Lockstep m n s t fun a b s' t' => Q a b s' t' ∧ P b t' := by
  unfold Lockstep at h ⊢
  unfold WP at hP
  revert h hP
  rcases exec m s with ⟨_ | a, s'⟩ <;> rcases exec n t with ⟨_ | b, t'⟩
  · exact fun h _ => h
  · exact fun h _ => h
  · exact fun h _ => h
  · exact fun h hP => ⟨h, hP⟩

/-- A step that cannot fail takes itself along: it leaves one state in both runs. -/
theorem diagonal {m : Step α} {s : State} {P : α → State → Prop} {Q : α → α → State → State → Prop}
    (h : Lockstep m m s s Q) (hP : WP m False s P) :
    WP m False s fun a s' => P a s' ∧ Q a a s' s' := by
  unfold Lockstep at h
  unfold WP at hP ⊢
  revert h hP
  rcases exec m s with ⟨_ | a, s'⟩
  · exact fun _ hP => hP
  · exact fun h hP => ⟨hP, h⟩

/-- The second search waits while the first takes a step that cannot fail. -/
theorem wait_right {b : β} (h : WP m False s fun a s' => Q a b s' t) :
    Lockstep m (Pure.pure b) s t Q := by
  obtain ⟨a, s', hm, hQ⟩ := h.exists_ok
  unfold Lockstep
  rw [hm]
  exact hQ

theorem of_exec_eq {a : α} {b : β} {s' t' : State} (hm : exec m s = (.ok a, s'))
    (hn : exec n t = (.ok b, t')) (h : Q a b s' t') : Lockstep m n s t Q := by
  unfold Lockstep
  rwa [hm, hn]

/-- Where the first step answers, the second does. -/
theorem exists_ok {a : α} {s' : State} (h : Lockstep m n s t Q) (hm : exec m s = (.ok a, s')) :
    ∃ b t', exec n t = (.ok b, t') ∧ Q a b s' t' := by
  unfold Lockstep at h
  rw [hm] at h
  revert h
  rcases exec n t with ⟨_ | b, t'⟩
  · exact False.elim
  · exact fun h => ⟨b, t', rfl, h⟩

/-- An invariant over the items of two lists. -/
theorem forM {I : State → State → Prop} {V : α → β → Prop} {f : α → Step Unit} {g : β → Step Unit}
    {items : List α} {items' : List β} (hitems : List.Forall₂ V items items')
    (hstep : ∀ {a b s t}, V a b → I s t → Lockstep (f a) (g b) s t fun _ _ => I) (h : I s t) :
    Lockstep (items.forM f) (items'.forM g) s t fun _ _ => I := by
  induction hitems generalizing s t with
  | nil => exact pure h
  | cons hab _ ih => exact bind ((hstep hab h).mono fun _ _ _ _ => ih)

/-- An invariant over the items of two lists, with answers that are related. -/
theorem mapM {I : State → State → Prop} {V : α → β → Prop} {W : γ → δ → Prop} {f : α → Step γ}
    {g : β → Step δ} {items : List α} {items' : List β} (hitems : List.Forall₂ V items items')
    (hstep : ∀ {a b s t}, V a b → I s t →
      Lockstep (f a) (g b) s t fun x y s' t' => W x y ∧ I s' t') (h : I s t) :
    Lockstep (items.mapM f) (items'.mapM g) s t fun xs ys s' t' =>
      List.Forall₂ W xs ys ∧ I s' t' := by
  rw [← List.mapM'_eq_mapM, ← List.mapM'_eq_mapM]
  induction hitems generalizing s t with
  | nil => exact pure ⟨.nil, h⟩
  | cons hab _ ih =>
    refine bind ((hstep hab h).mono fun x y s' t' ⟨hxy, h'⟩ => bind ((ih h').mono ?_))
    exact fun xs ys s'' t'' ⟨hxs, h''⟩ => pure ⟨.cons hxy hxs, h''⟩

end Lockstep
end Retention.Search
