import Retention.Search.Run

/-!
# Steps of a search

What a step of a search answers and leaves (`WP`), and what two steps agree on
(`Agree`), put together from the steps that it is made of.

* `exec_bind`, `exec_map`: equations by which a step is executed;
* `WP.bind`, `WP.forM`, `WP.mapM`: a step after another, and a step for each
  item of a list;
* `Agree.bind`, `Agree.forM`, `Agree.mapM`: the same of two runs.
-/

namespace Retention.Search

variable {α β γ δ : Type}

/-- What a step answers, or why it fails, and the state it leaves. -/
def exec (m : Step α) (s : State) : Except Abrupt α × State := m.run.run s

@[simp] theorem exec_lift (x : Except Abrupt α) (s : State) :
    exec (liftM x : Step α) s = (x, s) := rfl

@[simp] theorem exec_get (s : State) : exec get s = (.ok s, s) := rfl

@[simp] theorem exec_modify (f : State → State) (s : State) : exec (modify f) s = (.ok (), f s) := rfl

@[simp] theorem exec_modifyGet (f : State → α × State) (s : State) :
    exec (modifyGet f : Step α) s = (.ok (f s).1, (f s).2) := rfl

@[simp] theorem exec_bind (m : Step α) (f : α → Step β) (s : State) :
    exec (m >>= f) s =
      match exec m s with
      | (.ok a, s') => exec (f a) s'
      | (.error cause, s') => (.error cause, s') := by
  show (ExceptT.bindCont f (exec m s).1 : StateM State _).run (exec m s).2 = _
  rcases exec m s with ⟨_ | _, _⟩ <;> rfl

@[simp] theorem exec_map (f : α → β) (m : Step α) (s : State) :
    exec (f <$> m) s = ((exec m s).1.map f, (exec m s).2) := by
  rw [← bind_pure_comp, exec_bind]
  rcases exec m s with ⟨_ | _, _⟩ <;> rfl

/-! ## One run -/

/-- `Q` holds of what a step answers and leaves, and the step only fails if it
may. -/
def WP (m : Step α) (mayFail : Prop) (s : State) (Q : α → State → Prop) : Prop :=
  match exec m s with
  | (.ok a, s') => Q a s'
  | (.error _, _) => mayFail

namespace WP

variable {m : Step α} {E : Prop} {s : State} {Q : α → State → Prop}

theorem pure {a : α} (h : Q a s) : WP (pure a) E s Q := h

theorem throw {cause : Abrupt} (h : E) : WP (throw cause) E s Q := h

theorem get {Q : State → State → Prop} (h : Q s s) : WP get E s Q := h

theorem modify {f : State → State} {Q : Unit → State → Prop} (h : Q () (f s)) :
    WP (modify f) E s Q := h

theorem modifyGet {f : State → α × State} (h : Q (f s).1 (f s).2) : WP (modifyGet f) E s Q := h

theorem lift {x : Except Abrupt α} (hok : ∀ a, x = .ok a → Q a s)
    (hfail : ∀ cause, x = .error cause → E) : WP (liftM x) E s Q := by
  unfold WP
  rw [exec_lift]
  cases x with
  | ok a => exact hok a rfl
  | error cause => exact hfail cause rfl

theorem bind {f : α → Step β} {Q : β → State → Prop}
    (h : WP m E s fun a s' => WP (f a) E s' Q) : WP (m >>= f) E s Q := by
  unfold WP at h ⊢
  rw [exec_bind]
  cases hm : exec m s with
  | mk outcome s' =>
    rw [hm] at h
    cases outcome with
    | ok a => exact h
    | error cause => exact h

theorem map {f : α → β} {Q : β → State → Prop} (h : WP m E s fun a s' => Q (f a) s') :
    WP (f <$> m) E s Q := by
  rw [← bind_pure_comp]
  exact bind h

theorem mono {Q' : α → State → Prop} (h : WP m E s Q) (hQ : ∀ a s', Q a s' → Q' a s') :
    WP m E s Q' := by
  unfold WP at h ⊢
  split
  · rename_i hm
    rw [hm] at h
    exact hQ _ _ h
  · rename_i hm
    rw [hm] at h
    exact h

theorem and {Q' : α → State → Prop} (h : WP m E s Q) (h' : WP m E s Q') :
    WP m E s fun a s' => Q a s' ∧ Q' a s' := by
  unfold WP at h h' ⊢
  split
  · rename_i hm
    rw [hm] at h h'
    exact ⟨h, h'⟩
  · rename_i hm
    rw [hm] at h
    exact h

/-- What a step that does not fail answers. -/
theorem of_exec_eq_ok {a : α} {s' : State} (h : WP m E s Q) (hm : exec m s = (.ok a, s')) :
    Q a s' := by
  unfold WP at h
  rwa [hm] at h

/-- A step that must not fail answers something. -/
theorem exists_ok (h : WP m False s Q) : ∃ a s', exec m s = (.ok a, s') ∧ Q a s' := by
  unfold WP at h
  split at h
  · exact ⟨_, _, ‹_›, h⟩
  · exact h.elim

/-- An invariant over the items of a list, said of the items that are behind. -/
theorem forM {items : List α} {f : α → Step Unit} {I : List α → State → Prop}
    (hstep : ∀ (behind : List α) (a : α) (ahead : List α) (s : State),
      items = behind ++ a :: ahead → I behind s → WP (f a) E s fun _ s' => I (behind ++ [a]) s')
    (h : I [] s) : WP (items.forM f) E s fun _ s' => I items s' := by
  suffices ∀ (ahead behind : List α) (s : State), items = behind ++ ahead → I behind s →
      WP (ahead.forM f) E s fun _ s' => I items s' from this items [] s rfl h
  intro ahead
  induction ahead with
  | nil =>
    intro behind s hi hb
    rw [List.append_nil] at hi
    exact pure (hi ▸ hb)
  | cons a ahead ih =>
    intro behind s hi hb
    exact bind ((hstep behind a ahead s hi hb).mono fun _ s' hs' =>
      ih (behind ++ [a]) s' (by rw [hi, List.append_cons]) hs')

theorem mapM {items : List α} {f : α → Step β} {I : List α → List β → State → Prop}
    (hstep : ∀ (behind : List α) (a : α) (ahead : List α) (bs : List β) (s : State),
      items = behind ++ a :: ahead → I behind bs s →
      WP (f a) E s fun b s' => I (behind ++ [a]) (bs ++ [b]) s')
    (h : I [] [] s) : WP (items.mapM f) E s fun bs s' => I items bs s' := by
  rw [← List.mapM'_eq_mapM]
  suffices ∀ (ahead behind : List α) (before : List β) (s : State), items = behind ++ ahead →
      I behind before s → WP (ahead.mapM' f) E s fun bs s' => I items (before ++ bs) s' from
    this items [] [] s rfl h
  intro ahead
  induction ahead with
  | nil =>
    intro behind before s hi hb
    rw [List.append_nil] at hi
    exact pure (by rw [List.append_nil, hi]; exact hb)
  | cons a ahead ih =>
    intro behind before s hi hb
    refine bind ((hstep behind a ahead before s hi hb).mono fun b s' hs' => bind ?_)
    refine (ih (behind ++ [a]) (before ++ [b]) s' (by rw [hi, List.append_cons]) hs').mono
      fun bs s'' hs'' => pure ?_
    rwa [List.append_assoc] at hs''

end WP

/-! ## Two runs -/

/-- From related states, two steps answer related values and leave related
states, or fail alike. -/
def Agree (R : State → State → Prop) (V : α → β → Prop) (m : Step α) (n : Step β) : Prop :=
  ∀ s t, R s t →
    match exec m s, exec n t with
    | (.ok a, s'), (.ok b, t') => V a b ∧ R s' t'
    | (.error cause, s'), (.error cause', t') => cause = cause' ∧ R s' t'
    | _, _ => False

namespace Agree

variable {R : State → State → Prop} {V : α → β → Prop} {W : γ → δ → Prop}

theorem pure {a : α} {b : β} (h : V a b) : Agree R V (pure a) (pure b) := fun _ _ hR => ⟨h, hR⟩

theorem throw (cause : Abrupt) : Agree R V (throw cause) (throw cause) := fun _ _ hR => ⟨rfl, hR⟩

theorem get : Agree R R get get := fun _ _ hR => ⟨hR, hR⟩

theorem modify {f g : State → State} (h : ∀ s t, R s t → R (f s) (g t)) :
    Agree R Eq (modify f) (modify g) := fun s t hR => ⟨rfl, h s t hR⟩

theorem modifyGet {f : State → α × State} {g : State → β × State}
    (h : ∀ s t, R s t → V (f s).1 (g t).1 ∧ R (f s).2 (g t).2) :
    Agree R V (modifyGet f) (modifyGet g) := fun s t hR => h s t hR

theorem lift {x : Except Abrupt α} : Agree R Eq (liftM x) (liftM x) := fun s t hR => by
  rw [exec_lift, exec_lift]
  cases x with
  | ok a => exact ⟨rfl, hR⟩
  | error cause => exact ⟨rfl, hR⟩

theorem bind {m : Step α} {n : Step β} {f : α → Step γ} {g : β → Step δ} (h : Agree R V m n)
    (hf : ∀ a b, V a b → Agree R W (f a) (g b)) : Agree R W (m >>= f) (n >>= g) := fun s t hR => by
  have hmn := h s t hR
  rw [exec_bind, exec_bind]
  revert hmn
  rcases exec m s with ⟨_ | a, s'⟩ <;> rcases exec n t with ⟨_ | b, t'⟩
  · exact id
  · exact False.elim
  · exact False.elim
  · exact fun hmn => hf a b hmn.1 s' t' hmn.2

/-- Two steps that agree answer both, or fail both for the same cause. -/
theorem outcomes {m : Step α} {n : Step β} (h : Agree R V m n) {s t : State} (hR : R s t) :
    (∃ a b s' t', exec m s = (.ok a, s') ∧ exec n t = (.ok b, t') ∧ V a b) ∨
      ∃ cause s' t', exec m s = (.error cause, s') ∧ exec n t = (.error cause, t') := by
  have hmn := h s t hR
  revert hmn
  rcases exec m s with ⟨_ | a, s'⟩ <;> rcases exec n t with ⟨_ | b, t'⟩
  · rintro ⟨rfl, -⟩
    exact .inr ⟨_, s', t', rfl, rfl⟩
  · exact False.elim
  · exact False.elim
  · exact fun hmn => .inl ⟨a, b, s', t', rfl, rfl, hmn.1⟩

theorem map {m : Step α} {n : Step β} {f : α → γ} {g : β → δ} (h : Agree R V m n)
    (hf : ∀ a b, V a b → W (f a) (g b)) : Agree R W (f <$> m) (g <$> n) := by
  rw [← bind_pure_comp, ← bind_pure_comp]
  exact bind h fun a b hab => pure (hf a b hab)

theorem forM {f g : α → Step Unit} (h : ∀ a, Agree R Eq (f a) (g a)) (items : List α) :
    Agree R Eq (items.forM f) (items.forM g) := by
  induction items with
  | nil => exact pure rfl
  | cons a rest ih => exact bind (h a) fun _ _ _ => ih

theorem mapM {f g : α → Step β} (h : ∀ a, Agree R Eq (f a) (g a)) (items : List α) :
    Agree R Eq (items.mapM f) (items.mapM g) := by
  rw [← List.mapM'_eq_mapM, ← List.mapM'_eq_mapM]
  induction items with
  | nil => exact pure rfl
  | cons a rest ih =>
    exact bind (h a) fun _ _ hb => bind ih fun _ _ hbs => pure (by rw [hb, hbs])

end Agree
end Retention.Search
