import Retention.Proofs.Realm.Rewriting

/-!
# The cells of finalization registries

What is called on a registry is logged, with what came of it (`LoggedCall`). The cells
of the registry are read off the log: they are the registrations that succeeded and were
not undone by a later call, in order (`standing`). Calls that fail leave the cells as
they are, and so does whatever else happens in the realm, as long as it leaves the
internal slots of the registry alone (`Realm.Logs`).

* `standing_concat`: what one call more does to the registrations.
* `Realm.exec_call_eq_ok`: what a call that succeeds does.
* `Realm.Logs.exists_cells`, `Realm.Logs.exists_answer`: the cells after any number of
  calls, and what they answered.
* `Realm.Logs.callAll`: calls on any number of registries are logged for each of them.
-/

namespace Retention

/-- A call on a finalization registry. -/
inductive RegistryCall where
  | register (target held : Value) (token? : Option Value)
  | unregister (token : Value)
deriving DecidableEq, Repr

/-- The effect that a call on a registry is. -/
def RegistryCall.effect (ref : ObjectRef) : RegistryCall → Effect
  | register target held token? => .register ref target held token?
  | unregister token => .unregister ref token

/-- A registration was made with a token. -/
def Cell.hasToken (cell : Cell) (token : Value) : Bool := cell.token?.any (·.sameValue token)

/-- A call on a registry, and what came of it. -/
structure LoggedCall where
  call : RegistryCall
  outcome : Except Abrupt Answer
deriving DecidableEq

namespace LoggedCall

/-- The registration that a call made, if it succeeded. A token of `undefined` is none. -/
def cell? : LoggedCall → Option Cell
  | ⟨.register target held token?, .ok _⟩ =>
    some { target, held, token? := token?.filter (· != .undefined) }
  | _ => none

/-- A call succeeded in undoing the registrations that were made with its token. -/
def undoes (cell : Cell) : LoggedCall → Bool
  | ⟨.unregister token, .ok _⟩ => cell.hasToken token
  | _ => false

/-- A registration without a token is not undone. -/
theorem undoes_eq_false {cell : Cell} (htoken : cell.token? = none) (l : LoggedCall) :
    l.undoes cell = false := by
  unfold undoes
  split
  · rw [Cell.hasToken, htoken, Option.any_none]
  · rfl

/-- What a call leaves of the registrations before it, and the one that it makes. -/
def next (l : LoggedCall) (cells : List Cell) : List Cell :=
  cells.filter (!l.undoes ·) ++ l.cell?.toList

theorem next_of_error (call : RegistryCall) (cause : Abrupt) (cells : List Cell) :
    (LoggedCall.mk call (.error cause)).next cells = cells := by
  cases call <;> simp [next, undoes, cell?]

end LoggedCall

/-- The registrations that no later call undid, in the order in which they were made. -/
def standing : List LoggedCall → List Cell
  | [] => []
  | l :: later => l.cell?.toList.filter (fun cell => !later.any (·.undoes cell)) ++ standing later

/-- One call more. -/
theorem standing_concat (log : List LoggedCall) (l : LoggedCall) :
    standing (log ++ [l]) = l.next (standing log) := by
  induction log with
  | nil => simp [standing, LoggedCall.next]
  | cons first rest ih =>
    have hfirst : first.cell?.toList.filter (fun cell => !(rest ++ [l]).any (·.undoes cell)) =
        (first.cell?.toList.filter fun cell => !rest.any (·.undoes cell)).filter
          (!l.undoes ·) := by
      simp [List.filter_filter, Bool.and_comm]
    rw [List.cons_append, standing, standing, ih, hfirst, LoggedCall.next, LoggedCall.next,
      List.filter_append, List.append_assoc]

/-- Undoing registrations leaves fewer of them if some were made with the token. -/
theorem length_standing_concat_lt_iff (log : List LoggedCall) (token : Value) (answer : Answer) :
    (standing (log ++ [⟨.unregister token, .ok answer⟩])).length < (standing log).length ↔
      (standing log).any (·.hasToken token) = true := by
  simp [standing_concat, LoggedCall.next, LoggedCall.undoes, LoggedCall.cell?,
    List.length_filter_lt_length_iff_exists]

/-- The registrations that were made without a token all stand. -/
theorem filter_standing (log : List LoggedCall) :
    (standing log).filter (·.token?.isNone) =
      (log.filterMap LoggedCall.cell?).filter (·.token?.isNone) := by
  have hnever : ∀ {cell : Cell} (later : List LoggedCall), cell.token?.isNone = true →
      later.any (·.undoes cell) = false := fun later hnone =>
    List.any_eq_false.mpr fun l _ => by
      rw [LoggedCall.undoes_eq_false (Option.isNone_iff_eq_none.mp hnone)]
      exact Bool.false_ne_true
  induction log with
  | nil => rfl
  | cons l later ih =>
    rw [standing, List.filter_append, ih, List.filter_filter]
    cases hcell : l.cell? with
    | none => simp [hcell]
    | some cell =>
      cases htoken : cell.token?.isNone with
      | false => simp [hcell, htoken]
      | true => simp [hcell, htoken, hnever later htoken]

namespace Realm

variable {r r' : Realm} {ref callback : ObjectRef} {cells : Sequence Cell}

/-! ## One call -/

theorem kind_of_registryOf (hok : exec (registryOf ref) r = (.ok (callback, cells), r')) :
    r.heap.kind ref = .ok (.finalizationRegistry callback cells) := by
  rw [registryOf] at hok
  obtain ⟨k, hk, hok⟩ := (Checks.kind ref).bind_eq_ok hok
  obtain ⟨hk, -⟩ := Prod.mk.inj ((exec_kind ref).symm.trans hk)
  split at hok
  · obtain ⟨hpair, -⟩ := Prod.mk.inj hok
    cases hpair
    exact hk
  · rw [exec_throwTypeError_eq] at hok
    cases hok

/-- A registration that succeeds adds a cell at the end. -/
theorem exec_register_eq_ok {target held : Value} {token? : Option Value}
    (hok : exec (register ref target held token?) r = (.ok (), r')) :
    ∃ callback cells, r.heap.kind ref = .ok (.finalizationRegistry callback cells) ∧
      exec (setKind ref (.finalizationRegistry callback
        (cells.push { target, held, token? := token?.filter (· != .undefined) }))) r =
          (.ok (), r') := by
  rw [register] at hok
  obtain ⟨⟨callback, cells⟩, hregistry, hok⟩ := (Checks.registryOf ref).bind_eq_ok hok
  refine ⟨callback, cells, kind_of_registryOf hregistry, ?_⟩
  obtain ⟨-, -, hok⟩ := (Checks.requireWeaklyHoldable target _).bind_eq_ok hok
  split at hok
  · rw [exec_bind, exec_throwTypeError_eq] at hok
    cases hok
  · dsimp only at hok
    split at hok
    · rename_i token htoken
      obtain ⟨-, -, hok⟩ := (Checks.requireWeaklyHoldable token _).bind_eq_ok hok
      exact hok
    · exact hok

/-- The size of a sequence changes when an item is dropped. -/
theorem size_filter_not_bne {γ : Type} (items : Sequence γ) (p : γ → Bool) :
    ((items.filter fun a => !p a).size != items.size) = items.any p := by
  rw [← Sequence.length_toList, ← Sequence.length_toList, Sequence.toList_filter,
    ← Sequence.any_toList, Bool.eq_iff_iff, bne_iff_ne, Ne, List.length_filter_eq_length_iff,
    List.any_eq_true]
  simp

/-- Undoing registrations takes their cells away, and tells whether there were any. -/
theorem exec_unregister_eq_ok {token : Value} {removed : Bool}
    (hok : exec (unregister ref token) r = (.ok removed, r')) :
    ∃ callback cells, r.heap.kind ref = .ok (.finalizationRegistry callback cells) ∧
      exec (setKind ref (.finalizationRegistry callback
        (cells.filter fun cell => !cell.hasToken token))) r = (.ok (), r') ∧
      removed = cells.any (·.hasToken token) := by
  rw [unregister] at hok
  obtain ⟨⟨callback, cells⟩, hregistry, hok⟩ := (Checks.registryOf ref).bind_eq_ok hok
  refine ⟨callback, cells, kind_of_registryOf hregistry, ?_⟩
  obtain ⟨-, -, hok⟩ := (Checks.requireWeaklyHoldable token _).bind_eq_ok hok
  obtain ⟨⟨⟩, r₁, hset, hret⟩ := exec_bind_eq_ok hok
  obtain ⟨hremoved, rfl⟩ := Prod.mk.inj hret
  refine ⟨hset, ?_⟩
  rw [← Except.ok.inj hremoved]
  exact size_filter_not_bne cells _

theorem ChangesObject.setKind (target : ObjectRef) (k : ObjectKind) :
    ChangesObject (setKind target k) target fun o => { o with kind := k } := .update target _

/-- The internal slots that were written. -/
theorem kind_of_setKind {k : ObjectKind} (hok : exec (setKind ref k) r = (.ok (), r')) :
    r'.heap.kind ref = .ok k := by
  have hset := (exec_changeHeap (r := r)
    (·.update ref fun o => ((), { o with kind := k }))).symm.trans hok
  cases ho : r.heap.object ref with
  | error cause =>
    rw [Heap.update_of_object_eq_error ho] at hset
    cases hset
  | ok o =>
    obtain ⟨-, rfl⟩ := Prod.mk.inj hset
    exact Heap.kind_of_object (Heap.object_update_of_object ho _)

/-- What a call on a registry does if it succeeds. -/
theorem exec_call_eq_ok {call : RegistryCall} {answer : Answer}
    (hok : exec (call.effect ref).run r = (.ok answer, r')) :
    ∃ callback cells cells', r.heap.kind ref = .ok (.finalizationRegistry callback cells) ∧
      exec (setKind ref (.finalizationRegistry callback cells')) r = (.ok (), r') ∧
      cells'.toList = (LoggedCall.mk call (.ok answer)).next cells.toList ∧
      ∀ token, call = .unregister token →
        answer = .bool (cells.toList.any (·.hasToken token)) := by
  cases call with
  | register target held token? =>
    obtain ⟨⟨⟩, r₁, hreg, hret⟩ := exec_bind_eq_ok hok
    obtain ⟨-, rfl⟩ := Prod.mk.inj hret
    obtain ⟨callback, cells, hk, hset⟩ := exec_register_eq_ok hreg
    refine ⟨callback, cells, _, hk, hset, ?_, nofun⟩
    simp [LoggedCall.next, LoggedCall.undoes, LoggedCall.cell?]
  | unregister token =>
    have hrun : (RegistryCall.effect ref (.unregister token)).run =
        unregister ref token >>= fun removed => pure (.bool removed) :=
      (bind_pure_comp Answer.bool _).symm
    rw [hrun] at hok
    obtain ⟨removed, r₁, hunreg, hret⟩ := exec_bind_eq_ok hok
    obtain ⟨hanswer, rfl⟩ := Prod.mk.inj hret
    obtain ⟨callback, cells, hk, hset, rfl⟩ := exec_unregister_eq_ok hunreg
    refine ⟨callback, cells, _, hk, hset, ?_, fun token' htoken => ?_⟩
    · simp [LoggedCall.next, LoggedCall.undoes, LoggedCall.cell?]
    · cases htoken
      rw [Sequence.any_toList]
      exact (Except.ok.inj hanswer).symm

/-- A call that fails leaves the objects there are as they were. -/
theorem kind_of_call_eq_error {call : RegistryCall} {receiver : ObjectRef} {cause : Abrupt}
    {k : ObjectKind} (hk : r.heap.kind ref = .ok k)
    (hfail : exec (call.effect receiver).run r = (.error cause, r')) :
    r'.heap.kind ref = .ok k := by
  have hchecks : (call.effect receiver).ChecksFirst r.heap := by cases call <;> trivial
  obtain ⟨o, ho, rfl⟩ := Heap.kind_eq_ok_iff.mp hk
  cases refuses_of_checksFirst hchecks hfail with
  | invalidHandle => exact hk
  | thrown message => exact Heap.kind_of_object (object_withError ho _ message)

/-- A new registry has no cells. -/
theorem exec_newRegistry_eq_ok {callback : Value}
    (hok : exec (newRegistry callback) r = (.ok ref, r')) :
    ∃ cleanup, r'.heap.kind ref = .ok (.finalizationRegistry cleanup {}) := by
  rw [newRegistry] at hok
  obtain ⟨a, hget, hok⟩ := Checks.getThe.bind_eq_ok hok
  split at hok
  · rename_i cleanup _
    obtain ⟨href, rfl⟩ := Prod.mk.inj hok
    obtain rfl := Except.ok.inj href
    exact ⟨cleanup, Heap.kind_of_object (Heap.object_alloc_self ..)⟩
  · rw [exec_throwTypeError_eq] at hok
    cases hok

/-- A call on a registry, whatever comes of it. -/
theorem exists_cells_of_call {call : RegistryCall} {outcome : Except Abrupt Answer}
    (hk : r.heap.kind ref = .ok (.finalizationRegistry callback cells))
    (hcall : exec (call.effect ref).run r = (outcome, r')) :
    ∃ cells', r'.heap.kind ref = .ok (.finalizationRegistry callback cells') ∧
      cells'.toList = (LoggedCall.mk call outcome).next cells.toList := by
  cases outcome with
  | error cause =>
    exact ⟨cells, kind_of_call_eq_error hk hcall, (LoggedCall.next_of_error ..).symm⟩
  | ok answer =>
    obtain ⟨callback', cells', cells'', hk', hset, hcells, -⟩ := exec_call_eq_ok hcall
    cases hk.symm.trans hk'
    exact ⟨cells'', kind_of_setKind hset, hcells⟩

/-- A call on one object leaves the internal slots of the others. -/
theorem kind_of_call_of_ne {call : RegistryCall} {receiver : ObjectRef} {k : ObjectKind}
    (hk : r.heap.kind ref = .ok k) (hne : ref ≠ receiver) :
    (exec (call.effect receiver).run r).2.heap.kind ref = .ok k := by
  cases hcall : exec (call.effect receiver).run r with
  | mk outcome r' =>
    cases outcome with
    | error cause => exact kind_of_call_eq_error hk hcall
    | ok answer =>
      obtain ⟨callback, _, cells', -, hset, -⟩ := exec_call_eq_ok hcall
      obtain ⟨o, ho, rfl⟩ := Heap.kind_eq_ok_iff.mp hk
      have hsame :=
        ChangesObject.setKind receiver (.finalizationRegistry callback cells') r ref o ho
      rw [if_neg (Ne.symm hne)] at hsame
      exact Heap.kind_of_object ((congrArg (·.2.heap.object ref) hset).symm.trans hsame)

/-! ## Any number of calls -/

/-- Calls on a registry, one after the other. What happens in between leaves the internal
slots of the registry as they are. -/
inductive Logs (ref : ObjectRef) (r : Realm) : List LoggedCall → Realm → Prop where
  | nil : Logs ref r [] r
  | call {log : List LoggedCall} {call : RegistryCall} {outcome : Except Abrupt Answer}
    {r' r'' : Realm} (before : Logs ref r log r')
    (ran : exec (call.effect ref).run r' = (outcome, r'')) :
    Logs ref r (log ++ [⟨call, outcome⟩]) r''
  | other {log : List LoggedCall} {r' r'' : Realm} (before : Logs ref r log r')
    (same : r''.heap.kind ref = r'.heap.kind ref) : Logs ref r log r''

/-- What calls on any objects, one after the other, come to, and the realm that they
leave. -/
def callAll (r : Realm) : List (ObjectRef × RegistryCall) → List (ObjectRef × LoggedCall) × Realm
  | [] => ([], r)
  | (receiver, call) :: rest =>
    let first := exec (call.effect receiver).run r
    let others := callAll first.2 rest
    ((receiver, ⟨call, first.1⟩) :: others.1, others.2)

/-- The calls on one object. -/
def callsOn (ref : ObjectRef) (log : List (ObjectRef × LoggedCall)) : List LoggedCall :=
  (log.filter (·.1 == ref)).map Prod.snd

theorem callsOn_cons_self (l : LoggedCall) (log : List (ObjectRef × LoggedCall)) :
    callsOn ref ((ref, l) :: log) = l :: callsOn ref log := by
  simp [callsOn]

theorem callsOn_cons_of_ne {receiver : ObjectRef} (hne : receiver ≠ ref) (l : LoggedCall)
    (log : List (ObjectRef × LoggedCall)) :
    callsOn ref ((receiver, l) :: log) = callsOn ref log := by
  simp [callsOn, hne]

namespace Logs

variable {log : List LoggedCall}

/-- The cells of a new registry are the registrations that stand. -/
theorem exists_cells (h : Logs ref r log r')
    (hk : r.heap.kind ref = .ok (.finalizationRegistry callback {})) :
    ∃ cells, r'.heap.kind ref = .ok (.finalizationRegistry callback cells) ∧
      cells.toList = standing log := by
  induction h with
  | nil => exact ⟨{}, hk, rfl⟩
  | call _ ran ih =>
    obtain ⟨cells, hk', hcells⟩ := ih
    obtain ⟨cells', hk'', hcells'⟩ := exists_cells_of_call hk' ran
    exact ⟨cells', hk'', by rw [hcells', hcells, standing_concat]⟩
  | other _ same ih =>
    obtain ⟨cells, hk', hcells⟩ := ih
    exact ⟨cells, same.trans hk', hcells⟩

/-- Whatever calls are made on any registries, those on one of them are logged. -/
theorem callAll (h : Logs ref r log r')
    (hk : r.heap.kind ref = .ok (.finalizationRegistry callback {}))
    (calls : List (ObjectRef × RegistryCall)) :
    Logs ref r (log ++ callsOn ref (r'.callAll calls).1) (r'.callAll calls).2 := by
  induction calls generalizing log r' with
  | nil => exact (List.append_nil log).symm ▸ h
  | cons first rest ih =>
    obtain ⟨receiver, call⟩ := first
    have hcalls : (r'.callAll ((receiver, call) :: rest)).1 =
        (receiver, ⟨call, (exec (call.effect receiver).run r').1⟩) ::
          ((exec (call.effect receiver).run r').2.callAll rest).1 := rfl
    rw [hcalls]
    by_cases hreceiver : receiver = ref
    · subst hreceiver
      rw [callsOn_cons_self, List.append_cons]
      exact ih (h.call rfl)
    · obtain ⟨cells, hk', -⟩ := h.exists_cells hk
      rw [callsOn_cons_of_ne hreceiver]
      exact ih (h.other ((kind_of_call_of_ne hk' (Ne.symm hreceiver)).trans hk'.symm))

/-- A call was made in the realm to which the calls before it led. -/
theorem exists_ran (h : Logs ref r log r') {before after : List LoggedCall} {call : RegistryCall}
    {outcome : Except Abrupt Answer} (hlog : log = before ++ ⟨call, outcome⟩ :: after) :
    ∃ r₁ r₂, Logs ref r before r₁ ∧ exec (call.effect ref).run r₁ = (outcome, r₂) := by
  induction h generalizing after with
  | nil => exact absurd hlog (by simp)
  | @call log _ _ r₁ r₂ hbefore ran ih =>
    rcases List.eq_nil_or_concat after with rfl | ⟨rest, last, rfl⟩
    · obtain ⟨rfl, hlast⟩ := List.append_inj' hlog rfl
      cases hlast
      exact ⟨r₁, r₂, hbefore, ran⟩
    · rw [List.concat_eq_append, ← List.cons_append, ← List.append_assoc] at hlog
      exact ih (List.append_inj' hlog rfl).1
  | other _ _ ih => exact ih hlog

/-- Undoing registrations tells whether any were undone. -/
theorem exists_answer (h : Logs ref r log r')
    (hk : r.heap.kind ref = .ok (.finalizationRegistry callback {}))
    {before after : List LoggedCall} {token : Value} {answer : Answer}
    (hlog : log = before ++ ⟨.unregister token, .ok answer⟩ :: after) :
    ∃ removed, answer = .bool removed ∧ (removed = true ↔
      (standing (before ++ [⟨.unregister token, .ok answer⟩])).length <
        (standing before).length) := by
  obtain ⟨r₁, r₂, hbefore, ran⟩ := h.exists_ran hlog
  obtain ⟨cells, hk', hcells⟩ := hbefore.exists_cells hk
  obtain ⟨callback', cells', -, hk'', -, -, hanswer⟩ := exec_call_eq_ok ran
  cases hk'.symm.trans hk''
  exact ⟨_, hanswer token rfl, by rw [length_standing_concat_lt_iff, hcells]⟩

end Logs
end Realm
end Retention
