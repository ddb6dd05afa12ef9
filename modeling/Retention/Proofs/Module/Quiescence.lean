import Retention.Proofs.Guest.Arrivals
import Retention.Proofs.Module.Running

/-!
# Pumps and publication

A pump that succeeds leaves nothing to be done, and every promise that the host
was to settle is settled, in whatever order the host ended its works. A run pumps
before it publishes its searches, so that these are published.

* `Machine.settled_of_pump`: what a pump leaves.
-/

namespace Retention

open Relation Dealing

namespace World

variable {e : Embedding} {options : Options} {w : World}

/-- What changes neither what is owed nor the dealings keeps the balance. -/
theorem Balanced.of_owed {w' : World} (hw : w.Balanced) (howed : w'.realm.owed = w.realm.owed)
    (hprogress : w.realm.Progresses w'.realm) (hdealings : w'.dealings = w.dealings) :
    w'.Balanced where
  accounts := by
    intro hundisturbed
    rw [hdealings] at hundisturbed ⊢
    rw [howed]
    exact hw.accounts hundisturbed
  discharges := by
    intro before after hsplit
    rw [hdealings] at hsplit
    exact hw.discharges before after hsplit
  settles hmem := by
    rw [hdealings] at hmem
    exact (hw.settles hmem).progresses hprogress

end World

namespace Run

variable {e : Embedding} {options : Options} {steps : Nat} {inputs : Inputs} {r r' : Run}

/-! ## Runs -/

theorem balanced_delivers {w : World} (hw : w.Balanced) :
    (delivers { r with world := w }).world.Balanced :=
  hw.of_owed rfl (.of_eq rfl rfl rfl) rfl

theorem Step.balanced (hr : r.world.Balanced) (h : Step e r r') : r'.world.Balanced := by
  cases h with
  | serves serves =>
    cases serves with
    | performs steps => exact balanced_delivers (hr.steps steps)
    | works spares history => exact hr.of_owed spares.owed history rfl
  | evaluates specifier imports steps =>
    have hnoted : (r.world.notes [.bodyStarted specifier imports]).Balanced :=
      hr.of_owed rfl .refl rfl
    exact balanced_delivers (hnoted.steps steps)
  | publishes finalizes =>
    obtain ⟨-, -, rfl⟩ := Realm.exec_finalizeSearches_eq_ok finalizes
    exact hr.of_owed rfl (.of_eq rfl rfl rfl) rfl
  | keeps world delivered => exact world ▸ hr

end Run

theorem World.ComesUp.balanced {e : Embedding} {options : Options} {w : World}
    (h : ComesUp e options w) : w.Balanced :=
  h.induct (balanced_fresh options) Balanced.step fun hr hstep => hstep.balanced hr

namespace Run

variable {e : Embedding} {steps : Nat} {inputs : Inputs} {r r' : Run}

/-! ## Publication -/

/-- What a run does before it publishes its searches. -/
def prepare (e : Embedding) (steps : Nat) (inputs : Inputs) : RunM Unit := do
  require inputs.entry (← attempt (Machine.lift Realm.installHostFunctions))
  let (entry, modules) ← load inputs steps
  let _ ← evaluate e steps modules (modules.size + 1) entry
  perform inputs.entry (Machine.pump e steps)
  let warnings ← require inputs.entry (← attempt (Machine.lift Realm.reportUnhandled))
  modifyThe Run fun r => { r with warnings := r.warnings ++ warnings }

theorem execute_eq (e : Embedding) (steps : Nat) (inputs : Inputs) :
    execute e steps inputs = (do
      prepare e steps inputs
      require inputs.entry (← attempt (Machine.lift Realm.finalizeSearches))) := by
  simp only [execute, prepare, bind_assoc]

/-- Nothing is left to be done when a run publishes its searches. -/
theorem isQuiescent_of_prepare (hrun : (prepare e steps inputs).run.run r = some (.ok (), r')) :
    r'.world.realm.isQuiescent = true := by
  obtain ⟨_, _, -, hrun⟩ := run_require_attempt_lift hrun
  obtain ⟨_, _, -, hrun⟩ := run_bind_eq_ok hrun
  obtain ⟨_, _, -, hrun⟩ := run_bind_eq_ok hrun
  obtain ⟨_, r₁, hpump, hrun⟩ := run_bind_eq_ok hrun
  obtain ⟨ran, w, hran, rfl, hok⟩ := perform_cases hpump
  have hquiescent : w.realm.isQuiescent = true := by
    cases ran with
    | ok _ => exact (Machine.isQuiescent_of_pump hran).1
    | error cause => cases hok
  obtain ⟨warnings, realm, hexec, hrun⟩ := run_require_attempt_lift hrun
  obtain ⟨-, rfl⟩ := Prod.mk.inj (Option.some.inj hrun)
  obtain rfl := (congrArg Prod.snd hexec).symm
  exact hquiescent

end Run

namespace Machine

variable {e : Embedding}

/-- A pump that succeeds leaves no job and no host work, and says so. Whenever
nothing was left to be done, and no checkpoint had failed before, each outcome that
the host had promised until then had arrived once, and settled its promise unless
that was settled before. All that a run does after its last pump is to publish its
searches, which then succeeds. -/
theorem settled_of_pump (e : Embedding) (options : Options) :
    (∀ {steps : Nat} {w w' : World}, (pump e steps).run.run w = some (.ok (), w') →
      w'.realm.jobs.isEmpty = true ∧ w'.realm.hostWork.isEmpty = true ∧
        ∃ before, w'.dealings.toList = before ++ [.quiesced]) ∧
    (∀ {w : World}, w.ComesUp e options →
      ∀ before after, w.dealings.toList = before ++ .quiesced :: after →
        (∀ cause, .interrupted cause ∉ before) →
        (promises before).Perm (arrivals before) ∧
        ∀ promise outcome, .promised promise outcome ∈ before →
          ∃ pending, .arrived promise outcome pending ∈ before ∧
            w.realm.Settles promise outcome pending) ∧
    ∀ (steps : Nat) (inputs : Inputs),
      Run.execute e steps inputs = (do
        Run.prepare e steps inputs
        Run.require inputs.entry (← Run.attempt (lift Realm.finalizeSearches))) ∧
      ∀ {r r' : Run}, (Run.prepare e steps inputs).run.run r = some (.ok (), r') →
        ∃ results realm,
          Realm.exec Realm.finalizeSearches r'.world.realm = (.ok results, realm) := by
  refine ⟨fun {steps w w'} hrun => ?_, fun {w} hw before after hsplit hundisturbed =>
    hw.balanced.of_quiesced hsplit hundisturbed, fun steps inputs =>
    ⟨Run.execute_eq e steps inputs, fun {r r'} hrun => ?_⟩⟩
  · obtain ⟨hquiescent, w₁, rfl⟩ := isQuiescent_of_pump hrun
    obtain ⟨hjobs, hwork⟩ := Bool.and_eq_true_iff.mp hquiescent
    exact ⟨hjobs, hwork, w₁.dealings.toList, World.toList_push_deal w₁ .quiesced⟩
  · have hexec := Realm.exec_finalizeSearches r'.world.realm
    rw [if_pos (Run.isQuiescent_of_prepare hrun)] at hexec
    exact ⟨_, _, hexec⟩

/-- Two promises that the host is to settle, of which it rejects the second one
first. -/
def parked : World :=
  afterEffects [.promiseFromHost 2 (.completed (.bool true)),
    .promiseFromHost 0 (.failed (.message "late"))] { realm := {} }

/-- The first promise is fulfilled when a pump is over. -/
theorem settled_of_pump_parked :
    ∃ w', (pump idle 12).run.run parked = some (.ok (), w') ∧
      w'.realm.jobs.isEmpty = true ∧ w'.realm.hostWork.isEmpty = true ∧
      w'.realm.IsSettled ⟨14⟩ (.fulfilled (.bool true)) := by
  obtain ⟨hleaves, hsettles, -⟩ := settled_of_pump idle {}
  have hfacts : ((pump idle 12).run.run parked).map (fun result =>
      (result.1.isOk, result.2.dealings.toList)) =
      some (true,
        [.promised ⟨14⟩ (.completed (.bool true)), .promised ⟨15⟩ (.failed (.message "late")),
          .arrived ⟨15⟩ (.failed (.message "late")) true,
          .arrived ⟨14⟩ (.completed (.bool true)) true] ++ .quiesced :: []) := by
    decide +kernel
  obtain ⟨⟨outcome, w'⟩, hrun, hresult⟩ := Option.map_eq_some_iff.mp hfacts
  obtain ⟨hok, hdealings⟩ := Prod.mk.inj hresult
  cases outcome with
  | error cause => cases hok
  | ok _ =>
    obtain ⟨hjobs, hwork, -⟩ := hleaves hrun
    have hpumped : (perform idle 13 .pump).run.run parked = some (.ok .unit, w') := by
      unfold perform
      exact run_bind_eq_some_iff.mpr (.inr ⟨(), w', hrun, rfl⟩)
    have hcomes : w'.ComesUp idle {} := .operations
      ((runs_afterEffects (by simp [Effect.Makes]) _).tail ⟨13, .pump, _, trivial, hpumped⟩)
    obtain ⟨-, hsettled⟩ := hsettles hcomes _ _ hdealings (by simp)
    obtain ⟨pending, hmem, before, after, settlement, harrival, hpending, -, his⟩ :=
      hsettled ⟨14⟩ (.completed (.bool true)) (by simp)
    obtain rfl : pending = true := by simpa using hmem
    cases harrival.yields hpending with
    | completed value => exact ⟨w', hrun, hjobs, hwork, his⟩

end Machine
end Retention
