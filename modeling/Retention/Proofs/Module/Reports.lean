import Retention.Proofs.Guest.Arrivals
import Retention.Proofs.Module.Running

/-!
# Reports are delivered

What guest code reports waits in its realm until it is delivered, in order, as
long as guest code does not take it itself. A run delivers after each piece of
guest code that it performed, so that nothing waits between its steps.

* `World.Step.reports`: what a step has to do with reports.
* `Run.delivered_eq_reported`: all reports are delivered, in order.
-/

namespace Retention

/-- The texts of values that were reported. -/
def Event.reported? : Event → Option (List String)
  | .reported texts => some texts
  | .noted _ | .searchOptions _ | .jobStarted _ | .bodyStarted .. => none

namespace World

variable {e : Embedding} {w w' : World}

/-- What was reported so far, in the order of the calls. -/
def reported (w : World) : List (List String) := w.journal.toList.filterMap Event.reported?

/-- Guest code never took the reports that waited. -/
def Undrained (w : World) : Prop := ∀ reports, .drained reports ∉ w.dealings.toList

theorem reported?_of_isMinor {event : Event} (h : event.IsMinor) : event.reported? = none := by
  obtain hnote | ⟨number, rfl⟩ := h
  · cases event with
    | noted | searchOptions => rfl
    | _ => exact hnote.elim
  · rfl

/-- Dealings stay. -/
theorem Step.undrained (h : Step e w w') (hw' : w'.Undrained) : w.Undrained := by
  intro reports hmem
  refine hw' reports ?_
  cases h.deals with
  | none dealings owed => rwa [dealings]
  | one dealing dealings means =>
    rw [dealings]
    exact List.mem_append_left _ hmem

/-- What waits for delivery changes by a report, unless guest code takes it. -/
theorem Step.waiting (h : Step e w w') (hw' : w'.Undrained) :
    w'.realm.reports = w.realm.reports ∨ ∃ args, w' = w.reports args := by
  cases h with
  | works realm history journal dealings => exact .inl realm.reports
  | promises | starts | receives | quiesces => exact .inl rfl
  | drains =>
    refine absurd ?_ (hw' w.realm.reports.toList)
    rw [toList_push_deal]
    exact List.mem_append_right _ (List.mem_singleton_self _)
  | publishes finalizes =>
    obtain ⟨-, -, rfl⟩ := Realm.exec_finalizeSearches_eq_ok finalizes
    exact .inl rfl
  | searches call => cases Machine.searchReferences_cases call <;> exact .inl rfl
  | reports args => exact .inr ⟨args, rfl⟩
  | @settles job promise outcome realm next work settled =>
    have hspares := Realm.spares_settleFromHost promise outcome (w.starts job).realm
    rw [settled] at hspares
    exact .inl hspares.reports
  | fails loses cause => exact .inl loses.reports

/-- What was reported was delivered before, or waits. -/
def Delivers (delivered : List (List String)) (w : World) : Prop :=
  w.Undrained → w.reported = delivered ++ w.realm.reports.toList

theorem Delivers.step {delivered : List (List String)} (hw : w.Delivers delivered)
    (h : Step e w w') : w'.Delivers delivered := by
  intro hundrained
  have hbefore := hw (h.undrained hundrained)
  by_cases hreport : ∃ args, w' = w.reports args
  · obtain ⟨args, rfl⟩ := hreport
    have hreported : (w.reports args).reported = w.reported ++ [args.map w.realm.display] := by
      simp [reported, World.reports, Event.reported?]
    have hwaiting : (w.reports args).realm.reports.toList =
        w.realm.reports.toList ++ [args.map w.realm.display] := Sequence.toList_push _ _
    rw [hreported, hwaiting, hbefore, List.append_assoc]
  · have hreported : w'.reported = w.reported :=
      (h.journal.resolve_right hreport).filterMap fun _ => reported?_of_isMinor
    rw [hreported, (h.waiting hundrained).resolve_right hreport, hbefore]

theorem Delivers.steps {delivered : List (List String)} (hw : w.Delivers delivered)
    (h : Relation.ReflTransGen (Step e) w w') : w'.Delivers delivered :=
  keeps_of_steps (P := Delivers delivered) Delivers.step hw h

end World

namespace Run

variable {e : Embedding} {r r' : Run}

/-- No report waits, and what was reported was delivered, in order. -/
structure UpToDate (r : Run) : Prop where
  waiting : r.world.realm.reports.toList = []
  delivered : r.world.Undrained → r.world.reported = r.delivered.toList

theorem toList_foldl_push {α : Type} (items : List α) (s : Sequence α) :
    (items.foldl Sequence.push s).toList = s.toList ++ items := by
  induction items generalizing s with
  | nil => simp
  | cons item rest ih => simp [ih]

/-- To deliver what waits brings a run up to date. -/
theorem upToDate_delivers {w : World} (hw : w.Delivers r.delivered.toList) :
    (delivers { r with world := w }).UpToDate where
  waiting := rfl
  delivered hundrained := (hw hundrained).trans (toList_foldl_push _ _).symm

theorem UpToDate.delivers (hr : r.UpToDate) : r.world.Delivers r.delivered.toList := by
  intro hundrained
  rw [hr.waiting, List.append_nil]
  exact hr.delivered hundrained

/-- Every step leaves the run up to date. -/
theorem UpToDate.step (hr : r.UpToDate) (h : Step e r r') : r'.UpToDate := by
  cases h with
  | serves serves =>
    cases serves with
    | performs steps => exact upToDate_delivers (hr.delivers.steps steps)
    | works spares history => exact ⟨spares.reports ▸ hr.waiting, hr.delivered⟩
  | evaluates specifier imports steps =>
    have hnoted : (r.world.notes [.bodyStarted specifier imports]).Delivers
        r.delivered.toList := by
      intro hundrained
      refine Eq.trans ?_ (hr.delivers hundrained)
      refine World.Adds.filterMap (p := fun event => event.reported? = none) ?_ fun _ => id
      exact .one rfl Array.toList_append
    exact upToDate_delivers (hnoted.steps steps)
  | publishes finalizes =>
    obtain ⟨-, -, rfl⟩ := Realm.exec_finalizeSearches_eq_ok finalizes
    exact ⟨hr.waiting, hr.delivered⟩
  | keeps world delivered =>
    refine ⟨world ▸ hr.waiting, fun hundrained => ?_⟩
    rw [world, delivered]
    exact hr.delivered (world ▸ hundrained)

/-- Whatever the outcome of a run, the values that guest code reported are
delivered once, in the order of the calls, unless guest code itself took reports
that waited. No report is left waiting. -/
theorem delivered_eq_reported {steps : Nat} {inputs : Inputs} {options : Options}
    {outcome : Except RunFailure SearchResults}
    (hrun : run e steps inputs options = some (outcome, r)) :
    r.world.realm.reports.toList = [] ∧
    ((∀ reports, .drained reports ∉ r.world.dealings.toList) →
      r.delivered.toList = r.world.journal.toList.filterMap Event.reported?) := by
  have hfresh : UpToDate { world := { realm := { options } } } := ⟨rfl, fun _ => rfl⟩
  have hfinal : r.UpToDate :=
    keeps_of_steps (P := UpToDate) UpToDate.step hfresh ((walks_execute steps inputs).steps hrun)
  exact ⟨hfinal.waiting, fun hundrained => (hfinal.delivered hundrained).symm⟩

/-- A module that reports a value before it throws. -/
def reporter : Embedding where
  code _ _ := do
    let report ← Program.effect (.getGlobal "report")
    let _ ← Program.ask (.call report.toValue .undefined [.bool true])
    let _ ← Program.effect (.throwTypeError "stop")
    return .undefined
  host _ _ _ := pure .undefined
  analyzer _ _ _ _ := []

/-- An entry module that requests nothing. -/
def alone : Inputs where
  entry := "main"
  contents _ := .ok { requests := [], code := 0 }
  resolve target _ := .ok target

/-- The report is delivered although the run fails. -/
theorem delivered_eq_reported_reporter :
    ∃ outcome r, run reporter 12 alone {} = some (outcome, r) ∧ outcome.isOk = false ∧
      r.world.realm.reports.toList = [] ∧ r.delivered.toList = [["true"]] := by
  have hfacts : (run reporter 12 alone {}).map (fun result =>
      (result.1.isOk, result.2.world.dealings.toList,
        result.2.world.journal.toList.filterMap Event.reported?)) =
      some (false, [], [["true"]]) := by
    decide +kernel
  obtain ⟨⟨outcome, r⟩, hrun, hresult⟩ := Option.map_eq_some_iff.mp hfacts
  simp only [Prod.mk.injEq] at hresult
  obtain ⟨hfails, hdealings, hreported⟩ := hresult
  obtain ⟨hwaiting, hdelivered⟩ := delivered_eq_reported hrun
  refine ⟨outcome, r, hrun, hfails, hwaiting, (hdelivered fun reports => ?_).trans hreported⟩
  rw [hdealings]
  exact List.not_mem_nil

end Run
end Retention
