import Mathlib.Logic.Relation
import Retention.Guest.Machine
import Retention.Proofs.Guest.Worlds
import Retention.Proofs.Search.Failing

/-!
# Guest code keeps a world consistent

A piece of guest code is proper if it uses no value but those that it was given
or answered (`Program.Proper`). When all code of an embedding is proper, calls,
jobs and the operations of programs keep a world consistent (`Sound`), by
induction on the number of steps.

* `Sound.call`, `Sound.runJob`, `Sound.perform`: each of the operations that
  need each other, with one step more.
-/

namespace Retention

variable {ε : Type}

/-! ## Proper code -/

/-- An operation is given values that lead somewhere. -/
def Operation.IsValid (h : Heap) : Operation → Prop
  | .effect e => e.IsValid h
  | .call callee this args =>
    h.isValid callee = true ∧ h.isValid this = true ∧ ∀ v ∈ args, h.isValid v = true
  | .dispatch _ this args => h.isValid this = true ∧ ∀ v ∈ args, h.isValid v = true
  | .search _ target held _ => h.isValid target = true ∧ ∀ v ∈ held, h.isValid v = true
  | .note v => h.isValid v = true
  | .assign _ values => ∀ v ∈ values, h.isValid v = true
  | .checkpoint | .pump | .graph _ | .vars => True

/-- What an operation answers or throws leads somewhere. -/
def Operation.Returns (h : Heap) : Except Abrupt Answer → Prop
  | .ok a => a.IsValid h
  | .error cause => cause.IsValid h

/-- A program that uses no value but those that are there: its operations are
given values that lead somewhere, whatever the operations before them answered,
and so is what it ends with. -/
def Program.Proper (fails : Heap → ε → Prop) : Heap → Program ε Value → Prop
  | h, .done (.ok v) => h.isValid v = true
  | h, .done (.error e) => fails h e
  | h, .perform op next =>
    op.IsValid h ∧ ∀ h' outcome, h.Extends h' → Operation.Returns h' outcome →
      (next outcome).Proper fails h'

/-- A piece of guest code runs with values that lead somewhere. -/
structure Activation.IsValid (h : Heap) (a : Activation) : Prop where
  callee : h.isValid a.callee = true
  this : h.isValid a.this = true
  args : ∀ v ∈ a.args, h.isValid v = true
  captures : ∀ v ∈ a.captures, h.isValid v = true
  imports : ∀ entry ∈ a.imports, h.isValid entry.2 = true

/-- A piece of guest code that is given nothing. -/
theorem Activation.isValid_default (h : Heap) : ({} : Activation).IsValid h where
  callee := Heap.isValid_of_primitive rfl
  this := Heap.isValid_of_primitive rfl
  args _ hv := absurd hv List.not_mem_nil
  captures _ hv := absurd hv List.not_mem_nil
  imports _ hv := absurd hv List.not_mem_nil

/-- An embedding whose code uses no value but those that it is given. An
analyzer may throw what it reads. -/
structure Embedding.Proper (e : Embedding) : Prop where
  code : ∀ n {h : Heap} {a : Activation}, a.IsValid h → (e.code n a).Proper Abrupt.IsValid h
  host : ∀ n {h : Heap} {this : Value} {args : List Value}, h.isValid this = true →
    (∀ v ∈ args, h.isValid v = true) → (e.host n this args).Proper HostFailure.IsValid h
  analyzer : ∀ n {h : Heap} {vars : Variables}, h.Consistent →
    (∀ entry ∈ vars, h.isValid entry.2 = true) → ∀ ref cause,
    .fail cause ∈ e.analyzer n vars h ref → cause.IsValid h

namespace Machine

variable {e : Embedding} {steps : Nat} {w : World}

/-! ## Parts of operations -/

/-- A program keeps what its operations keep. -/
theorem leaves_run {fails : Heap → ε → Prop} {handle : Operation → Machine Answer}
    (hhandle : ∀ {w op}, w.Consistent → op.IsValid w.realm.heap →
      Keeps Abrupt.IsValid (handle op) w fun a w' => a.IsValid w'.realm.heap)
    {p : Program ε Value} (hw : w.Consistent) (hp : p.Proper fails w.realm.heap) :
    Leaves (p.run handle) w (Meets fails fun v w' => w'.realm.heap.isValid v = true) := by
  induction p generalizing w with
  | done outcome =>
    refine .pure hw ?_
    cases outcome <;> exact hp
  | perform op next ih =>
    refine Leaves.bind (hhandle hw hp.1) fun outcome w' hext hw' hout => ih outcome hw' ?_
    refine hp.2 _ _ hext ?_
    cases outcome <;> exact hout

/-- A search throws nothing that leads nowhere. -/
theorem isValid_of_search_eq_error (he : e.Proper) (hw : w.Consistent) {options : Search.Options}
    {target : Value} {held : List Value} {cause : Abrupt}
    (hrun : (Search.run w.realm.heap options (analyzerTable e w) target held).1 = .error cause) :
    cause.IsValid w.realm.heap := by
  cases Search.fault_of_run_eq_error hrun with
  | invalidHandle | broken => trivial
  | requested hreq =>
    obtain ⟨ref, o, ho, ⟨analyze, hanalyze, hmem⟩ | hmem⟩ := hreq.exists_mem
    · obtain ⟨chosen, -, rfl⟩ := Option.map_eq_some_iff.mp hanalyze
      cases chosen with
      | builtin =>
        obtain rfl | ⟨violation, rfl⟩ := Search.fault_of_mem_slotRequests hmem
        all_goals trivial
      | supplied code => exact he.analyzer code hw.realm.heap hw.vars ref cause hmem
    · exact nomatch isReference_of_mem_ownRequests hmem

theorem keeps_search (he : e.Proper) (hw : w.Consistent) (options : Search.Options)
    (target : Value) (held : List Value) :
    Keeps Abrupt.IsValid (search e options target held) w fun _ _ => True := by
  refine (Keeps.getThe hw).bind ?_
  rintro _ w - - ⟨rfl, rfl⟩
  refine (Keeps.record hw _).bind fun _ w' _ hw' hrealm => ?_
  split
  · exact .pure hw' trivial
  · rename_i cause hrun
    refine .throw hw' ?_
    rw [hrealm]
    exact isValid_of_search_eq_error he hw hrun

/-! ### Host functions -/

/-- Arguments are refused, if they are, without a value being thrown. -/
def ThrowsNothing {α : Type} (x : Except HostFailure α) : Prop :=
  ∀ failure h, x = .error failure → failure.IsValid h

namespace ThrowsNothing

variable {α β : Type}

theorem ok (a : α) : ThrowsNothing (.ok a) := nofun

theorem message (text : String) : ThrowsNothing (.error (.message text) : Except HostFailure α) :=
  fun _ _ he => by
    cases he
    trivial

theorem bind {x : Except HostFailure α} {f : α → Except HostFailure β} (hx : ThrowsNothing x)
    (hf : ∀ a, ThrowsNothing (f a)) : ThrowsNothing (x >>= f) := fun failure h he => by
  cases x with
  | ok a => exact hf a failure h he
  | error failure' =>
    cases he
    exact hx failure h rfl

theorem typed {expected name : String} {convert? : Value → Option α} {args : List Value} {i : Nat} :
    ThrowsNothing (Argument.typed expected convert? args i name) := fun failure h he => by
  unfold Argument.typed at he
  split at he <;> cases he
  trivial

end ThrowsNothing

theorem throwsNothing_readSearchCall (r : Realm) (args : List Value) :
    ThrowsNothing (readSearchCall r args) := by
  refine .bind .typed fun name => .bind .typed fun target => .bind .typed fun held =>
    .bind ?_ fun strongOnly => ?_
  · unfold Argument.optionalBool
    split
    · exact .ok _
    · exact .typed
  · split
    · exact .message _
    · exact .ok _

theorem leaves_searchReferences (he : e.Proper) (hw : w.Consistent) (args : List Value) :
    Leaves (searchReferences e args) w
      (Meets HostFailure.IsValid fun v w' => w'.realm.heap.isValid v = true) := by
  refine (Leaves.getThe hw).bind ?_
  rintro _ w - - ⟨rfl, rfl⟩
  split
  · rename_i failure hread
    exact .pure hw (throwsNothing_readSearchCall _ _ failure _ hread)
  · refine (Leaves.getThe hw).bind ?_
    rintro _ w - - ⟨rfl, rfl⟩
    refine Leaves.bind (keeps_search he hw _ _ _) fun outcome w' _ hw' hout => ?_
    cases outcome with
    | error cause => exact .pure hw' hout
    | ok graph =>
      have hr := hw'.realm
      refine (Leaves.modify (Q := fun _ _ => True) rfl
        ⟨⟨hr.heap, hr.jobs, hr.hostWork, hr.unhandled⟩, hw'.vars⟩ trivial).bind ?_
      exact fun _ _ _ hw'' _ => .pure hw'' (Heap.isValid_of_primitive rfl)

theorem leaves_report (hw : w.Consistent) (args : List Value) :
    Leaves (report args) w
      (Meets HostFailure.IsValid fun v w' => w'.realm.heap.isValid v = true) := by
  have hr := hw.realm
  exact .of_run rfl (.refl _)
    ⟨⟨hr.heap, hr.jobs, hr.hostWork, hr.unhandled⟩, hw.vars⟩ (Heap.isValid_of_primitive rfl)

theorem keeps_hostFailed {α : Type} {Q : α → World → Prop} (hw : w.Consistent) (name : String)
    {failure : HostFailure} (hf : failure.IsValid w.realm.heap) :
    Keeps Abrupt.IsValid (hostFailed name failure) w Q := by
  cases failure with
  | abrupt cause => exact .throw hw hf
  | argumentType | message =>
    exact (Keeps.lift hw (Realm.Keeps.throwTypeError (Q := fun _ _ => False) hw.realm _)).mono
      fun _ _ _ _ hfalse => hfalse.elim

/-- A call of a resolving function, which answers nothing. -/
theorem keeps_callResolving (hw : w.Consistent) {latch : Nat}
    {settle : ObjectRef → Value → RealmM Unit} {captured argument : Value}
    (hsettle : ∀ promise r, r.Consistent → r.heap.isValid argument = true →
      Realm.Keeps (settle promise argument) r fun _ _ => True)
    (hv : w.realm.heap.isValid argument = true) :
    Keeps Abrupt.IsValid
      (do
        lift (Realm.callResolving latch settle captured argument)
        return .undefined) w
      fun v w' => w'.realm.heap.isValid v = true :=
  (Keeps.lift hw (.callResolving hw.realm hsettle hv)).bind fun _ _ _ hw' _ =>
    .pure hw' (Heap.isValid_of_primitive rfl)

/-! ### Jobs -/

theorem keeps_arrive (hw : w.Consistent) (promise : ObjectRef) {outcome : HostOutcome}
    (ho : outcome.IsValid w.realm.heap) :
    Keeps Abrupt.IsValid (arrive promise outcome) w fun _ _ => True := by
  refine (Keeps.getThe hw).bind ?_
  rintro _ w - - ⟨rfl, rfl⟩
  exact (Keeps.lift hw (.settleFromHost hw.realm ho)).bind fun _ _ _ hw' _ =>
    (Keeps.deal hw' _).mono fun _ _ _ _ _ => trivial

/-- Jobs are run one after the other, each with what the jobs before it left. -/
theorem keeps_runJobs {run : Job → Machine Unit}
    (hrun : ∀ {w job}, w.Consistent → job.work.Consistent w.realm.heap →
      Keeps Abrupt.IsValid (run job) w fun _ _ => True) (hw : w.Consistent) :
    Keeps Abrupt.IsValid (runJobs run steps) w fun _ _ => True := by
  induction steps generalizing w with
  | zero => exact .exhausted
  | succ steps ih =>
    refine (Keeps.lift hw (.takeJob hw.realm)).bind fun job? w₁ _ hw₁ hjob => ?_
    cases job? with
    | none => exact .pure hw₁ trivial
    | some job =>
      refine (Keeps.lift hw₁ (.chargeJob hw₁.realm)).bind fun _ w₂ hext₂ hw₂ _ => ?_
      refine (Keeps.record hw₂ _).bind fun _ w₃ hext₃ hw₃ _ => ?_
      exact (hrun hw₃ ((hjob job rfl).mono (hext₂.trans hext₃))).bind fun _ w₄ _ hw₄ _ => ih hw₄

/-- Jobs are run, and host work becomes a job, one after the other. -/
theorem keeps_pumpWith {order : HostOrder} {checkpoint : Machine Unit}
    (hcheck : ∀ {w}, w.Consistent → Keeps Abrupt.IsValid checkpoint w fun _ _ => True)
    (hw : w.Consistent) :
    Keeps Abrupt.IsValid (pumpWith order checkpoint steps) w fun _ _ => True := by
  induction steps generalizing w with
  | zero => exact .exhausted
  | succ steps ih =>
    refine (hcheck hw).bind fun _ w₁ _ hw₁ _ => ?_
    refine (Keeps.lift hw₁ (.takeHostWork hw₁.realm order)).bind fun work? w₂ _ hw₂ hwork => ?_
    cases work? with
    | none => exact (Keeps.deal hw₂ _).mono fun _ _ _ _ _ => trivial
    | some work =>
      have hsettle : (Work.settle work.promise work.outcome).Consistent w₂.realm.heap :=
        ⟨(hwork work rfl).promise, (hwork work rfl).outcome⟩
      exact (Keeps.lift hw₂ (.enqueue hw₂.realm hsettle)).bind fun _ w₃ _ hw₃ _ => ih hw₃

/-- The value that a call came to, answered or thrown, leads somewhere. -/
def ComesTo (h : Heap) : Except Value Value → Prop
  | .ok v | .error v => h.isValid v = true

theorem keeps_settleDerived (hw : w.Consistent) {derived? : Option ObjectRef}
    {outcome : Except Value Value} (hv : ComesTo w.realm.heap outcome) :
    Keeps Abrupt.IsValid (settleDerived derived? outcome) w fun _ _ => True := by
  cases derived? with
  | none => exact .pure hw trivial
  | some derived =>
    cases outcome with
    | ok value => exact .lift hw (.resolvePromise hw.realm hv)
    | error reason => exact .lift hw (.rejectPromise hw.realm hv)

/-! ## Operations that need each other -/

/-- The operations that need each other keep a world consistent when they are
given values that lead somewhere. -/
structure Sound (e : Embedding) (steps : Nat) : Prop where
  call : ∀ {w : World} {callee this : Value} {args : List Value}, w.Consistent →
    w.realm.heap.isValid callee = true → w.realm.heap.isValid this = true →
    (∀ v ∈ args, w.realm.heap.isValid v = true) →
    Keeps Abrupt.IsValid (call e steps callee this args) w fun v w' =>
      w'.realm.heap.isValid v = true
  dispatch : ∀ {w : World} {id : Nat} {this : Value} {args : List Value}, w.Consistent →
    w.realm.heap.isValid this = true → (∀ v ∈ args, w.realm.heap.isValid v = true) →
    Keeps Abrupt.IsValid (dispatch e steps id this args) w fun v w' =>
      w'.realm.heap.isValid v = true
  runJob : ∀ {w : World} {job : Job}, w.Consistent → job.work.Consistent w.realm.heap →
    Keeps Abrupt.IsValid (runJob e steps job) w fun _ _ => True
  checkpoint : ∀ {w : World}, w.Consistent →
    Keeps Abrupt.IsValid (checkpoint e steps) w fun _ _ => True
  pump : ∀ {w : World}, w.Consistent → Keeps Abrupt.IsValid (pump e steps) w fun _ _ => True
  perform : ∀ {w : World} {op : Operation}, w.Consistent → op.IsValid w.realm.heap →
    Keeps Abrupt.IsValid (perform e steps op) w fun a w' => a.IsValid w'.realm.heap

namespace Sound

theorem zero (e : Embedding) : Sound e 0 where
  call _ _ _ _ := .exhausted
  dispatch _ _ _ := .exhausted
  runJob _ _ := .exhausted
  checkpoint _ := .exhausted
  pump _ := .exhausted
  perform _ _ := .exhausted

/-- Variables that are set one after the other. -/
theorem isValid_foldl_set {h : Heap} {sets : List (String × Value)} {vars : Variables}
    (hvars : ∀ entry ∈ vars, h.isValid entry.2 = true)
    (hsets : ∀ entry ∈ sets, h.isValid entry.2 = true) :
    ∀ entry ∈ sets.foldl (fun vars (x, v) => vars.set x v) vars, h.isValid entry.2 = true := by
  induction sets generalizing vars with
  | nil => exact hvars
  | cons set rest ih =>
    obtain ⟨hset, hrest⟩ := List.forall_mem_cons.mp hsets
    refine ih (List.forall_mem_cons.mpr ⟨hset, fun entry hentry => ?_⟩) hrest
    exact hvars entry (List.mem_of_mem_filter hentry)

theorem isValid_getD {h : Heap} {args : List Value} (hargs : ∀ v ∈ args, h.isValid v = true)
    (i : Nat) : h.isValid (args.getD i .undefined) = true := by
  rw [List.getD_eq_getElem?_getD]
  cases hi : args[i]? with
  | none => exact Heap.isValid_of_primitive rfl
  | some v => exact hargs v (List.mem_of_getElem? hi)

variable (hs : Sound e steps) (hw : w.Consistent)

include hs hw

/-- A call, with what the callee remembers from its definition. -/
theorem call_succ (he : e.Proper) {callee this : Value} {args : List Value}
    (hcallee : w.realm.heap.isValid callee = true) (hthis : w.realm.heap.isValid this = true)
    (hargs : ∀ v ∈ args, w.realm.heap.isValid v = true) :
    Keeps Abrupt.IsValid (Machine.call e (steps + 1) callee this args) w fun v w' =>
      w'.realm.heap.isValid v = true := by
  have hrefuse : ∀ {w : World} (message : String), w.Consistent →
      Keeps Abrupt.IsValid (lift (Realm.throwTypeError message)) w fun v w' =>
        w'.realm.heap.isValid v = true := fun message hw =>
    Keeps.lift hw (.throwTypeError (Q := fun v r => r.heap.isValid v = true) hw.realm message)
  unfold Machine.call
  cases callee with
  | object ref =>
    refine (Keeps.lift hw (.kind hw.realm ref)).bind ?_
    rintro k w - hw ⟨hrealm, o, ho, rfl⟩
    rw [← hrealm] at ho hcallee hthis hargs
    have hk := (hw.realm.heap.objects ho).kind
    split
    · rename_i behaviour bindings hkind
      have hcaptures : ∀ v ∈ bindings.map Binding.value, w.realm.heap.isValid v = true := by
        rw [hkind] at hk
        exact hk.valid
      split
      · exact hs.dispatch hw hthis hargs
      · exact leaves_run hs.perform hw
          (he.code _ ⟨hcallee, hthis, hargs, hcaptures, fun _ hi => absurd hi List.not_mem_nil⟩)
      · exact keeps_callResolving hw (fun _ _ hr hv => .resolvePromise hr hv) (isValid_getD hargs 0)
      · exact keeps_callResolving hw (fun _ _ hr hv => .rejectPromise hr hv) (isValid_getD hargs 0)
    · rename_i target boundThis boundArgs hkind
      rw [hkind] at hk
      obtain ⟨htarget, hbound⟩ := List.forall_mem_cons.mp hk.valid
      obtain ⟨hboundThis, hboundArgs⟩ := List.forall_mem_cons.mp hbound
      refine hs.call hw htarget hboundThis fun v hv => ?_
      exact (List.mem_append.mp hv).elim (hboundArgs v) (hargs v)
    · exact (Keeps.lift hw (.revoke hw.realm ref)).bind fun _ _ _ hw' _ =>
        .pure hw' (Heap.isValid_of_primitive rfl)
    · exact hrefuse _ hw
  | _ => exact hrefuse _ hw

theorem dispatch_succ (he : e.Proper) {id : Nat} {this : Value} {args : List Value}
    (hthis : w.realm.heap.isValid this = true) (hargs : ∀ v ∈ args, w.realm.heap.isValid v = true) :
    Keeps Abrupt.IsValid (Machine.dispatch e (steps + 1) id this args) w fun v w' =>
      w'.realm.heap.isValid v = true := by
  unfold Machine.dispatch
  refine (Keeps.getThe hw).bind ?_
  rintro _ w - - ⟨rfl, rfl⟩
  split
  · exact .throw hw trivial
  · rename_i f _
    refine Keeps.attempt ?_ fun failure w' hw' hf => keeps_hostFailed hw' f.name hf
    split
    · exact leaves_searchReferences he hw args
    · exact leaves_report hw args
    · exact leaves_run hs.perform hw (he.host _ hthis hargs)

/-- A call whose thrown value is caught. -/
theorem caught_call {callee this : Value} {args : List Value}
    (hcallee : w.realm.heap.isValid callee = true) (hthis : w.realm.heap.isValid this = true)
    (hargs : ∀ v ∈ args, w.realm.heap.isValid v = true) :
    Keeps Abrupt.IsValid (caught (Machine.call e steps callee this args)) w fun outcome w' =>
      ComesTo w'.realm.heap outcome :=
  (Keeps.caught (hs.call hw hcallee hthis hargs)).mono fun outcome _ _ _ hv => by
    cases outcome <;> exact hv

theorem runJob_succ (he : e.Proper) {job : Job} (hjob : job.work.Consistent w.realm.heap) :
    Keeps Abrupt.IsValid (Machine.runJob e (steps + 1) job) w fun _ _ => True := by
  unfold Machine.runJob
  split
  · rename_i handler? derived? settlement hwork
    rw [hwork] at hjob
    have hnone : w.realm.heap.isValid .undefined = true := Heap.isValid_of_primitive rfl
    have hhandler : ∀ f ∈ handler?, w.realm.heap.isValid (.object f) = true := fun f hf =>
      Heap.isValid_of_isCallable (hjob.1.handler f hf)
    have hsettle : ∀ {m : Machine (Except Value Value)},
        (Keeps Abrupt.IsValid m w fun outcome w' => ComesTo w'.realm.heap outcome) →
        Keeps Abrupt.IsValid (m >>= settleDerived derived?) w fun _ _ => True := fun hm =>
      hm.bind fun outcome w' _ hw' hv => keeps_settleDerived hw' hv
    split
    · exact hsettle (hs.caught_call hw (hhandler _ rfl) hnone
        (List.forall_mem_singleton.mpr hjob.2))
    · exact hsettle (.pure hw hjob.2)
    · exact hsettle (.pure hw hjob.2)
  · rename_i promise thenable method hwork
    rw [hwork] at hjob
    obtain ⟨hpromise, hthenable, hmethod⟩ := hjob
    refine (Keeps.lift hw (.createResolvingFunctions hw.realm
      (Heap.isValid_of_builtin? hpromise))).bind fun pair w₁ hext₁ hw₁ hpair => ?_
    have hpair' : ∀ v ∈ [Value.object pair.1, .object pair.2], w₁.realm.heap.isValid v = true :=
      List.forall_mem_cons.mpr ⟨hpair.1, List.forall_mem_singleton.mpr hpair.2⟩
    refine (hs.caught_call hw₁ (hext₁.isValid (Heap.isValid_of_isCallable hmethod))
      (hext₁.isValid hthenable) hpair').bind fun outcome w₂ hext₂ hw₂ hv => ?_
    cases outcome with
    | ok value => exact .pure hw₂ trivial
    | error reason =>
      exact (hs.call hw₂ (hext₂.isValid hpair.2) (Heap.isValid_of_primitive rfl)
        (List.forall_mem_singleton.mpr hv)).map fun _ _ _ _ _ => trivial
  · rename_i promise outcome hwork
    rw [hwork] at hjob
    exact keeps_arrive hw promise hjob.2
  · rename_i code hwork
    have hrun := leaves_run hs.perform hw (he.code code (Activation.isValid_default _))
    exact Keeps.map hrun fun _ _ _ _ _ => trivial

theorem perform_succ (he : e.Proper) {op : Operation} (hop : op.IsValid w.realm.heap) :
    Keeps Abrupt.IsValid (Machine.perform e (steps + 1) op) w fun a w' =>
      a.IsValid w'.realm.heap := by
  unfold Machine.perform
  cases op with
  | effect effect =>
    refine (Keeps.lift hw (.effect hw.realm hop)).bind fun answer w' _ hw' hanswer => ?_
    refine (Keeps.deal hw' _).bind fun _ w'' hext hw'' _ => .pure hw'' ?_
    exact fun v hv => hext.isValid (hanswer v hv)
  | call callee this args =>
    exact (hs.call hw hop.1 hop.2.1 hop.2.2).map fun v w' _ _ hv => Answer.isValid_value hv
  | dispatch id this args =>
    exact (hs.dispatch hw hop.1 hop.2).map fun v w' _ _ hv => Answer.isValid_value hv
  | checkpoint =>
    exact (hs.checkpoint hw).bind fun _ _ _ hw' _ =>
      .pure hw' (Answer.isValid_of_values_eq_nil rfl)
  | pump =>
    exact (hs.pump hw).bind fun _ _ _ hw' _ => .pure hw' (Answer.isValid_of_values_eq_nil rfl)
  | search options target held name? =>
    refine (keeps_search he hw options target held).bind fun graph w' _ hw' _ => ?_
    split
    · refine (Keeps.modify (Q := fun _ _ => True) rfl ⟨hw'.realm, hw'.vars⟩ trivial).bind ?_
      exact fun _ _ _ hw'' _ => .pure hw'' (Answer.isValid_of_values_eq_nil rfl)
    · exact .pure hw' (Answer.isValid_of_values_eq_nil rfl)
  | graph name =>
    refine (Keeps.getThe hw).bind ?_
    rintro _ w - - ⟨rfl, rfl⟩
    exact .pure hw (Answer.isValid_of_values_eq_nil rfl)
  | note v =>
    refine (Keeps.record hw _).bind fun _ w' _ hw' hrealm => .pure hw' (Answer.isValid_value ?_)
    rw [hrealm]
    exact hop
  | vars =>
    refine (Keeps.getThe hw).bind ?_
    rintro _ w - - ⟨rfl, rfl⟩
    refine .pure hw fun v hv => ?_
    obtain ⟨entry, hentry, rfl⟩ := List.mem_map.mp hv
    exact hw.vars entry hentry
  | assign names values =>
    refine (Keeps.modify (Q := fun _ _ => True) rfl ⟨hw.realm, ?_⟩ trivial).bind
      fun _ _ _ hw' _ => .pure hw' (Answer.isValid_of_values_eq_nil rfl)
    exact isValid_foldl_set hw.vars fun entry hentry =>
      hop entry.2 (List.of_mem_zip hentry).2

end Sound

/-- The operations keep a world consistent, with any number of steps. -/
theorem sound (he : e.Proper) (steps : Nat) : Sound e steps := by
  induction steps with
  | zero => exact .zero e
  | succ steps ih =>
    exact
      { call := fun hw => ih.call_succ hw he
        dispatch := fun hw => ih.dispatch_succ hw he
        runJob := fun hw => ih.runJob_succ hw he
        checkpoint := fun hw => .interruptible (keeps_runJobs ih.runJob hw)
        pump := fun hw => keeps_pumpWith ih.checkpoint hw
        perform := fun hw => ih.perform_succ hw he }

end Machine
end Retention
