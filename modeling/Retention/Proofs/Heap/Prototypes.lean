import Mathlib.Logic.Relation
import Retention.Proofs.Heap.Extension

/-!
# Chains of prototypes

The prototype of an object, the prototype of that one, and so on, are its chain
(`Heap.Chain`). A heap is grounded if the chain of every object comes to an end;
then no object is on its own chain. Heaps that come to be by allocations and by
changes of prototypes are grounded.

* `Heap.acceptsPrototype_of_chain`: which prototypes an object can have.
* `Heap.Grounded.setPrototype`: a change of prototype leaves a heap grounded.
* `Heap.setPrototype_of_built`: what a change of prototype does and answers.
-/

namespace Retention.Heap

open Relation

variable {h h' : Heap} {ref p : ObjectRef} {o : Object} {start? prototype? : Option ObjectRef}
  {chain : List ObjectRef}

/-- An object has another one as its prototype. -/
def Inherits (h : Heap) (ref p : ObjectRef) : Prop := h.prototype? ref = .ok (some p)

/-- No object inherits from itself, directly or through others. -/
def Acyclic (h : Heap) : Prop := ∀ ref, ¬ TransGen h.Inherits ref ref

/-- The objects from a prototype upward, as far as there are any. -/
inductive Chain (h : Heap) : Option ObjectRef → List ObjectRef → Prop where
  | nil : h.Chain none []
  | cons {p : ObjectRef} {next? : Option ObjectRef} {rest : List ObjectRef}
    (there : h.prototype? p = .ok next?) (up : h.Chain next? rest) : h.Chain (some p) (p :: rest)

theorem prototype?_of_object (ho : h.object ref = .ok o) : h.prototype? ref = .ok o.prototype? := by
  rw [Heap.prototype?, ho]
  rfl

theorem prototype?_eq_ok_iff :
    h.prototype? ref = .ok prototype? ↔ ∃ o, h.object ref = .ok o ∧ o.prototype? = prototype? := by
  constructor
  · intro hp
    cases ho : h.object ref with
    | error cause =>
      rw [Heap.prototype?, ho] at hp
      cases hp
    | ok o =>
      rw [prototype?_of_object ho] at hp
      exact ⟨o, rfl, Except.ok.inj hp⟩
  · rintro ⟨o, ho, rfl⟩
    exact prototype?_of_object ho

/-! ## Chains -/

namespace Chain

/-- There is one chain from a prototype upward. -/
theorem unique {chain' : List ObjectRef} (hchain : h.Chain start? chain)
    (hchain' : h.Chain start? chain') : chain = chain' := by
  induction hchain generalizing chain' with
  | nil =>
    cases hchain'
    rfl
  | cons there _ ih =>
    cases hchain' with
    | cons there' up' =>
      obtain rfl := Except.ok.inj (there.symm.trans there')
      rw [ih up']

/-- A chain stays as it is where its objects keep their prototypes. -/
theorem congr (hchain : h.Chain start? chain)
    (hsame : ∀ p ∈ chain, h'.prototype? p = h.prototype? p) : h'.Chain start? chain := by
  induction hchain with
  | nil => exact .nil
  | @cons p next? rest there _ ih =>
    exact .cons ((hsame p List.mem_cons_self).trans there)
      (ih fun q hq => hsame q (List.mem_cons_of_mem p hq))

/-- A chain stays as it is when an object is allocated. -/
theorem alloc (hchain : h.Chain start? chain) (prototype? : Option ObjectRef) (kind : ObjectKind) :
    (h.alloc prototype? kind).2.Chain start? chain := by
  induction hchain with
  | nil => exact .nil
  | cons there _ ih =>
    obtain ⟨o, ho, rfl⟩ := prototype?_eq_ok_iff.mp there
    exact .cons (prototype?_of_object (object_alloc_of_object ho prototype? kind)) ih

/-- The chain of an object that another one inherits from is a proper part of the
chain of that one. -/
theorem exists_of_transGen (hinherits : TransGen h.Inherits ref p)
    (hchain : h.Chain (some ref) chain) :
    ∃ upper, h.Chain (some p) upper ∧ upper.length < chain.length := by
  induction hinherits with
  | single hp =>
    cases hchain with
    | cons there up =>
      obtain rfl := Except.ok.inj (there.symm.trans hp)
      exact ⟨_, up, Nat.lt_succ_self _⟩
  | tail _ hp ih =>
    obtain ⟨upper, hupper, hlt⟩ := ih
    cases hupper with
    | cons there up =>
      obtain rfl := Except.ok.inj (there.symm.trans hp)
      exact ⟨_, up, Nat.lt_of_succ_lt hlt⟩

/-- Chains that an object is on go on with its new chain when its prototype changes. -/
theorem exists_rerouted {upper : List ObjectRef} (hchain : h.Chain start? chain)
    (hself : h'.prototype? ref = .ok prototype?) (hupper : h'.Chain prototype? upper)
    (hothers : ∀ q, q ≠ ref → h'.prototype? q = h.prototype? q) :
    ∃ chain', h'.Chain start? chain' := by
  induction hchain with
  | nil => exact ⟨[], .nil⟩
  | @cons q next? rest there _ ih =>
    by_cases hq : q = ref
    · subst hq
      exact ⟨q :: upper, .cons hself hupper⟩
    · obtain ⟨rest', hrest⟩ := ih
      exact ⟨q :: rest', .cons ((hothers q hq).trans there) hrest⟩

end Chain

/-! ## Grounded heaps -/

/-- Every object has a chain that comes to an end. -/
structure Grounded (h : Heap) : Prop where
  ends : ∀ {ref prototype?}, h.prototype? ref = .ok prototype? → ∃ chain, h.Chain prototype? chain

namespace Grounded

/-- In a grounded heap, no object inherits from itself. -/
theorem acyclic (hgrounded : h.Grounded) : h.Acyclic := by
  intro ref hcycle
  have hthere : ∃ p, h.Inherits ref p :=
    (TransGen.head'_iff.mp hcycle).imp fun _ hp => hp.1
  obtain ⟨p, hp⟩ := hthere
  obtain ⟨chain, hchain⟩ := hgrounded.ends hp
  have hself : h.Chain (some ref) (ref :: chain) := .cons hp hchain
  obtain ⟨upper, hupper, hlt⟩ := hself.exists_of_transGen hcycle
  -- The chain of an object on a cycle would be a proper part of itself.
  rw [hself.unique hupper] at hlt
  exact Nat.lt_irrefl _ hlt

/-- There is a chain from every prototype that an object can be given. -/
theorem exists_chain (hgrounded : h.Grounded)
    (hthere : ∀ p, prototype? = some p → h.isObject p = true) :
    ∃ chain, h.Chain prototype? chain := by
  cases prototype? with
  | none => exact ⟨[], .nil⟩
  | some p =>
    obtain ⟨o, ho⟩ := isValid_object_iff.mp (hthere p rfl)
    have hp := prototype?_of_object ho
    obtain ⟨chain, hchain⟩ := hgrounded.ends hp
    exact ⟨p :: chain, .cons hp hchain⟩

/-- What leaves the prototypes as they are leaves a heap grounded. -/
theorem congr (hgrounded : h.Grounded) (hsame : ∀ ref, h'.prototype? ref = h.prototype? ref) :
    h'.Grounded := by
  refine ⟨fun {ref prototype?} hp => ?_⟩
  obtain ⟨chain, hchain⟩ := hgrounded.ends ((hsame ref).symm.trans hp)
  exact ⟨chain, hchain.congr fun q _ => hsame q⟩

theorem empty : Grounded {} := by
  refine ⟨fun {ref prototype?} hp => ?_⟩
  obtain ⟨o, ho, -⟩ := prototype?_eq_ok_iff.mp hp
  have hslot := object_eq_ok_iff.mp ho
  simp at hslot

/-- A new object is on no chain but its own. -/
theorem alloc (hgrounded : h.Grounded) (kind : ObjectKind)
    (hthere : ∀ p, prototype? = some p → h.isObject p = true) :
    (h.alloc prototype? kind).2.Grounded := by
  refine ⟨fun {ref found?} hp => ?_⟩
  obtain ⟨o, ho, rfl⟩ := prototype?_eq_ok_iff.mp hp
  rw [object_eq_ok_iff, Heap.alloc, Array.getElem?_push] at ho
  split at ho
  · obtain rfl := Slot.object.inj (Option.some.inj ho)
    obtain ⟨chain, hchain⟩ := hgrounded.exists_chain hthere
    exact ⟨chain, hchain.alloc prototype? kind⟩
  · obtain ⟨chain, hchain⟩ := hgrounded.ends (prototype?_of_object (object_eq_ok_iff.mpr ho))
    exact ⟨chain, hchain.alloc prototype? kind⟩

end Grounded

/-! ## Changes of prototypes -/

/-- The heap in which an object has another prototype. -/
def reparented (h : Heap) (ref : ObjectRef) (prototype? : Option ObjectRef) : Heap :=
  (h.update ref fun o => ((), { o with prototype? })).2

/-- An object can have the prototypes that it is not above of, and whose chain is not
too long. -/
theorem acceptsPrototype_of_chain (hchain : h.Chain prototype? chain) (steps : Nat) :
    h.acceptsPrototype ref steps prototype? =
      .ok (decide (ref ∉ chain ∧ chain.length ≤ steps)) := by
  induction hchain generalizing steps with
  | nil => cases steps <;> simp [acceptsPrototype]
  | @cons p next? rest there _ ih =>
    cases steps with
    | zero => simp [acceptsPrototype]
    | succ steps =>
      unfold acceptsPrototype
      by_cases hp : p = ref
      · simp [hp]
      · rw [if_neg hp, there]
        show h.acceptsPrototype ref steps next? = _
        rw [ih]
        simp [Ne.symm hp]

/-- A prototype that is accepted has a chain. -/
theorem exists_chain_of_acceptsPrototype {steps : Nat}
    (haccepts : h.acceptsPrototype ref steps prototype? = .ok true) :
    ∃ chain, h.Chain prototype? chain ∧ ref ∉ chain ∧ chain.length ≤ steps := by
  induction steps generalizing prototype? with
  | zero =>
    cases prototype? with
    | none => exact ⟨[], .nil, List.not_mem_nil, Nat.le_refl 0⟩
    | some p => cases haccepts
  | succ steps ih =>
    cases prototype? with
    | none => exact ⟨[], .nil, List.not_mem_nil, Nat.zero_le _⟩
    | some p =>
      unfold acceptsPrototype at haccepts
      by_cases hp : p = ref
      · rw [if_pos hp] at haccepts
        cases haccepts
      · rw [if_neg hp] at haccepts
        cases hnext : h.prototype? p with
        | error cause =>
          rw [hnext] at haccepts
          cases haccepts
        | ok next? =>
          rw [hnext] at haccepts
          obtain ⟨rest, hrest, hnotin, hle⟩ := ih haccepts
          refine ⟨p :: rest, .cons hnext hrest, ?_, Nat.succ_le_succ hle⟩
          exact List.not_mem_cons_of_ne_of_not_mem (Ne.symm hp) hnotin

theorem prototype?_reparented_self (ho : h.object ref = .ok o) :
    (h.reparented ref prototype?).prototype? ref = .ok prototype? :=
  prototype?_of_object (object_update_of_object ho _)

theorem prototype?_reparented_of_ne {q : ObjectRef} (hne : q ≠ ref) :
    (h.reparented ref prototype?).prototype? q = h.prototype? q := by
  rw [Heap.prototype?, reparented, object_update_of_ne h _ hne]
  rfl

/-- A change of prototype either happens or changes nothing. -/
theorem setPrototype_of_chain (ho : h.object ref = .ok o) (hchain : h.Chain prototype? chain) :
    h.setPrototype ref prototype? =
      if ref ∉ chain ∧ chain.length ≤ prototypeChainLimit then
        (.ok true, h.reparented ref prototype?)
      else (.ok false, h) := by
  unfold setPrototype
  rw [acceptsPrototype_of_chain hchain]
  by_cases hcan : ref ∉ chain ∧ chain.length ≤ prototypeChainLimit
  · rw [if_pos hcan, decide_eq_true hcan]
    simp only [reparented, update, ho]
  · rw [if_neg hcan, decide_eq_false hcan]

/-- What is accepted makes no chain endless: the new chain of the object does not come
back to it. -/
theorem Grounded.setPrototype (hgrounded : h.Grounded) (ho : h.object ref = .ok o)
    (hthere : ∀ p, prototype? = some p → h.isObject p = true) :
    (h.setPrototype ref prototype?).2.Grounded := by
  obtain ⟨upper, hupper⟩ := hgrounded.exists_chain hthere
  rw [setPrototype_of_chain ho hupper]
  split
  · rename_i hcan
    have hself : (h.reparented ref prototype?).prototype? ref = .ok prototype? :=
      prototype?_reparented_self ho
    -- `ref` is not on the chain of its new prototype, so that chain is as before.
    have hnew : (h.reparented ref prototype?).Chain prototype? upper :=
      hupper.congr fun q hq => prototype?_reparented_of_ne fun heq => hcan.1 (heq ▸ hq)
    refine ⟨fun {q found?} hq => ?_⟩
    by_cases hne : q = ref
    · subst hne
      obtain rfl := Except.ok.inj (hself.symm.trans hq)
      exact ⟨upper, hnew⟩
    · obtain ⟨chain, hchain⟩ := hgrounded.ends ((prototype?_reparented_of_ne hne).symm.trans hq)
      exact hchain.exists_rerouted hself hnew fun _ => prototype?_reparented_of_ne
  · exact hgrounded

/-- Heaps that come to be from an empty one: objects are allocated with prototypes that
are there, prototypes of objects are changed to objects that are there, and other
changes leave the prototypes as they are. -/
inductive Built : Heap → Prop where
  | empty : Built {}
  | alloc {h : Heap} {prototype? : Option ObjectRef} (built : Built h)
    (there : ∀ p, prototype? = some p → h.isObject p = true) (kind : ObjectKind) :
    Built (h.alloc prototype? kind).2
  | setPrototype {h : Heap} {ref : ObjectRef} {prototype? : Option ObjectRef} (built : Built h)
    (object : h.isObject ref = true) (there : ∀ p, prototype? = some p → h.isObject p = true) :
    Built (h.setPrototype ref prototype?).2
  | other {h h' : Heap} (built : Built h) (same : ∀ ref, h'.prototype? ref = h.prototype? ref) :
    Built h'

theorem Built.grounded (hbuilt : Built h) : h.Grounded := by
  induction hbuilt with
  | empty => exact .empty
  | alloc _ there kind ih => exact ih.alloc kind there
  | setPrototype _ object there ih =>
    obtain ⟨o, ho⟩ := isValid_object_iff.mp object
    exact ih.setPrototype ho there
  | other _ same ih => exact ih.congr same

/-- No object inherits from itself, whatever prototypes were set before. A prototype can
be set if the object is not on its chain, and the chain has no more than
`prototypeChainLimit` objects: then the object has the new prototype, and nothing else
changes. Otherwise it is refused, and nothing changes. -/
theorem setPrototype_of_built (hbuilt : Built h) :
    h.Acyclic ∧ ∀ {ref : ObjectRef} {prototype? : Option ObjectRef}, h.isObject ref = true →
      (∀ p, prototype? = some p → h.isObject p = true) →
      ∃ chain o, h.Chain prototype? chain ∧ h.object ref = .ok o ∧
        ((h.setPrototype ref prototype?).1 = .ok true ↔
          ref ∉ chain ∧ chain.length ≤ prototypeChainLimit) ∧
        ((h.setPrototype ref prototype?).1 = .ok true →
          (h.setPrototype ref prototype?).2 =
            { h with slots := h.slots.setIfInBounds ref.slot (.object { o with prototype? }) }) ∧
        ((h.setPrototype ref prototype?).1 ≠ .ok true →
          h.setPrototype ref prototype? = (.ok false, h)) := by
  refine ⟨hbuilt.grounded.acyclic, fun {ref prototype?} hobject hthere => ?_⟩
  obtain ⟨chain, hchain⟩ := hbuilt.grounded.exists_chain hthere
  obtain ⟨o, ho⟩ := isValid_object_iff.mp hobject
  have hset := setPrototype_of_chain ho hchain
  refine ⟨chain, o, hchain, ho, ?_⟩
  by_cases hcan : ref ∉ chain ∧ chain.length ≤ prototypeChainLimit
  · rw [if_pos hcan] at hset
    rw [hset]
    refine ⟨iff_of_true rfl hcan, fun _ => ?_, fun hne => absurd rfl hne⟩
    simp only [reparented, update, ho]
  · rw [if_neg hcan] at hset
    rw [hset]
    have hrefused : (Except.ok false : Except Abrupt Bool) ≠ .ok true := by simp
    exact ⟨iff_of_false hrefused hcan, fun heq => absurd heq hrefused, fun _ => rfl⟩

/-- Two objects, the first of which is the prototype of the second. -/
def twoLinked : Heap := ((({} : Heap).alloc none .ordinary).2.alloc (some ⟨0⟩) .ordinary).2

theorem built_twoLinked : Built twoLinked := by
  have hfirst : Built (({} : Heap).alloc none .ordinary).2 :=
    .alloc .empty (fun _ hp => by cases hp) .ordinary
  exact .alloc hfirst (fun _ hp => Option.some.inj hp ▸ rfl) .ordinary

/-- The first object cannot have the second one as its prototype. -/
theorem setPrototype_of_built_twoLinked :
    twoLinked.Acyclic ∧ twoLinked.setPrototype ⟨0⟩ (some ⟨1⟩) = (.ok false, twoLinked) := by
  obtain ⟨hacyclic, hset⟩ := setPrototype_of_built built_twoLinked
  have hsecond : ∀ p, some (⟨1⟩ : ObjectRef) = some p → twoLinked.isObject p = true :=
    fun p hp => Option.some.inj hp ▸ rfl
  have hfirst : twoLinked.isObject ⟨0⟩ = true := rfl
  obtain ⟨chain, -, hchain, -, hiff, -, hrefused⟩ := hset hfirst hsecond
  have habove : twoLinked.Chain (some ⟨1⟩) [⟨1⟩, ⟨0⟩] := .cons rfl (.cons rfl .nil)
  obtain rfl := hchain.unique habove
  exact ⟨hacyclic, hrefused fun haccepted => (hiff.mp haccepted).1 (by decide)⟩

end Retention.Heap
