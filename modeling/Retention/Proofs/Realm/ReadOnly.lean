import Retention.Proofs.Realm.Rewriting

/-!
# Lengths that are read-only

An array's length that cannot be written or deleted stays as it is when `length` is
assigned to or deleted. An element that is written beyond it makes it grow all the same,
so the length is final as long as there is no such element.

* `Object.Fixed`: an array whose length cannot be written or deleted.
* `Object.Fixed.set`, `delete`, `setLength`: what becomes of its length.
* `Realm.arrayLength_after_iff`: the effects that leave its length as it was.
-/

namespace Retention

/-! ## Lengths that are integers -/

/-- The length that an array shows whose `length` holds an integer. -/
def shownLength (n : Int) : Nat := if 0 ≤ n ∧ n ≤ arrayIndexLimit then n.toNat else 0

theorem arrayLength?_of_integer {number : Number} {n : Int} (hint : number.toInt? = some n) :
    (arrayLength? (.number number)).getD 0 = shownLength n := by
  unfold arrayLength? shownLength
  simp only [Option.bind_some, hint]
  cases n with
  | ofNat n =>
    simp only [Int.ofNat_eq_natCast, Int.natCast_nonneg, true_and, Int.ofNat_le, Int.toNat_natCast]
    split <;> rfl
  | negSucc n => exact rfl

/-- The length after a write to an element: one more than its index, unless it was that
long already. -/
def grownLength (n : Int) (i? : Option Nat) : Int := i?.elim n fun i => max n (i + 1)

theorem le_grownLength (n : Int) (i? : Option Nat) : n ≤ grownLength n i? := by
  cases i? with
  | none => exact Int.le_refl n
  | some i => exact Int.le_max_left ..

theorem grownLength_eq_iff {n : Int} {i? : Option Nat} :
    grownLength n i? = n ↔ ∀ i, i? = some i → (i : Int) < n := by
  cases i? with
  | none => simp [grownLength]
  | some i =>
    simp only [grownLength, Option.elim_some, Option.some.injEq, forall_eq']
    omega

theorem grownLength_cases (n : Int) (i? : Option Nat) :
    grownLength n i? = n ∨ ∃ i : Nat, i? = some i ∧ grownLength n i? = i + 1 := by
  cases i? with
  | none => exact .inl rfl
  | some i =>
    rcases Int.le_total (i + 1) n with hle | hle
    · exact .inl (Int.max_eq_left hle)
    · exact .inr ⟨i, rfl, Int.max_eq_right hle⟩

/-- A property that holds an integer, and cannot be written or deleted. -/
structure Property.Fixed (p : Property) (n : Int) : Prop where
  integer : ∃ number, p.value = .number number ∧ number.toInt? = some n
  writable : p.writable = false
  configurable : p.configurable = false

namespace Properties

variable {t : Properties} {p : Property} {n bound : Int} {i : Nat}

/-- A length grows for an element, even if it cannot be written. -/
theorem Bounded.growLength_fixed (h : Bounded t p bound) (hp : p.Fixed n)
    (hi : i < arrayIndexLimit) :
    ∃ q, Bounded (Properties.growLength (i + 1) t) q bound ∧ q.Fixed (grownLength n (some i)) := by
  obtain ⟨⟨number, hvalue, hint⟩, hwritable, hconfigurable⟩ := hp
  have hgrows : number.saturatingNat < i + 1 ↔ n < i + 1 := by
    have hlimit : i + 1 < Nat.pow 2 64 - 1 := by
      unfold arrayIndexLimit at hi
      show i + 1 < 18446744073709551615
      omega
    rw [Number.saturatingNat_of_toInt? hint]
    omega
  have hgrown := h.growLength hvalue (i + 1)
  simp only [hgrows] at hgrown
  refine ⟨_, hgrown, ?_⟩
  split
  · rename_i hlt
    rw [grownLength, Option.elim_some, Int.max_eq_right (Int.le_of_lt hlt)]
    exact ⟨⟨_, rfl, Number.toInt?_ofNat (lt_two_pow_of_le hi)⟩, hwritable, hconfigurable⟩
  · rename_i hnot
    rw [grownLength, Option.elim_some, Int.max_eq_left (Int.not_lt.mp hnot)]
    exact ⟨⟨number, hvalue, hint⟩, hwritable, hconfigurable⟩

end Properties

namespace Object

variable {o : Object} {p : Property} {n : Int} {ref : ObjectRef}

/-- An array whose length, an integer above every index, cannot be written or deleted. -/
structure Fixed (o : Object) (n : Int) : Prop where
  kind : o.kind = .array
  length : ∃ p, Properties.Bounded o.properties p n ∧ p.Fixed n

namespace Fixed

variable (h : o.Fixed n)

include h

theorem isArray : o.isArray = true := by
  rw [Object.isArray, h.kind]
  rfl

theorem define (hp : p.key ≠ .length) : (o.define p).Fixed (grownLength n p.key.arrayIndex?) := by
  obtain ⟨q, hbounded, hq⟩ := h.length
  refine ⟨(kind_define o p).trans h.kind, ?_⟩
  unfold Object.define
  simp only [h.isArray, if_true, if_neg hp]
  have hput := (hbounded.mono (le_grownLength n p.key.arrayIndex?)).put hp fun i hi => by
    rw [hi]
    exact Int.lt_of_lt_of_le (Int.lt_succ _) (Int.le_max_right ..)
  cases hi : p.key.arrayIndex? with
  | none =>
    rw [hi] at hput
    exact ⟨q, hput, hq⟩
  | some i =>
    rw [hi] at hput
    exact hput.growLength_fixed hq (PropertyKey.arrayIndex?_lt hi)

/-- The length cannot be set. -/
theorem setLength (length : Nat) : o.setLength length = (false, o) := by
  obtain ⟨q, hbounded, hq⟩ := h.length
  simp [Object.setLength, own?, hbounded.lookup, hq.writable]

theorem set (key : PropertyKey) (value : Value) :
    (o.set key value).2.Fixed (grownLength n key.arrayIndex?) := by
  unfold Object.set
  split
  · rename_i hlength
    rw [Bool.and_eq_true, beq_iff_eq] at hlength
    rw [hlength.2, PropertyKey.arrayIndex?_length]
    split
    · rw [h.setLength]
      exact h
    · exact h
  · rename_i hnot
    have hkey : key ≠ .length := fun heq => hnot (by rw [h.isArray, heq]; rfl)
    split
    · -- an element that is there lies below the length already
      rename_i p hp
      have hsame : grownLength n key.arrayIndex? = n := grownLength_eq_iff.mpr fun i hi => by
        obtain ⟨q, hbounded, -⟩ := h.length
        obtain ⟨hmem, hpkey⟩ := Properties.mem_of_lookup hp
        exact hbounded.lt p hmem i (hpkey ▸ hi)
      rw [hsame]
      split
      · obtain ⟨q, hbounded, hq⟩ := h.length
        exact ⟨h.kind, q, hbounded.write hkey value, hq⟩
      · exact h
    · exact h.define hkey

theorem delete (key : PropertyKey) : (o.delete key).2.Fixed n := by
  obtain ⟨q, hbounded, hq⟩ := h.length
  unfold Object.delete
  split
  · exact h
  · rename_i hnot
    have hkey : key ≠ .length := by
      rintro rfl
      exact hnot (by simp [own?, hbounded.lookup, hq.configurable])
    exact ⟨h.kind, q, hbounded.erase hkey, hq⟩

theorem arrayLength {heap : Heap} (ho : heap.object ref = .ok o) :
    heap.arrayLength ref = .ok (shownLength n) := by
  obtain ⟨q, hbounded, ⟨number, hvalue, hint⟩, -, -⟩ := h.length
  rw [Heap.arrayLength_of_own ho hbounded.lookup, hvalue, arrayLength?_of_integer hint]

end Fixed
end Object

/-! ## Effects -/

namespace Effect

/-- Effects that set lengths, and write and delete properties. -/
def Assigns : Effect → Prop
  | heapSet .. | set .. | setArrayLength .. | heapDelete .. | delete .. => True
  | _ => False

/-- The index of the element of an object that an effect writes. -/
def element? (ref : ObjectRef) : Effect → Option Nat
  | heapSet target key _ | set target key _ => if target = ref then key.arrayIndex? else none
  | _ => none

variable {e : Effect} {ref : ObjectRef} {i : Nat}

theorem element?_lt (hi : e.element? ref = some i) : i < arrayIndexLimit := by
  unfold element? at hi
  split at hi
  · split at hi
    · exact PropertyKey.arrayIndex?_lt hi
    · cases hi
  · split at hi
    · exact PropertyKey.arrayIndex?_lt hi
    · cases hi
  · cases hi

theorem Assigns.isSome_rewrite? (he : e.Assigns) : e.rewrite?.isSome = true := by
  cases e <;> first | rfl | exact he.elim

end Effect

/-- The length after some effects. -/
def lengthAfter (ref : ObjectRef) (n : Int) (effects : List Effect) : Int :=
  effects.foldl (fun n e => grownLength n (e.element? ref)) n

section Lengths

variable {ref : ObjectRef} {n : Int} {effects : List Effect}

theorem lengthAfter_cons (e : Effect) (rest : List Effect) :
    lengthAfter ref n (e :: rest) = lengthAfter ref (grownLength n (e.element? ref)) rest := rfl

theorem le_lengthAfter : n ≤ lengthAfter ref n effects := by
  induction effects generalizing n with
  | nil => exact Int.le_refl n
  | cons e rest ih => exact Int.le_trans (le_grownLength n _) ih

theorem lengthAfter_eq_iff :
    lengthAfter ref n effects = n ↔
      ∀ e ∈ effects, ∀ i, e.element? ref = some i → (i : Int) < n := by
  induction effects generalizing n with
  | nil => simp [lengthAfter]
  | cons e rest ih =>
    rw [lengthAfter_cons, List.forall_mem_cons, ← grownLength_eq_iff]
    refine ⟨fun heq => ?_, fun ⟨hhead, hall⟩ => ?_⟩
    · have hhead : grownLength n (e.element? ref) = n :=
        Int.le_antisymm (Int.le_trans le_lengthAfter (Int.le_of_eq heq)) (le_grownLength n _)
      rw [hhead] at heq
      exact ⟨hhead, ih.mp heq⟩
    · rw [hhead]
      exact ih.mpr hall

/-- The length is as it was, or what an element has made it. -/
theorem lengthAfter_cases (ref : ObjectRef) (n : Int) (effects : List Effect) :
    lengthAfter ref n effects = n ∨
      ∃ i : Nat, i < arrayIndexLimit ∧ lengthAfter ref n effects = i + 1 := by
  induction effects generalizing n with
  | nil => exact .inl rfl
  | cons e rest ih =>
    rw [lengthAfter_cons]
    rcases ih (grownLength n (e.element? ref)) with heq | hgrown
    · rw [heq]
      rcases grownLength_cases n (e.element? ref) with hsame | ⟨i, hi, hgrown⟩
      · exact .inl hsame
      · exact .inr ⟨i, Effect.element?_lt hi, hgrown⟩
    · exact .inr hgrown

end Lengths

namespace Object.Fixed

variable {o : Object} {n : Int}

theorem rewritten (h : o.Fixed n) {e : Effect} (he : e.Assigns) (ref : ObjectRef) :
    (e.rewritten ref o).Fixed (grownLength n (e.element? ref)) := by
  have hset (target : ObjectRef) (key : PropertyKey) (value : Value) :
      (if target = ref then (o.set key value).2 else o).Fixed
        (grownLength n (if target = ref then key.arrayIndex? else none)) := by
    by_cases heq : target = ref
    · simp only [heq, if_true]
      exact h.set key value
    · simp only [heq, if_false]
      exact h
  cases e with
  | heapSet target key value | set target key value => exact hset target key value
  | heapDelete target key | delete target key =>
    refine Effect.rewritten_of_change (P := (Fixed · n)) h fun change hchange => ?_
    cases hchange
    exact h.delete key
  | setArrayLength target length =>
    refine Effect.rewritten_of_change (P := (Fixed · n)) h fun change hchange => ?_
    cases hchange
    dsimp only
    rw [h.setLength]
    exact h
  | _ => exact he.elim

theorem foldl_rewritten (h : o.Fixed n) {effects : List Effect}
    (heffects : ∀ e ∈ effects, e.Assigns) (ref : ObjectRef) :
    (effects.foldl (Effect.rewritten ref) o).Fixed (lengthAfter ref n effects) := by
  induction effects generalizing o n with
  | nil => exact h
  | cons e rest ih =>
    exact ih (h.rewritten (heffects e List.mem_cons_self) ref) fun e' he' =>
      heffects e' (List.mem_cons_of_mem e he')

end Object.Fixed

namespace Realm

variable {r : Realm} {ref : ObjectRef} {o : Object} {n : Int} {effects : List Effect}

theorem arrayLength_after (ho : r.heap.object ref = .ok o) (hfixed : o.Fixed n)
    (heffects : ∀ e ∈ effects, e.Assigns) :
    (r.after effects).heap.arrayLength ref = .ok (shownLength (lengthAfter ref n effects)) :=
  (hfixed.foldl_rewritten heffects ref).arrayLength
    (object_after ho fun e he => (heffects e he).isSome_rewrite?)

/-- A length that cannot be written or deleted is as it was, after anything was assigned or
deleted, if and only if no element was written at or beyond it. -/
theorem arrayLength_after_iff (ho : r.heap.object ref = .ok o) (hfixed : o.Fixed n)
    (heffects : ∀ e ∈ effects, e.Assigns) :
    (r.after effects).heap.arrayLength ref = r.heap.arrayLength ref ↔
      ∀ e ∈ effects, ∀ i, e.element? ref = some i → (i : Int) < n := by
  rw [arrayLength_after ho hfixed heffects, hfixed.arrayLength ho, ← lengthAfter_eq_iff,
    Except.ok.injEq]
  refine ⟨fun hshown => ?_, congrArg shownLength⟩
  have hle : n ≤ lengthAfter ref n effects := le_lengthAfter
  rcases lengthAfter_cases ref n effects with heq | ⟨i, hi, heq⟩
  · exact heq
  · -- a length that an element has made is shown as it is, and was another before
    rw [heq] at hle hshown ⊢
    unfold shownLength at hshown
    split at hshown <;> split at hshown <;> omega

/-- An array of one element, with a length that cannot be written or deleted. -/
def sealedArray : Object where
  prototype? := none
  properties := [{ Properties.lengthProperty 1 with writable := false },
    { key := .string "0", value := .null }]
  kind := .array

theorem fixed_sealedArray : sealedArray.Fixed 1 where
  kind := rfl
  length := by
    have hlt := Properties.lt_of_all (t := sealedArray.properties) (n := 1) (by decide)
    refine ⟨sealedArray.properties[0], ?_, ⟨_, rfl, Number.toInt?_ofNat (by decide)⟩, rfl, rfl⟩
    exact ⟨by decide, List.getElem_mem _, rfl, fun q hq i hi => Int.ofNat_lt.mpr (hlt q hq i hi)⟩

/-- All ways to set the length, and effects on the element and on a name. -/
def sealedWrites (ref : ObjectRef) : List Effect :=
  [.set ref .length (.string "0"), .setArrayLength ref 0, .delete ref .length,
    .heapSet ref (.string "0") (.bool true), .heapDelete ref (.string "0"),
    .set ref (.string "0") .null, .heapSet ref (.string "name") .null]

theorem arrayLength_after_iff_sealedWrites :
    let r : Realm := { heap := { slots := #[.object sealedArray] } }
    (r.after (sealedWrites ⟨0⟩)).heap.arrayLength ⟨0⟩ = r.heap.arrayLength ⟨0⟩ := by
  have hfirst : ∀ e ∈ sealedWrites ⟨0⟩, (e.element? ⟨0⟩).all (· < 1) = true := by decide +kernel
  refine (arrayLength_after_iff rfl fixed_sealedArray ?_).mpr fun e he i hi => ?_
  · simp [sealedWrites, Effect.Assigns]
  · have hlt := hfirst e he
    rw [hi] at hlt
    exact Int.ofNat_lt.mpr (of_decide_eq_true hlt)

/-- An element that is written beyond the length makes it grow. -/
theorem arrayLength_after_beyond :
    let r : Realm := { heap := { slots := #[.object sealedArray] } }
    sealedArray.Fixed 1 ∧ r.heap.arrayLength ⟨0⟩ = .ok 1 ∧
      (r.after [.heapSet ⟨0⟩ (.string "5") .null]).heap.arrayLength ⟨0⟩ = .ok 6 :=
  ⟨fixed_sealedArray, fixed_sealedArray.arrayLength rfl,
    arrayLength_after rfl fixed_sealedArray (by simp [Effect.Assigns])⟩

end Realm
end Retention
