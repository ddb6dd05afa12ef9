import Mathlib.Data.List.Induction
import Retention.Proofs.Interning

/-!
# Histories of interners

An interner is asked for the ids of values and for the values of ids, in any order and
any number of times. What it answers follows from the values that were interned so far.

* `Interner.values_after`: it holds these values, each once, in the order in which
  they were interned first.
* `Interner.id_mem_replies_iff`: the ids that it gave out are those that it knows.
* `Interner.history_internWord`: the same with numbers of 32 bits.
* `Interner.numbered_of_history`: the three together.
-/

namespace Retention

/-- A call on an interner. -/
inductive InternerCall where
  /-- The id of a value, a new one at first sight. -/
  | intern (v : Identity)
  | has (v : Identity)
  /-- The id of a value, if it has one. -/
  | find (v : Identity)
  | value (id : NodeId)
deriving DecidableEq, Repr

namespace InternerCall

/-- The value that a call interns. -/
def interned? : InternerCall → Option Identity
  | intern v => some v
  | _ => none

/-- The values that calls intern, each once, in the order in which they are interned
first. -/
def interned (calls : List InternerCall) : List Identity :=
  (calls.filterMap interned?).eraseDups

end InternerCall

/-- What a call answers. -/
inductive InternerReply where
  | id (id : NodeId)
  | known (yes : Bool)
  | found (id? : Option NodeId)
  | value (answer : Except Violation Identity)

namespace Interner

open InternerCall (interned interned?)

/-- Interning with numbers of 32 bits: the size is cut to a word. -/
def internWord (t : Interner) (v : Identity) : NodeId × Interner :=
  match t.id? v with
  | some id => (id, t)
  | none =>
    let id : NodeId := ⟨v.kind, t.size.toUInt32.toNat⟩
    (id, ⟨t.ids.insert v id, t.values.push v⟩)

section History

variable (give : Interner → Identity → NodeId × Interner)

/-- What a call answers, and the interner after it, where `give` interns a value. -/
def perform (t : Interner) : InternerCall → InternerReply × Interner
  | .intern v => (.id (give t v).1, (give t v).2)
  | .has v => (.known (t.id? v).isSome, t)
  | .find v => (.found (t.id? v), t)
  | .value id => (.value (t.value? id), t)

/-- The interner after a sequence of calls. -/
def after (t : Interner) (calls : List InternerCall) : Interner :=
  calls.foldl (fun t call => (t.perform give call).2) t

/-- What a sequence of calls answers. -/
def replies (t : Interner) : List InternerCall → List InternerReply
  | [] => []
  | call :: rest => (t.perform give call).1 :: replies (t.perform give call).2 rest

theorem after_append (t : Interner) (calls rest : List InternerCall) :
    t.after give (calls ++ rest) = (t.after give calls).after give rest := List.foldl_append

theorem after_concat (t : Interner) (calls : List InternerCall) (call : InternerCall) :
    t.after give (calls ++ [call]) = ((t.after give calls).perform give call).2 := by
  rw [after_append]
  rfl

theorem replies_concat (t : Interner) (calls : List InternerCall) (call : InternerCall) :
    t.replies give (calls ++ [call]) =
      t.replies give calls ++ [((t.after give calls).perform give call).1] := by
  induction calls generalizing t with
  | nil => rfl
  | cons first rest ih =>
    rw [List.cons_append, replies, replies, ih, List.cons_append]
    rfl

end History

variable {t : Interner} {v : Identity} {id : NodeId} {calls : List InternerCall}

/-! ## What an interner knows -/

/-- A value's number is its place. -/
theorem Lawful.id?_eq (h : t.Lawful) (v : Identity) :
    t.id? v =
      if v ∈ t.values.toList then some ⟨v.kind, t.values.toList.idxOf v⟩ else none := by
  split
  · rename_i hv
    exact (h v _).mpr ⟨List.getElem?_idxOf hv, rfl⟩
  · rename_i hv
    exact Option.eq_none_iff_forall_ne_some.mpr fun id hid => hv (h.mem_values hid)

theorem Lawful.value?_eq_ok_iff (h : t.Lawful) : t.value? id = .ok v ↔ t.id? v = some id := by
  rw [h v id, value?, Array.getElem?_toList]
  cases t.values[id.index]? with
  | none => simp
  | some w =>
    by_cases hk : w.kind = id.kind
    · simp only [hk, ↓reduceIte, Except.ok.injEq, Option.some.injEq]
      exact ⟨fun he => ⟨he, by rw [← he, hk]⟩, And.left⟩
    · simp only [hk, ↓reduceIte, reduceCtorEq, Option.some.injEq, false_iff, not_and]
      exact fun he hkind => hk (by rw [he, hkind])

/-- An id that leads to no value is answered with itself. -/
theorem value?_eq_error_iff (t : Interner) (id : NodeId) :
    t.value? id = .error (.unknownNode id) ↔ ∀ v, t.value? id ≠ .ok v := by
  unfold value?
  split
  · split <;> simp
  · simp

/-- A number belongs to one value, whatever the kinds of the ids. -/
theorem Lawful.eq_of_index_eq (h : t.Lawful) {w : Identity} {i j : NodeId} (hv : t.id? v = some i)
    (hw : t.id? w = some j) (hij : i.index = j.index) : v = w := by
  have hget := ((h v i).mp hv).1
  rw [hij, ((h w j).mp hw).1] at hget
  exact (Option.some.inj hget).symm

/-- A value that is interned is given its place, or the one after the last. -/
theorem Lawful.intern_fst (h : t.Lawful) (v : Identity) :
    (t.intern v).1 = ⟨v.kind, t.values.toList.idxOf v⟩ := by
  have hid := h.id?_eq v
  split at hid
  · rw [intern_of_some hid]
  · rename_i hv
    rw [intern_of_none hid, List.idxOf_eq_length hv, size, Array.length_toList]

/-- The values after one more is interned. -/
theorem Lawful.values_intern (h : t.Lawful) (v : Identity) :
    (t.intern v).2.values.toList =
      if v ∈ t.values.toList then t.values.toList else t.values.toList ++ [v] := by
  have hid := h.id?_eq v
  split at hid
  · rename_i hv
    rw [intern_of_some hid, if_pos hv]
  · rename_i hv
    rw [intern_of_none hid, if_neg hv, Array.toList_push]

theorem id?_intern_eq_some_iff {w : Identity} :
    (t.intern v).2.id? w = some id ↔ t.id? w = some id ∨ w = v ∧ id = (t.intern v).1 := by
  cases hv : t.id? v with
  | some id' =>
    rw [intern_of_some hv]
    constructor
    · exact .inl
    · rintro (h | ⟨rfl, rfl⟩)
      · exact h
      · exact hv
  | none =>
    rw [intern_of_none hv, id?, Std.HashMap.getElem?_insert]
    by_cases hw : v = w
    · subst hw
      simp [hv, eq_comm]
    · simp [hw, Ne.symm hw, id?]

/-- With fewer values than words, a word holds the number of the next value. -/
theorem internWord_eq (h : t.id? v = none → t.size < UInt32.size) :
    t.internWord v = t.intern v := by
  unfold internWord
  cases hv : t.id? v with
  | some id => rw [intern_of_some hv]
  | none =>
    have hword : t.size.toUInt32.toNat = t.size := UInt32.toNat_ofNat_of_lt' (h hv)
    simp only [intern_of_none hv, hword]

/-! ## What is interned -/

theorem mem_interned : v ∈ interned calls ↔ .intern v ∈ calls := by
  rw [interned, List.mem_eraseDups, List.mem_filterMap]
  constructor
  · rintro ⟨call, hcall, hv⟩
    cases call with
    | intern w =>
      cases hv
      exact hcall
    | has | find | value => cases hv
  · exact fun h => ⟨_, h, rfl⟩

theorem interned_concat (calls : List InternerCall) (v : Identity) :
    interned (calls ++ [.intern v]) =
      if v ∈ interned calls then interned calls else interned calls ++ [v] := by
  have hmem : v ∈ interned calls ↔ v ∈ calls.filterMap interned? := List.mem_eraseDups
  have hone : [InternerCall.intern v].filterMap interned? = [v] := rfl
  rw [interned, List.filterMap_append, List.eraseDups_append, hone, ← interned]
  by_cases hv : v ∈ interned calls
  · have hnew : [v].removeAll (calls.filterMap interned?) = [] := by
      simp only [List.removeAll, List.filter_eq_nil_iff, List.mem_singleton, forall_eq]
      simpa using hmem.mp hv
    rw [hnew, List.eraseDups_nil, List.append_nil, if_pos hv]
  · have hnew : [v].removeAll (calls.filterMap interned?) = [v] := by
      simp only [List.removeAll, List.filter_eq_self, List.mem_singleton, forall_eq]
      simpa using mt hmem.mpr hv
    rw [hnew, if_neg hv, List.eraseDups_cons, List.filter_nil, List.eraseDups_nil]

theorem interned_concat_of_none {call : InternerCall} (h : call.interned? = none) :
    interned (calls ++ [call]) = interned calls := by
  rw [interned, List.filterMap_append, List.filterMap_cons_none h, List.filterMap_nil,
    List.append_nil, ← interned]

theorem length_interned_le (calls : List InternerCall) (call : InternerCall) :
    (interned calls).length ≤ (interned (calls ++ [call])).length := by
  cases call with
  | intern v =>
    rw [interned_concat]
    split <;> simp
  | has | find | value =>
    exact Nat.le_of_eq (congrArg List.length (interned_concat_of_none (by rfl))).symm

/-! ## Any number of calls -/

theorem lawful_perform (h : t.Lawful) (call : InternerCall) :
    (t.perform intern call).2.Lawful := by
  cases call with
  | intern v => exact h.intern v
  | has | find | value => exact h

/-- Values keep their ids. -/
theorem id?_after (later : List InternerCall) (hv : t.id? v = some id) :
    (t.after intern later).id? v = some id := by
  induction later generalizing t with
  | nil => exact hv
  | cons call rest ih =>
    refine ih ?_
    cases call with
    | intern w => exact id?_intern_of_id?_eq_some hv
    | has | find | value => exact hv

theorem lawful_after (calls : List InternerCall) : (empty.after intern calls).Lawful := by
  induction calls using List.reverseRecOn with
  | nil => exact .empty
  | append_singleton calls call ih =>
    rw [after_concat]
    exact lawful_perform ih call

/-- An interner holds the values that were interned, in the order in which they were
interned first. -/
theorem values_after (calls : List InternerCall) :
    (empty.after intern calls).values.toList = interned calls := by
  induction calls using List.reverseRecOn with
  | nil => rfl
  | append_singleton calls call ih =>
    rw [after_concat]
    cases call with
    | intern v =>
      rw [interned_concat, ← ih]
      exact (lawful_after calls).values_intern v
    | has | find | value => rw [interned_concat_of_none rfl, ← ih]; rfl

/-- The ids that were given out are those of the values interned. -/
theorem id_mem_replies_iff (calls : List InternerCall) (id : NodeId) :
    .id id ∈ empty.replies intern calls ↔ ∃ v, (empty.after intern calls).id? v = some id := by
  induction calls using List.reverseRecOn with
  | nil => simp [replies, after, empty, id?]
  | append_singleton calls call ih =>
    rw [replies_concat, after_concat, List.mem_append, ih, List.mem_singleton]
    cases call with
    | intern v =>
      simp only [perform, InternerReply.id.injEq, id?_intern_eq_some_iff]
      constructor
      · rintro (⟨w, hw⟩ | rfl)
        · exact ⟨w, .inl hw⟩
        · exact ⟨v, .inr ⟨rfl, rfl⟩⟩
      · rintro ⟨w, hw | ⟨-, rfl⟩⟩
        · exact .inl ⟨w, hw⟩
        · exact .inr rfl
    | has | find | value => simp [perform]

/-- With no more values than words, numbers of 32 bits make no difference. -/
theorem history_internWord (hfew : (interned calls).length ≤ UInt32.size) :
    empty.after internWord calls = empty.after intern calls ∧
      empty.replies internWord calls = empty.replies intern calls := by
  induction calls using List.reverseRecOn with
  | nil => exact ⟨rfl, rfl⟩
  | append_singleton calls call ih =>
    obtain ⟨hafter, hreplies⟩ := ih (Nat.le_trans (length_interned_le calls call) hfew)
    have hstep : (empty.after intern calls).perform internWord call =
        (empty.after intern calls).perform intern call := by
      cases call with
      | intern v =>
        have hgive : (empty.after intern calls).internWord v =
            (empty.after intern calls).intern v := by
          refine internWord_eq fun hnone => ?_
          have hid := (lawful_after calls).id?_eq v
          rw [values_after, hnone] at hid
          split at hid
          · cases hid
          · rename_i hv
            rw [interned_concat, if_neg hv, List.length_append, List.length_singleton,
              ← values_after, Array.length_toList] at hfew
            exact hfew
        simp only [perform, hgive]
      | has | find | value => rfl
    rw [after_concat, after_concat, replies_concat, replies_concat, hafter, hreplies, hstep]
    exact ⟨rfl, rfl⟩

/-- What an interner answers after any calls. It holds the values interned so far, each
once; a value's id has its kind and, as its number, its place in the order in which they
were interned first; a new value is given the number after the last, and no id changes
later. Two values never share a number, an id leads back to its value, and exactly the
ids that were never given out lead to none. Numbers of 32 bits give the same answers as
long as there are no more values than words. -/
theorem numbered_of_history (calls : List InternerCall) :
    let t := empty.after intern calls
    let values := interned calls
    (values.Nodup ∧ ∀ v, v ∈ values ↔ .intern v ∈ calls) ∧
      (∀ v, (t.intern v).1 = ⟨v.kind, values.idxOf v⟩) ∧
      (∀ v, t.id? v = if v ∈ values then some ⟨v.kind, values.idxOf v⟩ else none) ∧
      (∀ v id later, t.id? v = some id →
        (t.after intern later).id? v = some id ∧ ((t.after intern later).intern v).1 = id) ∧
      (∀ v w i j, t.id? v = some i → t.id? w = some j → i.index = j.index → v = w) ∧
      (∀ v id, t.value? id = .ok v ↔ t.id? v = some id) ∧
      (∀ id, t.value? id = .error (.unknownNode id) ↔ .id id ∉ empty.replies intern calls) ∧
      (values.length ≤ UInt32.size →
        empty.replies internWord calls = empty.replies intern calls) := by
  intro t values
  have ht : t.Lawful := lawful_after calls
  have hvalues : t.values.toList = values := values_after calls
  refine ⟨⟨?_, fun v => mem_interned⟩, fun v => ?_, fun v => ?_, fun v id later hv => ?_,
    fun v w i j => ht.eq_of_index_eq, fun v id => ht.value?_eq_ok_iff, fun id => ?_,
    fun hfew => (history_internWord hfew).2⟩
  · rw [← hvalues]
    exact ht.nodup
  · rw [← hvalues]
    exact ht.intern_fst v
  · rw [← hvalues]
    exact ht.id?_eq v
  · have hlater := id?_after later hv
    exact ⟨hlater, by rw [intern_of_some hlater]⟩
  · rw [value?_eq_error_iff, id_mem_replies_iff, not_exists]
    exact forall_congr' fun v => not_congr ht.value?_eq_ok_iff

/-- An object and a symbol of one slot get two numbers, in the order in which they are
interned first, and the symbol's number is no object's. -/
theorem numbered_of_history_sharedSlot :
    let o : Identity := .object ⟨7⟩
    let s : Identity := .symbol ⟨7⟩
    let calls : List InternerCall :=
      [.has s, .intern o, .value ⟨.symbol, 1⟩, .intern s, .intern o, .find s]
    let t := empty.after intern calls
    interned calls = [o, s] ∧ (interned calls).length ≤ UInt32.size ∧
      t.id? o = some ⟨.object, 0⟩ ∧ t.id? s = some ⟨.symbol, 1⟩ ∧
      t.value? ⟨.symbol, 1⟩ = .ok s ∧ t.value? ⟨.object, 1⟩ = .error (.unknownNode ⟨.object, 1⟩) ∧
      empty.replies internWord calls = empty.replies intern calls := by
  intro o s calls t
  obtain ⟨-, -, hid, -, hnumber, hvalue, -, hword⟩ := numbered_of_history calls
  have hvalues : interned calls = [o, s] := by decide
  have hlength : (interned calls).length ≤ UInt32.size := by rw [hvalues]; decide
  rw [hvalues] at hid
  have ho : t.id? o = some ⟨.object, 0⟩ := (hid o).trans (by decide)
  have hs : t.id? s = some ⟨.symbol, 1⟩ := (hid s).trans (by decide)
  refine ⟨hvalues, hlength, ho, hs, (hvalue s _).mpr hs,
    (value?_eq_error_iff _ _).mpr fun v hv => ?_, hword hlength⟩
  -- the number is that of the symbol, which has another kind
  have hv := (hvalue v _).mp hv
  cases hnumber v s _ _ hv hs rfl
  cases hv.symm.trans hs

end Interner
end Retention
