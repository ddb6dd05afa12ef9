import Retention.Proofs.Realm.Objects
import Retention.Realm.Weak

/-!
# Collections, weak references and registries

The keys of a collection stay different from each other, and what is held
weakly can be: each operation checks what it is given before it writes.

* `CollectionKeys.push`, `CollectionKeys.sublist`: keys that come and go.
* `Keeps.keyedSet`, `Keeps.setAdd`, …: collections.
* `Keeps.newWeakRef`, `Keeps.register`, …: weak references and registries.
-/

namespace Retention

variable {h : Heap} {weak : Bool}

/-! ## Keys -/

theorem canonicalKey_canonicalKey (key : Value) :
    canonicalKey (canonicalKey key) = canonicalKey key := by
  cases key with
  | number n =>
    have hzero : Number.zero.isZero = true := by decide +kernel
    by_cases hn : n.isZero = true
    · simp [canonicalKey, hn, hzero]
    · simp [canonicalKey, hn]
  | _ => rfl

theorem isValid_canonicalKey (key : Value) : h.isValid (canonicalKey key) = h.isValid key := by
  cases key <;> rfl

theorem canBeHeldWeakly_canonicalKey (key : Value) :
    h.canBeHeldWeakly (canonicalKey key) = h.canBeHeldWeakly key := by
  cases key <;> rfl

namespace CollectionKeys

variable {keys : List Value} (hkeys : CollectionKeys keys)

theorem nil : CollectionKeys [] := ⟨.nil, by simp⟩

include hkeys

theorem push {key : Value} (hnew : ∀ k ∈ keys, k.sameValueZero (canonicalKey key) = false) :
    CollectionKeys (keys ++ [canonicalKey key]) where
  distinct := by
    refine List.pairwise_append.mpr ⟨hkeys.distinct, List.pairwise_singleton _ _, ?_⟩
    intro k hk _ hmem
    rw [List.mem_singleton.mp hmem]
    exact hnew k hk
  canonical k hk := by
    rcases List.mem_append.mp hk with hk | hk
    · exact hkeys.canonical k hk
    · rw [List.mem_singleton.mp hk]
      exact canonicalKey_canonicalKey key

theorem sublist {keys' : List Value} (hs : keys'.Sublist keys) : CollectionKeys keys' :=
  ⟨hkeys.distinct.sublist hs, fun k hk => hkeys.canonical k (hs.mem hk)⟩

end CollectionKeys

/-! ## Entries and members -/

namespace Entries

variable {key value : Value} {entries : List KeyedEntry} {e : KeyedEntry}

theorem map_key_replace (key value : Value) (entries : List KeyedEntry) :
    (replace key value entries).map KeyedEntry.key = entries.map KeyedEntry.key := by
  induction entries with
  | nil => rfl
  | cons e rest ih =>
    unfold replace
    split
    · rfl
    · rw [List.map_cons, List.map_cons, ih]

theorem mem_replace (he : e ∈ replace key value entries) :
    e ∈ entries ∨ ∃ e' ∈ entries, e = { e' with value } := by
  induction entries with
  | nil => cases he
  | cons f rest ih =>
    unfold replace at he
    split at he
    · rcases List.mem_cons.mp he with rfl | he
      · exact .inr ⟨f, List.mem_cons_self, rfl⟩
      · exact .inl (List.mem_cons_of_mem f he)
    · rcases List.mem_cons.mp he with rfl | he
      · exact .inl List.mem_cons_self
      · rcases ih he with he | ⟨e', he', rfl⟩
        · exact .inl (List.mem_cons_of_mem f he)
        · exact .inr ⟨e', List.mem_cons_of_mem f he', rfl⟩

/-- Entries that lead somewhere, whose keys differ, and whose keys can be held
weakly if they have to be. -/
structure Consistent (h : Heap) (weak : Bool) (entries : Sequence KeyedEntry) : Prop where
  valid : ∀ e ∈ entries.toList, h.isValid e.key = true ∧ h.isValid e.value = true
  keys : CollectionKeys (entries.toList.map KeyedEntry.key)
  weakly : weak = true → ∀ e ∈ entries.toList, h.canBeHeldWeakly e.key = true

theorem consistent_keyedKind_iff (weak : Bool) (entries : Sequence KeyedEntry) :
    (Realm.keyedKind weak entries).Consistent h ↔ Consistent h weak entries := by
  have hstored : ∀ e ∈ entries.toList, ∀ v : Value, v = e.key ∨ v = e.value →
      v ∈ entries.toList.flatMap fun e => [e.key, e.value] := fun e he v hv =>
    List.mem_flatMap.mpr ⟨e, he, by simpa using hv⟩
  have hvalid : (∀ v ∈ entries.toList.flatMap fun e => [e.key, e.value], h.isValid v = true) ↔
      ∀ e ∈ entries.toList, h.isValid e.key = true ∧ h.isValid e.value = true := by
    constructor
    · exact fun hv e he => ⟨hv _ (hstored e he _ (.inl rfl)), hv _ (hstored e he _ (.inr rfl))⟩
    · intro hv v hmem
      obtain ⟨e, he, hv'⟩ := List.mem_flatMap.mp hmem
      rw [List.mem_cons, List.mem_singleton] at hv'
      rcases hv' with rfl | rfl
      · exact (hv e he).1
      · exact (hv e he).2
  cases weak with
  | false => exact ⟨fun hk => ⟨hvalid.mp hk.valid, hk.checked, nofun⟩,
      fun hk => ⟨hvalid.mpr hk.valid, hk.keys⟩⟩
  | true => exact ⟨fun hk => ⟨hvalid.mp hk.valid, hk.checked.1, fun _ => hk.checked.2⟩,
      fun hk => ⟨hvalid.mpr hk.valid, hk.keys, hk.weakly rfl⟩⟩

variable {entries : Sequence KeyedEntry} (hentries : Consistent h weak entries)

theorem Consistent.empty : Consistent h weak {} :=
  ⟨nofun, .nil, nofun⟩

include hentries

theorem Consistent.insert (hk : h.isValid key = true) (hv : h.isValid value = true)
    (hw : weak = true → h.canBeHeldWeakly key = true) :
    Consistent h weak (insert entries (canonicalKey key) value) := by
  unfold Entries.insert
  split
  · rw [← isValid_canonicalKey] at hk
    refine ⟨fun e he => ?_, ?_, fun hweak e he => ?_⟩
    · rw [Sequence.toList_ofList] at he
      rcases mem_replace he with he | ⟨e', he', rfl⟩
      · exact hentries.valid e he
      · exact ⟨(hentries.valid e' he').1, hv⟩
    · rw [Sequence.toList_ofList, map_key_replace]
      exact hentries.keys
    · rw [Sequence.toList_ofList] at he
      rcases mem_replace he with he | ⟨e', he', rfl⟩
      · exact hentries.weakly hweak e he
      · exact hentries.weakly hweak e' he'
  · rename_i hnone
    rw [find?, ← Sequence.find?_toList, List.find?_eq_none] at hnone
    refine ⟨fun e he => ?_, ?_, fun hweak e he => ?_⟩
    · rw [Sequence.toList_push, List.mem_append, List.mem_singleton] at he
      rcases he with he | rfl
      · exact hentries.valid e he
      · exact ⟨(isValid_canonicalKey key).trans hk, hv⟩
    · rw [Sequence.toList_push, List.map_append]
      refine hentries.keys.push fun k hmem => ?_
      obtain ⟨e, he, rfl⟩ := List.mem_map.mp hmem
      simpa using hnone e he
    · rw [Sequence.toList_push, List.mem_append, List.mem_singleton] at he
      rcases he with he | rfl
      · exact hentries.weakly hweak e he
      · exact (canBeHeldWeakly_canonicalKey key).trans (hw hweak)

theorem Consistent.erase (key : Value) : Consistent h weak (erase entries key) := by
  have hs : (Entries.erase entries key).toList.Sublist entries.toList := by
    rw [Entries.erase, Sequence.toList_ofList]
    exact List.eraseP_sublist
  exact ⟨fun e he => hentries.valid e (hs.mem he), hentries.keys.sublist (hs.map _),
    fun hweak e he => hentries.weakly hweak e (hs.mem he)⟩

theorem Consistent.isValid_get? {v : Value} (hv : get? entries key = some v) :
    h.isValid v = true := by
  rw [get?_eq] at hv
  obtain ⟨e, he, rfl⟩ := Option.map_eq_some_iff.mp hv
  exact (hentries.valid e (List.mem_of_find?_eq_some he)).2

end Entries

namespace Members

/-- Members that lead somewhere, differ, and can be held weakly if they have to
be. -/
structure Consistent (h : Heap) (weak : Bool) (values : Sequence Value) : Prop where
  valid : ∀ v ∈ values.toList, h.isValid v = true
  keys : CollectionKeys values.toList
  weakly : weak = true → ∀ v ∈ values.toList, h.canBeHeldWeakly v = true

theorem consistent_setKindOf_iff (weak : Bool) (values : Sequence Value) :
    (Realm.setKindOf weak values).Consistent h ↔ Consistent h weak values := by
  cases weak with
  | false => exact ⟨fun hk => ⟨hk.valid, hk.checked, nofun⟩, fun hk => ⟨hk.valid, hk.keys⟩⟩
  | true => exact ⟨fun hk => ⟨hk.valid, hk.checked.1, fun _ => hk.checked.2⟩,
      fun hk => ⟨hk.valid, hk.keys, hk.weakly rfl⟩⟩

variable {values : Sequence Value} {v : Value} (hvalues : Consistent h weak values)

theorem Consistent.empty : Consistent h weak {} := ⟨nofun, .nil, nofun⟩

include hvalues

theorem Consistent.insert (hv : h.isValid v = true)
    (hw : weak = true → h.canBeHeldWeakly v = true) :
    Consistent h weak (insert values (canonicalKey v)) := by
  unfold Members.insert
  split
  · exact hvalues
  · rename_i hnone
    rw [Members.contains, ← Sequence.any_toList, Bool.not_eq_true, List.any_eq_false] at hnone
    refine ⟨fun u hu => ?_, ?_, fun hweak u hu => ?_⟩
    · rw [Sequence.toList_push, List.mem_append, List.mem_singleton] at hu
      rcases hu with hu | rfl
      · exact hvalues.valid u hu
      · exact (isValid_canonicalKey v).trans hv
    · rw [Sequence.toList_push]
      exact hvalues.keys.push fun k hk => by simpa using hnone k hk
    · rw [Sequence.toList_push, List.mem_append, List.mem_singleton] at hu
      rcases hu with hu | rfl
      · exact hvalues.weakly hweak u hu
      · exact (canBeHeldWeakly_canonicalKey v).trans (hw hweak)

theorem Consistent.erase (v : Value) : Consistent h weak (erase values v) := by
  have hs : (Members.erase values v).toList.Sublist values.toList := by
    rw [Members.erase, Sequence.toList_ofList]
    exact List.eraseP_sublist
  exact ⟨fun u hu => hvalues.valid u (hs.mem hu), hvalues.keys.sublist hs,
    fun hweak u hu => hvalues.weakly hweak u (hs.mem hu)⟩

end Members

/-! ## Operations on collections -/

@[simp] theorem Realm.builtin_keyedKind (weak : Bool) (entries : Sequence KeyedEntry) :
    (keyedKind weak entries).builtin = if weak then .weakMap else .map := by
  cases weak <;> rfl

@[simp] theorem Realm.builtin_setKindOf (weak : Bool) (values : Sequence Value) :
    (setKindOf weak values).builtin = if weak then .weakSet else .set := by
  cases weak <;> rfl

namespace Realm.Keeps

variable {r : Realm} {ref : ObjectRef} {key value : Value} (hr : r.Consistent)

include hr

theorem requireWeaklyHoldable (v : Value) (role : String) :
    Keeps (requireWeaklyHoldable v role) r fun _ r' =>
      r' = r ∧ r.heap.canBeHeldWeakly v = true := by
  refine (getThe hr).bind ?_
  rintro _ _ - - ⟨rfl, rfl⟩
  split
  · exact throwTypeError hr _
  · rename_i hv
    exact pure hr ⟨rfl, by simpa using hv⟩

theorem newKeyed (weak : Bool) :
    Keeps (newKeyed weak) r fun ref r' => r'.heap.isValid (.object ref) = true :=
  (allocOf hr ((Entries.consistent_keyedKind_iff _ _).mpr .empty)).mono fun _ _ _ _ ho =>
    Heap.isValid_object_iff.mpr ⟨_, ho⟩

theorem newSet (weak : Bool) :
    Keeps (newSet weak) r fun ref r' => r'.heap.isValid (.object ref) = true :=
  (allocOf hr ((Members.consistent_setKindOf_iff _ _).mpr .empty)).mono fun _ _ _ _ ho =>
    Heap.isValid_object_iff.mpr ⟨_, ho⟩

/-- The entries that were read, and where they can be written back. -/
theorem entriesOf (weak : Bool) (ref : ObjectRef) :
    Keeps (entriesOf weak ref) r fun entries r' => r' = r ∧
      r.heap.builtin? ref = some (if weak then .weakMap else .map) ∧
      Entries.Consistent r.heap weak entries := by
  refine (kind hr ref).bind ?_
  rintro k _ - - ⟨rfl, o, ho, rfl⟩
  have hk := (hr.heap.objects ho).kind
  have hb := Heap.builtin?_of_object ho
  split
  · rename_i entries heq
    rw [heq] at hk hb
    exact pure hr ⟨rfl, hb, (Entries.consistent_keyedKind_iff false entries).mp hk⟩
  · rename_i entries heq
    rw [heq] at hk hb
    exact pure hr ⟨rfl, hb, (Entries.consistent_keyedKind_iff true entries).mp hk⟩
  · exact throwTypeError hr _

theorem membersOf (weak : Bool) (ref : ObjectRef) :
    Keeps (membersOf weak ref) r fun values r' => r' = r ∧
      r.heap.builtin? ref = some (if weak then .weakSet else .set) ∧
      Members.Consistent r.heap weak values := by
  refine (kind hr ref).bind ?_
  rintro k _ - - ⟨rfl, o, ho, rfl⟩
  have hk := (hr.heap.objects ho).kind
  have hb := Heap.builtin?_of_object ho
  split
  · rename_i values heq
    rw [heq] at hk hb
    exact pure hr ⟨rfl, hb, (Members.consistent_setKindOf_iff false values).mp hk⟩
  · rename_i values heq
    rw [heq] at hk hb
    exact pure hr ⟨rfl, hb, (Members.consistent_setKindOf_iff true values).mp hk⟩
  · exact throwTypeError hr _

theorem keyedSet (hk : r.heap.isValid key = true) (hv : r.heap.isValid value = true) :
    Keeps (keyedSet weak ref key value) r fun _ _ => True := by
  unfold Realm.keyedSet
  refine (entriesOf hr weak ref).bind ?_
  rintro entries _ - - ⟨rfl, hb, hentries⟩
  split
  · rename_i hweak
    refine (requireWeaklyHoldable hr key _).bind ?_
    rintro _ _ - - ⟨rfl, hheld⟩
    exact setKind hr (by simpa using hb)
      ((Entries.consistent_keyedKind_iff _ _).mpr (hentries.insert hk hv fun _ => hheld))
  · rename_i hweak
    exact setKind hr (by simpa using hb)
      ((Entries.consistent_keyedKind_iff _ _).mpr (hentries.insert hk hv fun h => absurd h hweak))

theorem keyedGet? (weak : Bool) (ref : ObjectRef) (key : Value) :
    Keeps (keyedGet? weak ref key) r fun v? r' => ∀ v ∈ v?, r'.heap.isValid v = true := by
  refine (entriesOf hr weak ref).bind ?_
  rintro entries _ - - ⟨rfl, -, hentries⟩
  exact pure hr fun v hv => hentries.isValid_get? hv

theorem keyedGet (weak : Bool) (ref : ObjectRef) (key : Value) :
    Keeps (keyedGet weak ref key) r fun v r' => r'.heap.isValid v = true := by
  refine (keyedGet? hr weak ref key).bind fun v? r' _ hr' hv => pure hr' ?_
  cases v? with
  | none => rfl
  | some v => exact hv v rfl

theorem keyedHas (weak : Bool) (ref : ObjectRef) (key : Value) :
    Keeps (keyedHas weak ref key) r fun _ _ => True :=
  (keyedGet? hr weak ref key).bind fun _ _ _ hr' _ => pure hr' trivial

theorem keyedDelete (weak : Bool) (ref : ObjectRef) (key : Value) :
    Keeps (keyedDelete weak ref key) r fun _ _ => True := by
  refine (entriesOf hr weak ref).bind ?_
  rintro entries _ - - ⟨rfl, hb, hentries⟩
  exact (setKind hr (by simpa using hb)
    ((Entries.consistent_keyedKind_iff _ _).mpr (hentries.erase key))).bind
    fun _ _ _ hr' _ => pure hr' trivial

theorem setAdd (hv : r.heap.isValid value = true) :
    Keeps (setAdd weak ref value) r fun _ _ => True := by
  unfold Realm.setAdd
  refine (membersOf hr weak ref).bind ?_
  rintro values _ - - ⟨rfl, hb, hvalues⟩
  split
  · refine (requireWeaklyHoldable hr value _).bind ?_
    rintro _ _ - - ⟨rfl, hheld⟩
    exact setKind hr (by simpa using hb)
      ((Members.consistent_setKindOf_iff _ _).mpr (hvalues.insert hv fun _ => hheld))
  · rename_i hweak
    exact setKind hr (by simpa using hb)
      ((Members.consistent_setKindOf_iff _ _).mpr (hvalues.insert hv fun h => absurd h hweak))

theorem setHas (weak : Bool) (ref : ObjectRef) (v : Value) :
    Keeps (setHas weak ref v) r fun _ _ => True :=
  (membersOf hr weak ref).bind fun _ _ _ hr' _ => pure hr' trivial

theorem setDelete (weak : Bool) (ref : ObjectRef) (v : Value) :
    Keeps (setDelete weak ref v) r fun _ _ => True := by
  refine (membersOf hr weak ref).bind ?_
  rintro values _ - - ⟨rfl, hb, hvalues⟩
  exact (setKind hr (by simpa using hb)
    ((Members.consistent_setKindOf_iff _ _).mpr (hvalues.erase v))).bind
    fun _ _ _ hr' _ => pure hr' trivial

end Realm.Keeps
end Retention
