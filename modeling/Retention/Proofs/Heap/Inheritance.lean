import Retention.Proofs.Heap.Prototypes

/-!
# What an object inherits

A property is looked up on an object and then along its chain of prototypes, among
`prototypeChainLimit` objects at most. The object counts as one of them, while a
prototype that is set may have a chain of `prototypeChainLimit` objects by itself: the
last object of a chain that long is not looked at.

* `Heap.inherited`: what an object should inherit along a whole chain.
* `Heap.getWithin_of_chain`: what a lookup finds.
* `Heap.get_of_setPrototype_iff`: when an object has what a prototype offers.
-/

namespace Retention.Heap

variable {h h' : Heap} {ref proto : ObjectRef} {chain refs : List ObjectRef} {key : PropertyKey}

/-- The first own property with a key among objects. -/
def firstOwn? (h : Heap) (key : PropertyKey) (refs : List ObjectRef) : Option Property :=
  refs.findSome? fun ref => (h.object ref).toOption.bind (·.own? key)

/-- The value of the first own property with a key among objects; `undefined` if none of
them has the key. -/
def inherited (h : Heap) (key : PropertyKey) (refs : List ObjectRef) : Value :=
  (h.firstOwn? key refs).elim .undefined Property.value

theorem firstOwn?_cons {o : Object} (ho : h.object ref = .ok o) :
    h.firstOwn? key (ref :: refs) = (o.own? key).or (h.firstOwn? key refs) := by
  have hfirst : (h.object ref).toOption.bind (·.own? key) = o.own? key := by
    rw [ho]
    rfl
  rw [firstOwn?, List.findSome?_cons, hfirst]
  cases o.own? key <;> rfl

theorem firstOwn?_append (h : Heap) (key : PropertyKey) (refs others : List ObjectRef) :
    h.firstOwn? key (refs ++ others) = (h.firstOwn? key refs).or (h.firstOwn? key others) :=
  List.findSome?_append

/-- Objects that have a key decide what is inherited; otherwise those after them do. -/
theorem inherited_append_eq_iff (h : Heap) (key : PropertyKey) (refs others : List ObjectRef) :
    h.inherited key refs = h.inherited key (refs ++ others) ↔
      (h.firstOwn? key refs).isSome = true ∨ h.inherited key others = .undefined := by
  simp only [inherited, firstOwn?_append]
  cases h.firstOwn? key refs with
  | some found => exact iff_of_true rfl (.inl rfl)
  | none =>
    simp only [Option.none_or, Option.elim_none, Option.isSome_none, Bool.false_eq_true, false_or]
    exact eq_comm

/-- A lookup finds the first property among as many objects as it may visit. -/
theorem getWithin_of_chain {start? : Option ObjectRef} (hchain : h.Chain start? chain)
    (steps : Nat) : h.getWithin key steps start? = .ok (h.inherited key (chain.take steps)) := by
  induction hchain generalizing steps with
  | nil => cases steps <;> rfl
  | @cons p next? rest there _ ih =>
    cases steps with
    | zero => rfl
    | succ steps =>
      obtain ⟨o, ho, rfl⟩ := prototype?_eq_ok_iff.mp there
      rw [List.take_succ_cons, inherited, firstOwn?_cons ho]
      cases hown : o.own? key with
      | some found =>
        simp only [getWithin, ho, bind, Except.bind, hown]
        rfl
      | none =>
        simp only [getWithin, ho, bind, Except.bind, hown, Option.none_or]
        exact ih steps

/-- A prototype that could be set has a chain, which the object is not on. -/
theorem chain_of_setPrototype (hset : h.setPrototype ref (some proto) = (.ok true, h')) :
    ∃ chain, h'.Chain (some proto) chain ∧ chain.length ≤ prototypeChainLimit ∧
      h'.Chain (some ref) (ref :: chain) := by
  unfold setPrototype at hset
  split at hset
  · rename_i haccepts
    obtain ⟨chain, hchain, hnotin, hle⟩ := exists_chain_of_acceptsPrototype haccepts
    cases ho : h.object ref with
    | error cause =>
      rw [update_of_object_eq_error ho] at hset
      exact nomatch congrArg Prod.fst hset
    | ok o =>
      have hself := (object_update_self ho hset).1
      have hothers : ∀ q, q ≠ ref → h'.prototype? q = h.prototype? q := by
        intro q hq
        obtain rfl := congrArg Prod.snd hset
        rw [Heap.prototype?, object_update_of_ne h _ hq]
        rfl
      have hnew : h'.Chain (some proto) chain :=
        hchain.congr fun q hq => hothers q fun heq => hnotin (heq ▸ hq)
      exact ⟨chain, hnew, hle, .cons (prototype?_of_object hself) hnew⟩
  · rename_i hrefused
    exact absurd (congrArg Prod.fst hset) (by simpa using hrefused)

/-- A prototype that could be set has a chain of at most `prototypeChainLimit` objects. If
there are fewer, the object has, of every key, the value of the first property on itself
or on the chain. If there are as many, it has that value if and only if an object before
the last one has the key, or the last one has nothing else than `undefined` to offer. -/
theorem get_of_setPrototype_iff (hset : h.setPrototype ref (some proto) = (.ok true, h')) :
    ∃ chain, h'.Chain (some proto) chain ∧ chain.length ≤ prototypeChainLimit ∧
      (chain.length < prototypeChainLimit →
        ∀ key, h'.get ref key = .ok (h'.inherited key (ref :: chain))) ∧
      ∀ key, h'.get ref key = .ok (h'.inherited key (ref :: chain)) ↔
        (h'.firstOwn? key ((ref :: chain).take prototypeChainLimit)).isSome = true ∨
          h'.inherited key ((ref :: chain).drop prototypeChainLimit) = .undefined := by
  obtain ⟨chain, hchain, hle, hself⟩ := chain_of_setPrototype hset
  have hget : ∀ key, h'.get ref key =
      .ok (h'.inherited key ((ref :: chain).take prototypeChainLimit)) :=
    fun key => getWithin_of_chain hself prototypeChainLimit
  refine ⟨chain, hchain, hle, fun hlt key => ?_, fun key => ?_⟩
  · rw [hget, List.take_of_length_le hlt]
  · -- What is found and what should be found differ by the objects that are not visited.
    have happend := inherited_append_eq_iff h' key ((ref :: chain).take prototypeChainLimit)
      ((ref :: chain).drop prototypeChainLimit)
    rw [List.take_append_drop] at happend
    rw [hget, Except.ok.injEq]
    exact happend

/-! ### A tower of objects -/

/-- An object that stands alone, one that has a property, and objects above it, each of which
has the one below as its prototype. -/
def storey : Nat → Object
  | 0 => { prototype? := none, kind := .ordinary }
  | 1 =>
    { prototype? := none
      properties := [{ key := .string "key", value := .bool true }]
      kind := .ordinary }
  | i + 2 => { prototype? := some ⟨i + 1⟩, kind := .ordinary }

/-- A tower with so many objects above the one that has a property. -/
def tower (height : Nat) : Heap where
  slots := Array.ofFn (n := height + 2) fun i => .object (storey i)

/-- The objects above the one that has a property, from one of them downward. -/
def storeys : Nat → List ObjectRef
  | 0 => []
  | i + 1 => ⟨i + 2⟩ :: storeys i

section Tower

variable {height : Nat}

theorem object_tower {i : Nat} (hi : i < height + 2) :
    (tower height).object ⟨i⟩ = .ok (storey i) := by
  rw [object_eq_ok_iff, tower, Array.getElem?_ofFn, dif_pos hi]

theorem length_storeys (i : Nat) : (storeys i).length = i := by
  induction i with
  | zero => rfl
  | succ i ih => rw [storeys, List.length_cons, ih]

theorem mem_storeys {q : ObjectRef} {i : Nat} (hq : q ∈ storeys i) :
    ∃ j < i, q = ⟨j + 2⟩ := by
  induction i with
  | zero => exact absurd hq List.not_mem_nil
  | succ i ih =>
    obtain rfl | hq := List.mem_cons.mp hq
    · exact ⟨i, Nat.lt_succ_self i, rfl⟩
    · obtain ⟨j, hj, rfl⟩ := ih hq
      exact ⟨j, Nat.lt_succ_of_lt hj, rfl⟩

theorem chain_tower {i : Nat} (hi : i ≤ height) :
    (tower height).Chain (some ⟨i + 1⟩) (storeys i ++ [⟨1⟩]) := by
  induction i with
  | zero => exact .cons (prototype?_of_object (object_tower (by omega))) .nil
  | succ i ih =>
    exact .cons (prototype?_of_object (object_tower (by omega))) (ih (by omega))

theorem grounded_tower (height : Nat) : (tower height).Grounded := by
  refine ⟨fun {ref prototype?} hp => ?_⟩
  obtain ⟨o, ho, rfl⟩ := prototype?_eq_ok_iff.mp hp
  obtain ⟨i⟩ := ref
  by_cases hi : i < height + 2
  · obtain rfl := Except.ok.inj ((object_tower hi).symm.trans ho)
    rcases i with _ | _ | i
    · exact ⟨[], .nil⟩
    · exact ⟨[], .nil⟩
    · exact ⟨_, chain_tower (by omega)⟩
  · have hslot := object_eq_ok_iff.mp ho
    rw [tower, Array.getElem?_ofFn, dif_neg hi] at hslot
    cases hslot

/-- The object that stands alone is not part of the tower. -/
theorem not_mem_storeys (height : Nat) : (⟨0⟩ : ObjectRef) ∉ storeys height ++ [⟨1⟩] := by
  intro hmem
  obtain hmem | hmem := List.mem_append.mp hmem
  · obtain ⟨j, -, heq⟩ := mem_storeys hmem
    cases heq
  · cases List.mem_singleton.mp hmem

/-- The object that stands alone is put on top of the tower. -/
def topped (height : Nat) : Heap := (tower height).reparented ⟨0⟩ (some ⟨height + 1⟩)

theorem setPrototype_tower (hheight : height < prototypeChainLimit) :
    (tower height).setPrototype ⟨0⟩ (some ⟨height + 1⟩) = (.ok true, topped height) := by
  have hle : (storeys height ++ [(⟨1⟩ : ObjectRef)]).length ≤ prototypeChainLimit := by
    rw [List.length_append, length_storeys]
    exact hheight
  rw [setPrototype_of_chain (object_tower (Nat.zero_lt_succ _)) (chain_tower (Nat.le_refl _)),
    if_pos ⟨not_mem_storeys height, hle⟩]
  rfl

theorem chain_topped (height : Nat) :
    (topped height).Chain (some ⟨height + 1⟩) (storeys height ++ [⟨1⟩]) :=
  (chain_tower (Nat.le_refl _)).congr fun _ hq =>
    prototype?_reparented_of_ne fun heq => not_mem_storeys height (heq ▸ hq)

theorem object_topped {i : Nat} (hi : i < height + 2) (hne : i ≠ 0) :
    (topped height).object ⟨i⟩ = .ok (storey i) := by
  have hother : (⟨i⟩ : ObjectRef) ≠ ⟨0⟩ := fun heq => hne (ObjectRef.mk.inj heq)
  rw [topped, reparented, object_update_of_ne _ _ hother, object_tower hi]

/-- Only the object at the foot of the tower has a property. -/
theorem firstOwn?_topped (height : Nat) (key : PropertyKey) :
    (topped height).firstOwn? key (⟨0⟩ :: storeys height) = none := by
  have htop : (topped height).object ⟨0⟩ =
      .ok { storey 0 with prototype? := some ⟨height + 1⟩ } :=
    object_update_of_object (object_tower (Nat.zero_lt_succ _)) _
  rw [firstOwn?, List.findSome?_eq_none_iff]
  intro q hq
  obtain rfl | hq := List.mem_cons.mp hq
  · rw [htop]
    rfl
  · obtain ⟨j, hj, rfl⟩ := mem_storeys hq
    rw [object_topped (Nat.add_lt_add_right hj 2) (Nat.succ_ne_zero _)]
    rfl

/-- The object on top of a tower should inherit the property of the object at its foot. -/
theorem inherited_topped (height : Nat) :
    (topped height).inherited (.string "key") (⟨0⟩ :: (storeys height ++ [⟨1⟩])) = .bool true := by
  have hfoot : (topped height).object ⟨1⟩ = .ok (storey 1) :=
    object_topped (Nat.succ_lt_succ (Nat.zero_lt_succ _)) Nat.one_ne_zero
  rw [← List.cons_append, inherited, firstOwn?_append, firstOwn?_topped, Option.none_or,
    firstOwn?_cons hfoot]
  rfl

/-- On top of a tower as high as a chain may be, the object at its foot is not found. -/
theorem get_topped (hheight : height + 1 = prototypeChainLimit) (key : PropertyKey) :
    (topped height).get ⟨0⟩ key = .ok .undefined := by
  have htop : (topped height).prototype? ⟨0⟩ = .ok (some ⟨height + 1⟩) :=
    prototype?_reparented_self (object_tower (Nat.zero_lt_succ _))
  have htake : (⟨0⟩ :: (storeys height ++ [⟨1⟩]) : List ObjectRef).take prototypeChainLimit =
      ⟨0⟩ :: storeys height := by
    rw [← hheight, List.take_succ_cons, List.take_append_of_le_length, List.take_of_length_le]
    · exact Nat.le_of_eq (length_storeys height)
    · exact Nat.le_of_eq (length_storeys height).symm
  rw [Heap.get, getWithin_of_chain (.cons htop (chain_topped height)), htake, inherited,
    firstOwn?_topped]
  rfl

end Tower

/-- On a low tower, the property is inherited. -/
theorem get_of_setPrototype_iff_topped :
    (tower 1).setPrototype ⟨0⟩ (some ⟨2⟩) = (.ok true, topped 1) ∧
      (topped 1).get ⟨0⟩ (.string "key") = .ok (.bool true) := by
  have hset : (tower 1).setPrototype ⟨0⟩ (some ⟨2⟩) = (.ok true, topped 1) :=
    setPrototype_tower (by decide)
  obtain ⟨chain, hchain, -, hshort, -⟩ := get_of_setPrototype_iff hset
  obtain rfl := hchain.unique (chain_topped 1)
  exact ⟨hset, (hshort (by decide) _).trans (congrArg _ (inherited_topped 1))⟩

/-- A tower of ten thousand objects can be set as a prototype, but the property at its foot
is not inherited. -/
theorem get_of_setPrototype_beyond :
    (tower 9999).Acyclic ∧
      (tower 9999).setPrototype ⟨0⟩ (some ⟨10000⟩) = (.ok true, topped 9999) ∧
      (∃ chain, (topped 9999).Chain (some ⟨10000⟩) chain ∧
        (topped 9999).inherited (.string "key") (⟨0⟩ :: chain) = .bool true) ∧
      (topped 9999).get ⟨0⟩ (.string "key") = .ok .undefined :=
  ⟨(grounded_tower 9999).acyclic, setPrototype_tower (by decide),
    ⟨_, chain_topped 9999, inherited_topped 9999⟩, get_topped rfl _⟩

end Retention.Heap
