import Retention.Proofs.Graph.Path

/-!
# Ways up in any graph

A graph may be any data: its confirmations may form a cycle, several may have one child,
and the references that they name may be missing. The way up from a node is a loop whose
only bound is on the number of confirmations that it has met (`Graph.Ascends`).

* `Graph.Ascends.unique`, `Graph.ascends_ascent`: the loop comes to one end.
* `Graph.Ascends.length_le`: it meets at most one confirmation more than there are.
* `Graph.Ascends.meets`: what it meets is linked, wherever it ends.
* `Graph.pathTo_of_any`: what a path is in any graph.
-/

namespace Retention.Graph

variable {g : Graph} {id parent : NodeId} {c : Confirmation} {way out out' : List Confirmation}
  {steps : Nat}

/-- The loop that goes up from a node, after it met the confirmations of `way`. It meets
the node's confirmation and goes on from the parent of its reference. It ends at a node
without a confirmation and at a reference that is missing or that its own child makes;
and it ends once it has met more confirmations than the graph has. -/
inductive Ascends (g : Graph) : List Confirmation → NodeId → List Confirmation → Prop where
  | unconfirmed {way : List Confirmation} {id : NodeId} (hc : g.confirmation? id = none) :
    g.Ascends way id way
  | last {way : List Confirmation} {id : NodeId} {c : Confirmation}
    (hc : g.confirmation? id = some c)
    (ho : ∀ parent, g.origin? c = some parent → parent = id) : g.Ascends way id (way ++ [c])
  | cut {way : List Confirmation} {id parent : NodeId} {c : Confirmation}
    (hc : g.confirmation? id = some c) (ho : g.origin? c = some parent) (hne : parent ≠ id)
    (hlen : g.confirmations.length < (way ++ [c]).length) : g.Ascends way id (way ++ [c])
  | next {way out : List Confirmation} {id parent : NodeId} {c : Confirmation}
    (hc : g.confirmation? id = some c) (ho : g.origin? c = some parent) (hne : parent ≠ id)
    (hlen : (way ++ [c]).length ≤ g.confirmations.length)
    (hrest : g.Ascends (way ++ [c]) parent out) : g.Ascends way id out

/-- The loop comes to one end at most. -/
theorem Ascends.unique (h : g.Ascends way id out) (h' : g.Ascends way id out') : out = out' := by
  induction h with
  | unconfirmed hc =>
    cases h' with
    | unconfirmed => rfl
    | last hc' | cut hc' | next hc' => cases hc.symm.trans hc'
  | last hc ho =>
    cases h' with
    | unconfirmed hc' => cases hc.symm.trans hc'
    | last hc' =>
      cases hc.symm.trans hc'
      rfl
    | cut hc' ho' hne | next hc' ho' hne =>
      cases hc.symm.trans hc'
      exact absurd (ho _ ho') hne
  | cut hc ho hne hlen =>
    cases h' with
    | unconfirmed hc' => cases hc.symm.trans hc'
    | last hc' ho' =>
      cases hc.symm.trans hc'
      exact absurd (ho' _ ho) hne
    | cut hc' =>
      cases hc.symm.trans hc'
      rfl
    | next hc' _ _ hlen' =>
      cases hc.symm.trans hc'
      omega
  | next hc ho hne hlen _ ih =>
    cases h' with
    | unconfirmed hc' => cases hc.symm.trans hc'
    | last hc' ho' =>
      cases hc.symm.trans hc'
      exact absurd (ho' _ ho) hne
    | cut hc' _ _ hlen' =>
      cases hc.symm.trans hc'
      omega
    | next hc' ho' _ _ hrest' =>
      cases hc.symm.trans hc'
      cases ho.symm.trans ho'
      exact ih hrest'

/-- With as many steps left as the bound leaves it, the way up is where the loop ends. -/
theorem ascends_ascent (hlen : way.length + steps = g.confirmations.length) :
    g.Ascends way id (way ++ ascent g.confirmation? g.origin? steps id) := by
  induction steps generalizing way id with
  | zero =>
    cases hc : g.confirmation? id with
    | none =>
      rw [ascent_of_none hc, List.append_nil]
      exact .unconfirmed hc
    | some c =>
      rw [ascent_zero hc]
      by_cases ho : ∃ parent, g.origin? c = some parent ∧ parent ≠ id
      · obtain ⟨parent, ho, hne⟩ := ho
        refine .cut hc ho hne ?_
        rw [List.length_append, List.length_singleton]
        omega
      · push Not at ho
        exact .last hc ho
  | succ steps ih =>
    cases hc : g.confirmation? id with
    | none =>
      rw [ascent_of_none hc, List.append_nil]
      exact .unconfirmed hc
    | some c =>
      by_cases ho : ∃ parent, g.origin? c = some parent ∧ parent ≠ id
      · obtain ⟨parent, ho, hne⟩ := ho
        have hlen : (way ++ [c]).length + steps = g.confirmations.length := by
          rw [List.length_append, List.length_singleton]
          omega
        rw [ascent_succ hc ho hne, List.append_cons]
        exact .next hc ho hne (by omega) (ih hlen)
      · push Not at ho
        rw [ascent_of_last hc ho]
        exact .last hc ho

/-! ## What the loop meets -/

/-- The loop meets at most one confirmation more than there are: it is cut off right
after it met that one. -/
theorem Ascends.length_le (h : g.Ascends way id out) (hlen : way.length ≤ g.confirmations.length) :
    out.length ≤ g.confirmations.length + 1 := by
  induction h with
  | unconfirmed => omega
  | last | cut =>
    rw [List.length_append, List.length_singleton]
    omega
  | next _ _ _ hlen' _ ih => exact ih hlen'

/-- What a loop that began at a node met: the confirmation of that node first, and after
each confirmation that of the node that makes its reference. -/
structure Meets (g : Graph) (start : NodeId) (way : List Confirmation) : Prop where
  confirmed : ∀ c ∈ way, g.confirmation? c.child = some c
  first : ∀ c, way.head? = some c → g.confirmation? start = some c
  links : way.IsChain fun d c => g.origin? d = some c.child

/-- Where a loop that began at a node stands. -/
structure Stands (g : Graph) (start : NodeId) (way : List Confirmation) (id : NodeId) : Prop
    extends g.Meets start way where
  begins : way = [] → id = start
  goesOn : ∀ d, way.getLast? = some d → g.origin? d = some id

theorem Stands.start (g : Graph) (start : NodeId) : g.Stands start [] start where
  confirmed := by simp
  first := by simp
  links := .nil
  begins _ := rfl
  goesOn := by simp

/-- The confirmation of the node where the loop stands fits what it met before. -/
theorem Stands.meets {start : NodeId} (h : g.Stands start way id)
    (hc : g.confirmation? id = some c) : g.Meets start (way ++ [c]) where
  confirmed d hd := by
    rw [List.mem_append, List.mem_singleton] at hd
    rcases hd with hd | rfl
    · exact h.confirmed d hd
    · rw [(confirmation_of_eq_some hc).2, hc]
  first d hd := by
    cases way with
    | nil =>
      cases hd
      rw [← h.begins rfl, hc]
    | cons b rest => exact h.first d hd
  links := by
    refine List.isChain_append.mpr ⟨h.links, .singleton _, fun d hd b hb => ?_⟩
    cases hb
    rw [h.goesOn d hd, (confirmation_of_eq_some hc).2]

theorem Stands.next {start : NodeId} (h : g.Stands start way id)
    (hc : g.confirmation? id = some c) (ho : g.origin? c = some parent) :
    g.Stands start (way ++ [c]) parent where
  toMeets := h.meets hc
  begins h := by simp at h
  goesOn d hd := by
    rw [List.getLast?_concat] at hd
    cases hd
    exact ho

/-- Wherever the loop ends, and also where it is cut off, what it met is linked. -/
theorem Ascends.meets {start : NodeId} (h : g.Ascends way id out) (hs : g.Stands start way id) :
    g.Meets start out := by
  induction h with
  | unconfirmed => exact hs.toMeets
  | last hc | cut hc => exact hs.meets hc
  | next hc ho _ _ _ ih => exact ih (hs.next hc ho)

theorem head?_ascent :
    (ascent g.confirmation? g.origin? steps id).head? = g.confirmation? id := by
  rw [ascent]
  cases g.confirmation? id <;> rfl

/-- The path to a node in any graph. The loop that collects it comes to an end, which is
one and the same; it has at most one confirmation more than the graph; each of them is the
one that is found for its child, and the last is that of the node; and each but the first
names a reference, which the child of the one before makes. -/
theorem pathTo_of_any (g : Graph) (id : NodeId) :
    (∀ way, g.Ascends [] id way ↔ way = (g.pathTo id).reverse) ∧
      (g.pathTo id).length ≤ g.confirmations.length + 1 ∧
      (∀ c ∈ g.pathTo id, g.confirmation? c.child = some c) ∧
      (g.pathTo id).getLast? = g.confirmation? id ∧
      (g.pathTo id).IsChain fun c d => ∃ e, g.edge? d.edge = some e ∧ e.parent = c.child := by
  have hway : g.Ascends [] id (ascent g.confirmation? g.origin? g.confirmations.length id) :=
    ascends_ascent (Nat.zero_add _)
  have hmeets := hway.meets (.start g id)
  rw [pathTo_eq]
  refine ⟨fun way => ⟨fun h => ?_, fun h => ?_⟩, ?_, fun c hc => ?_, ?_, ?_⟩
  · rw [List.reverse_reverse]
    exact h.unique hway
  · rw [h, List.reverse_reverse]
    exact hway
  · rw [List.length_reverse]
    exact hway.length_le (Nat.zero_le _)
  · exact hmeets.confirmed c (List.mem_reverse.mp hc)
  · rw [List.getLast?_reverse, head?_ascent]
  · refine List.isChain_reverse.mpr (hmeets.links.imp fun d c hlink => ?_)
    exact Option.map_eq_some_iff.mp hlink

/-- Two confirmations that come from each other's child: the way up is cut off after
the third. -/
example :
    let a : NodeId := ⟨.object, 0⟩
    let b : NodeId := ⟨.symbol, 1⟩
    let g : Graph :=
      { target := a, nodes := [], entries := [], succeeded := false
        edges := [⟨0, b, .node a, .symbolKey, true, []⟩, ⟨1, a, .node b, .symbolKey, true, []⟩]
        confirmations := [⟨a, [b], 0, true⟩, ⟨b, [a], 1, true⟩] }
    (ascent g.confirmation? g.origin? g.confirmations.length a).map Confirmation.edge =
      [0, 1, 0] := by
  decide +kernel

end Retention.Graph
