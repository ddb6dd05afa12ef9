import Mathlib.Data.List.Chain
import Mathlib.Data.List.Nodup
import Retention.Proofs.Graph.Live

/-!
# Paths

A graph whose confirmations are a proof of what is alive, and in which every
reference needs its parent, has a path from a held node down to each node that
is alive and not held (`Graph.Certified.isPath`). The way up from a node meets
no node twice, so it ends at a held node and never at the bound on its steps
(`Graph.Certified.length_ascent_le`, `Graph.Certified.ascent_of_le`).
-/

namespace Retention.Graph

variable {g : Graph} {strongOnly : Bool} {id parent : NodeId} {c d : Confirmation}
  {way : List Confirmation} {steps : Nat}

/-- Confirmations that lead from a held node down to a node: the reference of
the first is made by a held node, that of any other by the child of the one
before it. -/
structure IsPath (g : Graph) (id : NodeId) (path : List Confirmation) : Prop where
  confirmed : ∀ c ∈ path, c ∈ g.confirmations
  /-- No two of them have one child. -/
  nodup : (path.map Confirmation.child).Nodup
  last : path.getLast?.map Confirmation.child = some id
  first : ∃ c e, path.head? = some c ∧ g.edge? c.edge = some e ∧ g.Holds e.parent
  links : path.IsChain fun c d => ∃ e, g.edge? d.edge = some e ∧ e.parent = c.child
  /-- A path is strong if its last confirmation is. -/
  strong : ∀ c, path.getLast? = some c → c.strong = true → ∀ d ∈ path, d.strong = true

/-- Every reference needs its parent. -/
def Anchored (g : Graph) : Prop := ∀ e ∈ g.edges, e.parent ∈ e.premises

/-! ## Ways up -/

/-- A way up that begins with the confirmation of a node. -/
inductive Climbs (g : Graph) : NodeId → List Confirmation → Prop where
  | one {c : Confirmation} (hc : c ∈ g.confirmations) : g.Climbs c.child [c]
  | step {c : Confirmation} {parent : NodeId} {way : List Confirmation}
    (hc : c ∈ g.confirmations) (ho : g.origin? c = some parent) (hway : g.Climbs parent way) :
    g.Climbs c.child (c :: way)

theorem Climbs.mem_confirmations (hway : g.Climbs id way) : ∀ c ∈ way, c ∈ g.confirmations := by
  induction hway with
  | one hc => simpa using hc
  | step hc _ _ ih => exact List.forall_mem_cons.mpr ⟨hc, ih⟩

theorem Climbs.head (hway : g.Climbs id way) : ∃ c rest, way = c :: rest ∧ c.child = id := by
  cases hway with
  | one => exact ⟨_, _, rfl, rfl⟩
  | step => exact ⟨_, _, rfl, rfl⟩

theorem Climbs.links (hway : g.Climbs id way) :
    way.IsChain fun d c => ∃ e, g.edge? d.edge = some e ∧ e.parent = c.child := by
  induction hway with
  | one => exact .singleton _
  | step _ ho hway ih =>
    obtain ⟨c, rest, rfl, rfl⟩ := hway.head
    obtain ⟨e, he, hp⟩ := Option.map_eq_some_iff.mp ho
    exact .cons_cons ⟨e, he, hp⟩ ih

/-! ## The way up that a graph takes -/

theorem confirmation_of_eq_some (hc : g.confirmation? id = some c) :
    c ∈ g.confirmations ∧ c.child = id := by
  unfold confirmation? at hc
  exact ⟨List.mem_of_find?_eq_some hc, by simpa using List.find?_some hc⟩

theorem ascent_of_none (hc : g.confirmation? id = none) :
    ascent g.confirmation? g.origin? steps id = [] := by
  rw [ascent, hc]

theorem ascent_zero (hc : g.confirmation? id = some c) :
    ascent g.confirmation? g.origin? 0 id = [c] := by
  rw [ascent, hc]

/-- The way up ends at a confirmation that comes from nowhere but its own child. -/
theorem ascent_of_last (hc : g.confirmation? id = some c)
    (ho : ∀ parent, g.origin? c = some parent → parent = id) :
    ascent g.confirmation? g.origin? steps id = [c] := by
  rw [ascent, hc]
  simp only [List.cons.injEq, true_and]
  split
  · rename_i parent hparent
    exact if_pos (ho parent hparent)
  · rfl

theorem ascent_succ (hc : g.confirmation? id = some c) (ho : g.origin? c = some parent)
    (hne : parent ≠ id) :
    ascent g.confirmation? g.origin? (steps + 1) id =
      c :: ascent g.confirmation? g.origin? steps parent := by
  rw [ascent, hc]
  simp only [ho, if_neg hne]

/-- A way up that is not cut off stays as it is when more steps are allowed. -/
theorem ascent_succ_eq (hlen : (ascent g.confirmation? g.origin? steps id).length ≤ steps) :
    ascent g.confirmation? g.origin? (steps + 1) id =
      ascent g.confirmation? g.origin? steps id := by
  induction steps generalizing id with
  | zero =>
    cases hc : g.confirmation? id with
    | none => rw [ascent_of_none hc, ascent_of_none hc]
    | some c =>
      rw [ascent_zero hc] at hlen
      cases hlen
  | succ steps ih =>
    cases hc : g.confirmation? id with
    | none => rw [ascent_of_none hc, ascent_of_none hc]
    | some c =>
      by_cases ho : ∃ parent, g.origin? c = some parent ∧ parent ≠ id
      · obtain ⟨parent, ho, hne⟩ := ho
        rw [ascent_succ hc ho hne, List.length_cons, Nat.succ_le_succ_iff] at hlen
        rw [ascent_succ hc ho hne, ascent_succ hc ho hne, ih hlen]
      · push Not at ho
        rw [ascent_of_last hc ho, ascent_of_last hc ho]

/-! ## Ways up in a certified graph -/

namespace Certified

variable (hg : g.Certified strongOnly)
include hg

/-- A node has no confirmation but its own. -/
theorem confirmation?_eq_some (hc : c ∈ g.confirmations) : g.confirmation? c.child = some c := by
  cases hd : g.confirmation? c.child with
  | none => exact absurd hc (by simpa using List.find?_eq_none.mp hd c)
  | some d =>
    obtain ⟨hmem, hchild⟩ := confirmation_of_eq_some hd
    rw [List.inj_on_of_nodup_map hg.unique hmem hc hchild]

theorem confirmation?_eq_none (hid : g.Holds id ∨ ¬g.Live strongOnly id) :
    g.confirmation? id = none := by
  refine List.find?_eq_none.mpr fun c hc hchild => ?_
  obtain ⟨hlive, hnot⟩ := (hg.confirmed_iff id).mp ⟨c, hc, beq_iff_eq.mp hchild⟩
  exact hid.elim hnot fun h => h hlive

/-- A confirmation comes from somewhere. -/
theorem exists_origin (hc : c ∈ g.confirmations) : ∃ parent, g.origin? c = some parent := by
  obtain ⟨e, he, -⟩ := hg.edge c hc
  exact ⟨e.parent, by rw [origin?, he]; rfl⟩

/-- A confirmation comes from one of its owners. -/
theorem mem_owners_of_origin (ha : g.Anchored) (hc : c ∈ g.confirmations)
    (ho : g.origin? c = some parent) : parent ∈ c.owners := by
  obtain ⟨e, he, -, howners, -⟩ := hg.edge c hc
  rw [origin?, he] at ho
  obtain rfl : e.parent = parent := Option.some.inj ho
  rw [howners]
  exact ha e (List.mem_of_find?_eq_some he)

/-- A way up begins with the confirmation of its node. -/
theorem climbs_ascent (steps : Nat) (hc : c ∈ g.confirmations) :
    g.Climbs c.child (ascent g.confirmation? g.origin? steps c.child) := by
  have hconfirmed := hg.confirmation?_eq_some hc
  induction steps generalizing c with
  | zero =>
    rw [ascent_zero hconfirmed]
    exact .one hc
  | succ steps ih =>
    by_cases ho : ∃ parent, g.origin? c = some parent ∧ parent ≠ c.child
    · obtain ⟨parent, ho, hne⟩ := ho
      rw [ascent_succ hconfirmed ho hne]
      cases hparent : g.confirmation? parent with
      | none =>
        rw [ascent_of_none hparent]
        exact .one hc
      | some d =>
        obtain ⟨hd, rfl⟩ := confirmation_of_eq_some hparent
        exact .step hc ho (ih hd hparent)
    · push Not at ho
      rw [ascent_of_last hconfirmed ho]
      exact .one hc

variable (ha : g.Anchored)
include ha

/-- What a way up meets is needed for the node that it begins with. -/
theorem reflTransGen_of_climbs (hway : g.Climbs id way) :
    ∀ c ∈ way, Relation.ReflTransGen g.IsOwner c.child id := by
  induction hway with
  | one hc => simp [Relation.ReflTransGen.refl]
  | @step c parent way hc ho _ ih =>
    have howner := hg.mem_owners_of_origin ha hc ho
    exact List.forall_mem_cons.mpr ⟨.refl, fun d hd => (ih d hd).tail ⟨c, hc, rfl, howner⟩⟩

/-- A way up meets no node twice. -/
theorem nodup_of_climbs (hway : g.Climbs id way) : (way.map Confirmation.child).Nodup := by
  induction hway with
  | one hc => simp
  | @step c parent way hc ho hway ih =>
    rw [List.map_cons, List.nodup_cons]
    refine ⟨fun hmem => ?_, ih⟩
    obtain ⟨d, hd, hsame⟩ := List.mem_map.mp hmem
    have hup := hg.reflTransGen_of_climbs ha hway d hd
    rw [hsame] at hup
    exact hg.acyclic c.child (.tail' hup ⟨c, hc, rfl, hg.mem_owners_of_origin ha hc ho⟩)

/-- A way up is strong if it begins strongly. -/
theorem strong_of_climbs (hway : g.Climbs id way) (hc : way.head? = some c)
    (hs : c.strong = true) : ∀ d ∈ way, d.strong = true := by
  induction hway generalizing c with
  | one =>
    cases hc
    simpa using hs
  | @step c' parent way hc' ho hway ih =>
    obtain rfl : c' = c := Option.some.inj hc
    obtain ⟨d, rest, rfl, rfl⟩ := hway.head
    have hd := hway.mem_confirmations d List.mem_cons_self
    refine List.forall_mem_cons.mpr ⟨hs, ih rfl ?_⟩
    have howner := hg.mem_owners_of_origin ha hc' ho
    rcases hg.owners c' hc' d.child howner with hheld | ⟨d', hd', hchild, hstrong⟩
    · exact absurd hheld ((hg.confirmed_iff _).mp ⟨d, hd, rfl⟩).2
    · rw [List.inj_on_of_nodup_map hg.unique hd hd' hchild.symm]
      exact hstrong hs

/-- A way up is no longer than there are confirmations. -/
theorem length_ascent_le : (ascent g.confirmation? g.origin? steps id).length ≤
    g.confirmations.length := by
  cases hc : g.confirmation? id with
  | none =>
    rw [ascent_of_none hc]
    exact Nat.zero_le _
  | some c =>
    obtain ⟨hmem, rfl⟩ := confirmation_of_eq_some hc
    have hway := hg.climbs_ascent steps hmem
    have hsub := (hg.nodup_of_climbs ha hway).length_le_of_subset
      (List.map_subset Confirmation.child hway.mem_confirmations)
    rwa [List.length_map, List.length_map] at hsub

/-- More steps than there are confirmations lead no further up. -/
theorem ascent_of_le (hle : g.confirmations.length ≤ steps) :
    ascent g.confirmation? g.origin? steps id =
      ascent g.confirmation? g.origin? g.confirmations.length id := by
  induction steps, hle using Nat.le_induction with
  | base => rfl
  | succ steps hle ih =>
    rw [ascent_succ_eq ((hg.length_ascent_le ha).trans hle), ih]

/-- A way up that is not cut off ends with a reference that a held node makes. -/
theorem exists_root (hc : c ∈ g.confirmations)
    (hlen : (ascent g.confirmation? g.origin? steps c.child).length ≤ steps) :
    ∃ d e, (ascent g.confirmation? g.origin? steps c.child).getLast? = some d ∧
      g.edge? d.edge = some e ∧ g.Holds e.parent := by
  induction steps generalizing c with
  | zero =>
    rw [ascent_zero (hg.confirmation?_eq_some hc)] at hlen
    cases hlen
  | succ steps ih =>
    obtain ⟨parent, ho⟩ := hg.exists_origin hc
    have howner := hg.mem_owners_of_origin ha hc ho
    have hne : parent ≠ c.child := fun he =>
      hg.acyclic c.child (.single ⟨c, hc, rfl, he ▸ howner⟩)
    rw [ascent_succ (hg.confirmation?_eq_some hc) ho hne] at hlen ⊢
    rcases hg.owners c hc parent howner with hheld | ⟨d, hd, rfl, -⟩
    · obtain ⟨e, he, rfl⟩ := Option.map_eq_some_iff.mp ho
      rw [ascent_of_none (hg.confirmation?_eq_none (.inl hheld))]
      exact ⟨c, e, rfl, he, hheld⟩
    · obtain ⟨q, e, hlast, hroot⟩ := ih hd (Nat.le_of_succ_le_succ hlen)
      exact ⟨q, e, by rw [List.getLast?_cons, hlast]; rfl, hroot⟩

/-- The path to a node that is confirmed leads from a held node down to it. -/
theorem isPath (hlive : g.Live strongOnly id) (hnot : ¬g.Holds id) : g.IsPath id (g.pathTo id) := by
  obtain ⟨c, hc, rfl⟩ := (hg.confirmed_iff id).mpr ⟨hlive, hnot⟩
  have hway := hg.climbs_ascent g.confirmations.length hc
  obtain ⟨d, e, hlast, he, hheld⟩ := hg.exists_root ha hc (hg.length_ascent_le ha)
  rw [pathTo_eq]
  obtain ⟨b, rest, hcons, hchild⟩ := hway.head
  exact {
    confirmed := fun c hc => hway.mem_confirmations c (List.mem_reverse.mp hc)
    nodup := by
      rw [List.map_reverse, List.nodup_reverse]
      exact hg.nodup_of_climbs ha hway
    last := by
      rw [List.getLast?_reverse, hcons, List.head?_cons, Option.map_some, hchild]
    first := ⟨d, e, by rw [List.head?_reverse, hlast], he, hheld⟩
    links := List.isChain_reverse.mpr hway.links
    strong := fun c hc hs d hd => by
      rw [List.getLast?_reverse] at hc
      exact hg.strong_of_climbs ha hway hc hs d (List.mem_reverse.mp hd) }

omit ha in
/-- There is no path to a node that is held or not alive. -/
theorem pathTo_eq_nil (hid : g.Holds id ∨ ¬g.Live strongOnly id) : g.pathTo id = [] := by
  rw [pathTo_eq, ascent_of_none (hg.confirmation?_eq_none hid), List.reverse_nil]

end Certified

end Retention.Graph
