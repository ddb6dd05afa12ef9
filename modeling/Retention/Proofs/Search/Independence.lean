import Retention.Proofs.Search.Mirroring
import Retention.Proofs.Search.Verdict

/-!
# What graphs do not depend on

A graph does not depend on where the objects and symbols of a heap are, nor on
what else the heap holds (`run_eq_of_carries`). Whether references to primitives
are recorded changes nothing but these references and the numbers
(`run_recordPrimitives`).
-/

namespace Retention

/-! ## Other numbers -/

/-- A reference under another number. -/
def Edge.renumber (f : Nat → Nat) (e : Edge) : Edge := { e with id := f e.id }

/-- An entry under another number. -/
def CollectionEntry.renumber (f : Nat → Nat) (c : CollectionEntry) : CollectionEntry :=
  { c with id := f c.id }

/-- A confirmation by a reference under another number. -/
def Confirmation.renumber (f : Nat → Nat) (c : Confirmation) : Confirmation :=
  { c with edge := f c.edge }

/-- A graph with other numbers for its references and entries. -/
def Graph.renumber (f : Nat → Nat) (g : Graph) : Graph :=
  { g with
    edges := g.edges.map (Edge.renumber f)
    confirmations := g.confirmations.map (Confirmation.renumber f)
    entries := g.entries.map (CollectionEntry.renumber f) }

theorem Graph.renumber_id (g : Graph) : g.renumber id = g := by
  have hedge : Edge.renumber id = id := rfl
  have hentry : CollectionEntry.renumber id = id := rfl
  have hconfirmation : Confirmation.renumber id = id := rfl
  rw [renumber, hedge, hentry, hconfirmation, List.map_id, List.map_id, List.map_id]

/-- A graph without its references to primitives. -/
def Graph.withoutPrimitives (g : Graph) : Graph :=
  { g with edges := g.edges.filter (·.child.node?.isSome) }

theorem eq_map_of_rel {α : Type} {R : α → α → Prop} {f : α → α} {as bs : List α}
    (h : List.Forall₂ R as bs) (hR : ∀ a b, R a b → a = f b) : as = bs.map f := by
  induction h with
  | nil => rfl
  | cons hab _ ih => rw [List.map_cons, ← hR _ _ hab, ← ih]

namespace Search

variable {h h' : Heap} {held : List Value}

/-- The graphs of two searches are the same under some numbering. -/
theorem Mirror.Reflects.graph_eq {m : Mirror} {f : Nat → Nat} {s t : State}
    (hr : m.Reflects f s t) (id : NodeId) :
    { s.graph id with edges := (s.graph id).edges.filter m.keeps } = (t.graph id).renumber f := by
  obtain ⟨hp, he⟩ := hr
  have hedges : s.edges.toList.filter m.keeps = t.edges.toList.map (Edge.renumber f) :=
    eq_map_of_rel hp.edges fun e e' ⟨hid, hsame⟩ => by
      cases e; cases e'
      simp_all [Mirror.numbers, Edge.renumber]
  have hentries : s.entries.toList = t.entries.toList.map (CollectionEntry.renumber f) :=
    eq_map_of_rel hp.entries fun c c' ⟨hid, hsame⟩ => by
      cases c; cases c'
      simp_all [Mirror.numbers, CollectionEntry.renumber]
  have hconfirmations : s.confirmations.toList =
      t.confirmations.toList.map (Confirmation.renumber f) :=
    eq_map_of_rel he.confirmations fun c c' ⟨hchild, howners, hedge, hstrong⟩ => by
      cases c; cases c'
      simp_all [Mirror.numbers, Confirmation.renumber]
  rw [State.graph, State.graph, Graph.renumber, hedges, hentries, hconfirmations, hp.nodes,
    he.reached]

/-- A search finds what the held values lead to. -/
def Mirror.ofCarries (hw : h.WellFormed) (target : Identity) (htarget : h.has target = true)
    (hheld : ∀ v ∈ held, h.isValid v = true) (ρ : Renaming)
    (hρ : ρ.Carries h h' (target.toValue :: held)) (options options' : Options) (drops : Bool)
    (hstrong : options'.strongOnly = options.strongOnly)
    (hprimitives : options'.recordPrimitives = (options.recordPrimitives && !drops)) : Mirror :=
  have hdiscovered : ∀ {i}, h.Discovered held i ∨ i = target →
      h.Discovered (target.toValue :: held) i := fun hi => by
    rcases hi with hi | rfl
    · exact hi.mono fun v hv => List.mem_cons_of_mem _ hv
    · exact .held List.mem_cons_self
  have hhas : ∀ {i}, h.Discovered held i ∨ i = target → h.has i = true := fun hi => by
    rcases hi with hi | rfl
    · exact hw.has_of_discovered hheld hi
    · exact htarget
  { ρ, heap := h, image := h', options, options'
    Found := h.Discovered held
    target, drops
    strongOnly_eq := hstrong
    recordPrimitives_eq := hprimitives
    injOn := hρ.injOn.mono fun i hi => hdiscovered hi
    named := fun {i} hi => by
      cases i with
      | object ref =>
        obtain ⟨o, ho⟩ := Heap.has_object.mp (hhas hi)
        obtain ⟨o', ho', houtline⟩ := hρ.objects (hdiscovered hi) ho
        have hslots : o'.kind.outline = (ρ.kind o.kind).outline := congrArg Object.kind houtline
        have hkind : o'.kind.builtin = o.kind.builtin := by
          rw [← ObjectKind.builtin_outline, hslots, ObjectKind.builtin_outline, ρ.builtin_kind]
        refine ⟨o.kind.builtin.name, ?_, ?_⟩
        · rw [builtinName, Heap.kind, ho]; rfl
        · rw [Renaming.identity, builtinName, Heap.kind, ho', ← hkind]; rfl
      | symbol ref =>
        obtain ⟨s, hs⟩ := Heap.has_symbol.mp (hhas hi)
        obtain ⟨s', hs'⟩ := Heap.has_symbol.mp (hρ.symbols (hdiscovered hi))
        refine ⟨"Symbol", ?_, ?_⟩
        · rw [builtinName, hs]; rfl
        · rw [Renaming.identity, builtinName, hs']; rfl
    outlined := fun {ref} hr => by
      obtain ⟨o, ho⟩ := Heap.has_object.mp (hw.has_of_discovered hheld hr)
      obtain ⟨o', ho', houtline⟩ := hρ.objects (hdiscovered (.inl hr)) ho
      exact ⟨o, o', ho, ho', houtline⟩
    closed := fun hr ho hi => .refers hr ho hi
    weakMapKeys := fun _ ho => hw.weakMapKeys ho }

/-- A value held from the start is a primitive or is discovered. -/
theorem discovered_of_held {v : Value} (hv : v ∈ held) {i : Identity}
    (hi : Identity.ofValue v = .ok i) : h.Discovered held i :=
  .held (by rw [← Identity.ofValue_eq_ok.mp hi]; exact hv)

/-- The target and the held values lead somewhere. -/
theorem isValid_of_mem_roots {target : Identity} (htarget : h.has target = true)
    (hheld : ∀ v ∈ held, h.isValid v = true) : ∀ v ∈ target.toValue :: held, h.isValid v = true :=
  List.forall_mem_cons.mpr
    ⟨(Heap.isValid_of_ofValue (Identity.ofValue_toValue target)).trans htarget, hheld⟩

/-- A search of a well-formed heap with the built-in analyzers answers. -/
theorem exists_exec_builtin (hw : h.WellFormed) (target : Identity)
    (htarget : h.has target = true) (hheld : ∀ v ∈ held, h.isValid v = true) (options : Options) :
    ∃ g s, (run h options .builtin target.toValue held).1 = .ok g ∧
      exec (search h options .builtin target.toValue held) {} = (.ok g, s) := by
  have hroots := isValid_of_mem_roots htarget hheld
  have hanswers : ∃ g, (run h options .builtin target.toValue held).1 = .ok g :=
    exists_run_eq_ok (fun _ hreq => hreq.isValid_builtin hw) (by cases target <;> rfl)
      (hroots _ List.mem_cons_self) hheld
  obtain ⟨g, hrun⟩ := hanswers
  obtain ⟨s, hexec⟩ := exists_exec_of_run hrun
  exact ⟨g, s, hrun, hexec⟩

/-- Where a heap is carried to another, searches of the two answer the same but
for the numbers and for what only the first records. -/
theorem exists_run_renumber (hw : h.WellFormed) (target : Identity) (htarget : h.has target = true)
    (hheld : ∀ v ∈ held, h.isValid v = true) (ρ : Renaming)
    (hρ : ρ.Carries h h' (target.toValue :: held)) (options options' : Options) (drops : Bool)
    (hstrong : options'.strongOnly = options.strongOnly)
    (hprimitives : options'.recordPrimitives = (options.recordPrimitives && !drops)) :
    ∃ g g' f, (run h options .builtin target.toValue held).1 = .ok g ∧
      (run h' options' .builtin (ρ.value target.toValue) (held.map ρ.value)).1 = .ok g' ∧
      StrictMono f ∧ (drops = false → f = id) ∧
      { g with edges := g.edges.filter fun e => e.child.node?.isSome || !drops } =
        g'.renumber f := by
  obtain ⟨g, s, hrun, hexec⟩ := exists_exec_builtin hw target htarget hheld options
  let m : Mirror :=
    .ofCarries hw target htarget hheld ρ hρ options options' drops hstrong hprimitives
  have hfinds : ∀ v ∈ held, m.Finds v := fun v hv i hi => discovered_of_held hv hi
  obtain ⟨g', t, hexec', ⟨f, hr⟩, id, rfl, rfl⟩ := (Mirror.search_mirrored hfinds).exists_ok hexec
  exact ⟨_, _, f, hrun, congrArg Prod.fst hexec', hr.parallel.mono, hr.parallel.same,
    hr.graph_eq id⟩

/-- A graph does not depend on where the objects and symbols are that the held
values and the target lead to, nor on what else the heap holds. -/
theorem run_eq_of_carries (hw : h.WellFormed) (target : Identity) (htarget : h.has target = true)
    (hheld : ∀ v ∈ held, h.isValid v = true) (options : Options) (ρ : Renaming)
    (hρ : ρ.Carries h h' (target.toValue :: held)) :
    ∃ g, (run h options .builtin target.toValue held).1 = .ok g ∧
      (run h' options .builtin (ρ.value target.toValue) (held.map ρ.value)).1 = .ok g := by
  obtain ⟨g, g', f, hrun, hrun', -, hsame, hg⟩ := exists_run_renumber hw target htarget hheld ρ hρ
    options options false rfl (by rw [Bool.not_false, Bool.and_true])
  rw [hsame rfl, Graph.renumber_id] at hg
  simp only [Bool.not_false, Bool.or_true, List.filter_true] at hg
  obtain rfl : g = g' := hg
  exact ⟨g, hrun, hrun'⟩

/-- Everything one place further on. -/
def shift : Renaming := ⟨fun ref => ⟨ref.slot + 1⟩, fun ref => ⟨ref.slot + 1⟩⟩

/-- A WeakMap with one entry, behind a symbol that nothing refers to. -/
def shiftedEntry : Heap where
  slots := #[
    .symbol ⟨none, false⟩,
    .object ⟨none, [], .weakMap (.ofList [⟨.object ⟨2⟩, .object ⟨3⟩⟩])⟩,
    .object ⟨none, [], .ordinary⟩,
    .object ⟨none, [], .ordinary⟩]

theorem run_eq_shiftedEntry :
    ∃ g, (run .oneEntry {} .builtin (.object ⟨2⟩) [.object ⟨0⟩, .object ⟨1⟩]).1 = .ok g ∧
      (run shiftedEntry {} .builtin (.object ⟨3⟩) [.object ⟨1⟩, .object ⟨2⟩]).1 = .ok g := by
  have hslots : ∀ {ref o}, Heap.oneEntry.object ref = .ok o → ref.slot < 3 := fun {ref o} ho =>
    (List.getElem?_eq_some_iff.mp (Heap.slot_of_object ho)).1
  have hcarries : shift.Carries .oneEntry shiftedEntry
      [.object ⟨2⟩, .object ⟨0⟩, .object ⟨1⟩] := by
    refine ⟨?_, fun {ref} hs => ?_, fun {ref o} _ ho => ?_⟩
    · rintro (⟨⟨a⟩⟩ | ⟨⟨a⟩⟩) - (⟨⟨b⟩⟩ | ⟨⟨b⟩⟩) - hab <;> simp_all [shift, Renaming.identity]
    · have hhas := Heap.wellFormed_oneEntry.has_of_discovered (by decide) hs
      obtain ⟨symbol, hsymbol⟩ := Heap.has_symbol.mp hhas
      obtain ⟨i⟩ := ref
      match i, hsymbol with
      | 0, hsymbol | 1, hsymbol | 2, hsymbol => cases hsymbol
      | i + 3, hsymbol => simp [Heap.symbol, Heap.oneEntry] at hsymbol
    · have hlt := hslots ho
      obtain ⟨i⟩ := ref
      match i, hlt, ho with
      | 0, _, rfl | 1, _, rfl | 2, _, rfl => exact ⟨_, rfl, rfl⟩
  exact run_eq_of_carries Heap.wellFormed_oneEntry (.object ⟨2⟩) (by decide)
    (by decide : ∀ v ∈ [Value.object ⟨0⟩, .object ⟨1⟩], Heap.oneEntry.isValid v = true) {} shift
    hcarries

/-- Where references to primitives are recorded, a search finds the same but for
these references. The numbers are others, in the same order. -/
theorem run_recordPrimitives (hw : h.WellFormed) (target : Identity) (htarget : h.has target = true)
    (hheld : ∀ v ∈ held, h.isValid v = true) (strongOnly : Bool) :
    ∃ g g' f,
      (run h { strongOnly, recordPrimitives := true } .builtin target.toValue held).1 = .ok g ∧
      (run h { strongOnly, recordPrimitives := false } .builtin target.toValue held).1 = .ok g' ∧
      StrictMono f ∧ g.withoutPrimitives = g'.renumber f := by
  have hroots := isValid_of_mem_roots htarget hheld
  obtain ⟨g, g', f, hrun, hrun', hmono, -, hg⟩ := exists_run_renumber hw target htarget hheld .none
    (.none hw hroots) { strongOnly, recordPrimitives := true }
    { strongOnly, recordPrimitives := false } true rfl rfl
  rw [Renaming.value_none, List.map_id] at hrun'
  simp only [Bool.not_true, Bool.or_false] at hg
  exact ⟨g, g', f, hrun, hrun', hmono, hg⟩

/-- A WeakMap with an entry whose value is a primitive, before one whose value is not. -/
def mixedEntries : Heap where
  slots := #[
    .object ⟨none, [], .weakMap (.ofList [⟨.object ⟨1⟩, .null⟩, ⟨.object ⟨1⟩, .object ⟨2⟩⟩])⟩,
    .object ⟨none, [], .ordinary⟩,
    .object ⟨none, [], .ordinary⟩]

theorem run_recordPrimitives_mixedEntries :
    ∃ g g' f,
      (run mixedEntries { strongOnly := true, recordPrimitives := true } .builtin (.object ⟨2⟩)
        [.object ⟨0⟩]).1 = .ok g ∧
      (run mixedEntries { strongOnly := true, recordPrimitives := false } .builtin (.object ⟨2⟩)
        [.object ⟨0⟩]).1 = .ok g' ∧
      StrictMono f ∧ g.withoutPrimitives = g'.renumber f :=
  run_recordPrimitives (by decide) (.object ⟨2⟩) (by decide) (by decide) true

end Search
end Retention
