import Retention.Proofs.Search.Echo
import Retention.Proofs.Search.Reachability
import Retention.Proofs.Search.Requests
import Retention.Proofs.Search.Tracking

/-!
# What a search explores

A search records each reference once (`Distinct`). When the objects of its agenda
are expanded, whatever it has recorded was asked for by one of them, and it has
recorded an entry for each that they asked for, in order (`Explored`).

* `wp_perform_explored`: a request;
* `search_explored`: a whole search.
-/

namespace Retention

/-- What a reference is recorded under. -/
def Edge.key (e : Edge) : NodeId × EdgeKind × Option NodeId := (e.parent, e.kind, e.child.node?)

/-- An entry as it is recorded. -/
structure CollectionEntry.Records (c : CollectionEntry) (t : Interner) (collection : ObjectRef)
    (i : Nat) (key : Value) (strong : Bool) (value? : Option Value) : Prop where
  collection : t.Names (.object collection) c.collection
  entry : c.entry = i
  key : t.Denotes key c.key
  strong : c.keyIsStrong = strong
  value : Option.Rel t.Denotes value? c.value?

/-- An entry is the one that a request asks for. -/
def Request.Enters (t : Interner) : Request → CollectionEntry → Prop
  | .entry collection i key keyStrength value?, c =>
    c.Records t collection i key (keyStrength == .strong) (value?.map Prod.fst)
  | _, _ => False

theorem Request.Enters.mono {t t' : Interner} {req : Request} {c : CollectionEntry}
    (he : req.Enters t c) (ht : ∀ {v id}, t.Names v id → t'.Names v id) : req.Enters t' c := by
  cases req with
  | entry =>
    exact ⟨ht he.collection, he.entry, he.key.mono ht, he.strong,
      rel_weaken he.value fun hd => hd.mono ht⟩
  | _ => exact he

namespace Search

variable {h : Heap} {options : Options} {asked : Request → Prop} {given : Identity → Prop}
  {s s' : State} {held : List Value}

/-! ## Each reference once -/

/-- What is recorded is remembered, and is recorded once. -/
structure Distinct (options : Options) (s : State) : Prop where
  recorded : ∀ e ∈ s.edges.toList, s.hasRecorded e = true
  nodup : (s.edges.toList.map Edge.key).Nodup
  primitives : ∀ e ∈ s.edges.toList, e.child.node? = none → options.recordPrimitives = true

theorem Distinct.init : Distinct options {} where
  recorded := by simp
  nodup := .nil
  primitives := by simp

theorem Distinct.congr (hd : Distinct options s) (hedges : s'.edges = s.edges)
    (hrecorded : s'.recorded = s.recorded) : Distinct options s' where
  recorded e he := by
    rw [State.hasRecorded, hrecorded]
    exact hd.recorded e (hedges ▸ he)
  nodup := hedges ▸ hd.nodup
  primitives := hedges ▸ hd.primitives

theorem Distinct.of_records (hd : Distinct options s) (hr : s'.records = s.records) :
    Distinct options s' :=
  hd.congr (eq_of_view State.records State.edges (fun _ => rfl) hr)
    (eq_of_view State.records State.recorded (fun _ => rfl) hr)

theorem Distinct.record (hd : Distinct options s) {e : Edge} (hnew : s.hasRecorded e = false)
    (hprim : e.child.node? = none → options.recordPrimitives = true) :
    Distinct options (s.record e) := by
  have hedges : (s.record e).edges.toList = s.edges.toList ++ [e] := Array.toList_push
  refine ⟨fun d hd' => ?_, ?_, fun d hd' => ?_⟩
  · show (s.recorded.insert e.key).contains d.key = true
    rw [Std.HashSet.contains_insert, Bool.or_eq_true, beq_iff_eq]
    rw [hedges, List.mem_append, List.mem_singleton] at hd'
    rcases hd' with hd' | rfl
    · exact .inr (hd.recorded d hd')
    · exact .inl rfl
  · rw [hedges, List.map_append]
    refine hd.nodup.append (List.nodup_singleton _) fun key hkey hkey' => ?_
    obtain ⟨d, hd', rfl⟩ := List.mem_map.mp hkey
    have hsame : d.key = e.key := List.mem_singleton.mp hkey'
    have hold : s.recorded.contains d.key = true := hd.recorded d hd'
    rw [hsame] at hold
    exact Bool.false_ne_true (hnew.symm.trans hold)
  · rw [hedges, List.mem_append, List.mem_singleton] at hd'
    rcases hd' with hd' | rfl
    · exact hd.primitives d hd'
    · exact hprim

theorem Move.distinct (hm : Move h options asked given s s') (hd : Distinct options s) :
    Distinct options s' := by
  cases hm with
  | discover hd' => rw [← hd'.frame]; exact hd.congr rfl rfl
  | hold => exact hd.congr rfl rfl
  | record _ _ _ _ hnew hprim => exact (hd.record hnew hprim).of_records (records_follow ..)
  | enter | note | expand => exact hd.congr rfl rfl
  | resolve => exact hd.of_records (records_resolve ..)

theorem Moves.distinct (hm : Moves h options asked given {} s) : Distinct options s :=
  hm.keep Move.distinct .init

/-! ## An entry for each that is asked for -/

/-- The entries are those that requests asked for, in order. -/
def State.Entered (s : State) (reqs : List Request) : Prop :=
  List.Forall₂ (Request.Enters s.interner) (reqs.filter (·.entryAt?.isSome)) s.entries.toList

theorem Grows.entered {reqs : List Request} (hg : Grows s s') (hentries : s'.entries = s.entries)
    (he : s.Entered reqs) : s'.Entered reqs := by
  unfold State.Entered
  rw [hentries]
  exact he.imp fun _ _ hc => hc.mono hg.names

/-- Without requests for entries none are recorded. -/
theorem Moves.entries_eq (hno : ∀ req, asked req → req.entryAt? = none)
    (hm : Moves h options asked given s s') : s'.entries = s.entries := by
  refine hm.keep (I := fun t => t.entries = s.entries) (fun {t t'} hm ht => ?_) rfl
  cases hm with
  | discover hd => rw [← hd.frame]; exact ht
  | hold | note | expand => exact ht
  | record =>
    exact (eq_of_view State.records State.entries (fun _ => rfl) (records_follow ..)).trans ht
  | enter hreq => cases hno _ hreq
  | resolve =>
    exact (eq_of_view State.records State.entries (fun _ => rfl) (records_resolve ..)).trans ht

theorem wp_addEdge_entries (hi : Indexed h s) (parent : ObjectRef) (kind : EdgeKind)
    (child : Value) (strength : Strength) :
    WP (addEdge h options parent kind child strength) True s fun _ s' =>
      Indexed h s' ∧ Grows s s' ∧ s'.entries = s.entries := by
  have hspec : WP (addEdge h options parent kind child strength) True s fun _ s' =>
      Moves h options (· = .edge parent kind child strength) (fun _ => False) s s' ∧ _ :=
    addEdge_spec hi rfl .edge (.inr trivial) (.inr trivial) (.inr trivial)
  refine hspec.mono ?_
  rintro _ s' ⟨hm, -⟩
  exact ⟨hm.indexed hi, hm.grows, hm.entries_eq fun req hreq => by rw [hreq]; rfl⟩

theorem describeValue_denotes (hi : Indexed h s) (value? : Option (Value × Strength)) :
    WP (describeValue h value?) True s fun e? s' =>
      Discovers s s' ∧ Indexed h s' ∧ Option.Rel s'.interner.Denotes (value?.map Prod.fst) e? := by
  unfold describeValue
  cases value? with
  | none => exact .pure ⟨.refl s, hi, .none⟩
  | some vs =>
    refine .map ((describe_spec hi (.inr trivial)).mono ?_)
    rintro e s' ⟨hd, hi', hden⟩
    exact ⟨hd, hi', .some hden⟩

theorem wp_addEntry_entered (hi : Indexed h s) {reqs : List Request} (hs : s.Entered reqs)
    (collection : ObjectRef) (i : Nat) (key : Value) (keyStrength : Strength)
    (value? : Option (Value × Strength)) :
    WP (addEntry h options collection i key keyStrength value?) True s fun _ s' =>
      s'.Entered (reqs ++ [.entry collection i key keyStrength value?]) := by
  rw [addEntry_eq]
  refine .bind ((discover_spec hi (.inr trivial)).mono ?_)
  rintro collectionId s₁ ⟨hd₁, hi₁, hid₁, -⟩
  refine .bind ((describe_spec hi₁ (.inr trivial)).mono ?_)
  rintro keyEnd s₂ ⟨hd₂, hi₂, hkey⟩
  refine .bind ((describeValue_denotes hi₂ value?).mono ?_)
  rintro valueEnd? s₃ ⟨hd₃, hi₃, hvalue⟩
  unfold freshEdge
  refine .bind (.modifyGet (.bind (.modify ?_)))
  let c : CollectionEntry :=
    ⟨s₃.nextEdge, collectionId, i, keyEnd, keyStrength == .strong, valueEnd?⟩
  let s₄ : State := { s₃ with nextEdge := s₃.nextEdge + 1, entries := s₃.entries.push c }
  have hi₄ : Indexed h s₄ := hi₃.congr rfl
  have hd := hd₁.trans (hd₂.trans hd₃)
  have hc : (Request.entry collection i key keyStrength value?).Enters s₄.interner c :=
    ⟨⟨_, rfl, (hd₂.trans hd₃).ids hid₁⟩, rfl, hkey.mono hd₃.names, rfl, hvalue⟩
  have hs₄ : s₄.Entered (reqs ++ [.entry collection i key keyStrength value?]) := by
    have hs₃ : s₃.Entered reqs := hd.grows.entered (by rw [← hd.frame]; rfl) hs
    unfold State.Entered
    rw [List.filter_append]
    show List.Forall₂ _ _ (s₃.entries.push c).toList
    rw [Array.toList_push]
    exact rel_snoc hs₃ hc
  have hkept : ∀ {t t'}, Grows t t' ∧ t'.entries = t.entries →
      t.Entered (reqs ++ [.entry collection i key keyStrength value?]) →
      t'.Entered (reqs ++ [.entry collection i key keyStrength value?]) := fun hg ht =>
    hg.1.entered hg.2 ht
  refine .bind ((wp_addEdge_entries hi₄ collection (.entryKey i) key keyStrength).mono ?_)
  rintro _ s₅ ⟨hi₅, hg₅⟩
  split
  · refine (wp_addEdge_entries hi₅ collection (.entryValue i) _ _).mono ?_
    rintro _ s₆ ⟨-, hg₆⟩
    exact hkept hg₆ (hkept hg₅ hs₄)
  · exact .pure (hkept hg₅ hs₄)

theorem wp_perform_entered (hi : Indexed h s) {reqs : List Request} (hs : s.Entered reqs)
    (req : Request) :
    WP (perform h options req) True s fun _ s' => s'.Entered (reqs ++ [req]) := by
  cases hreq : req.entryAt? with
  | some at' =>
    cases req with
    | entry collection i key keyStrength value? => exact wp_addEntry_entered hi hs ..
    | edge | symbolProperty | node | noteOptions | fail => cases hreq
  | none =>
    have hspec : WP (perform h options req) True s fun _ s' =>
        Moves h options (· = req) (fun _ => False) s s' ∧ _ := perform_spec hi rfl (.inr trivial)
    refine hspec.mono ?_
    rintro _ s' ⟨hm, -⟩
    have hentries : s'.entries = s.entries := hm.entries_eq fun req' he => by rw [he, hreq]
    have hskip : (reqs ++ [req]).filter (·.entryAt?.isSome) =
        reqs.filter (·.entryAt?.isSome) := by
      rw [List.filter_append, List.filter_singleton, hreq]
      exact List.append_nil _
    unfold State.Entered
    rw [hskip]
    exact hm.grows.entered hentries hs

/-! ## What is asked for is done -/

/-- What is recorded is what the given requests asked for. -/
structure Explored (h : Heap) (given : Identity → Prop) (reqs : List Request) (s : State) :
    Prop where
  indexed : Indexed h s
  traced : Traced (· ∈ reqs) given s
  entered : s.Entered reqs

theorem Traced.mono {asked' : Request → Prop} (ht : Traced asked given s)
    (hasked : ∀ req, asked req → asked' req) : Traced asked' given s where
  edge e he := by
    obtain ⟨req, parent, kind, child, strength, hreq, hrest⟩ := ht.edge e he
    exact ⟨req, parent, kind, child, strength, hasked req hreq, hrest⟩
  held := ht.held
  recorded := ht.recorded

theorem wp_perform_explored {reqs : List Request} (hs : Explored h given reqs s) (req : Request) :
    WP (perform h options req) True s fun _ s' => Explored h given (reqs ++ [req]) s' := by
  have hspec : WP (perform h options req) True s fun _ s' =>
      Moves h options (· ∈ reqs ++ [req]) given s s' ∧ _ :=
    perform_spec hs.indexed (List.mem_append_right _ (List.mem_singleton_self req)) (.inr trivial)
  refine (hspec.and (wp_perform_entered hs.indexed hs.entered req)).mono ?_
  rintro _ s' ⟨⟨hm, -, -⟩, he⟩
  have ht : Traced (· ∈ reqs ++ [req]) given s :=
    hs.traced.mono fun _ hreq => List.mem_append_left _ hreq
  exact ⟨hm.indexed hs.indexed, hm.keep Move.traced ht, he⟩

theorem Move.explored {reqs : List Request} (hm : Move h options (fun _ => False) given s s')
    (hs : Explored h given reqs s) : Explored h given reqs s' := by
  have hentries : s'.entries = s.entries := Moves.entries_eq (fun _ => False.elim) (.single hm)
  have hasked : Move h options (· ∈ reqs) given s s' := hm.of_none
  exact ⟨hm.indexed hs.indexed, hasked.traced hs.traced, hm.grows.entered hentries hs.entered⟩

theorem tracks_explored : Tracks h options given (Explored h given) where
  init := ⟨.init h, .init, .nil⟩
  indexed hs := hs.indexed
  move hm hs := hm.explored hs
  perform req hs := wp_perform_explored hs req

/-- What a search has recorded is what the objects of its agenda asked for. -/
theorem search_explored {analyzers : AnalyzerTable} (target : Value) (held : List Value) :
    WP (search h options analyzers target held) True {} fun _ s' =>
      Explored h (Given held) (s'.agenda.toList.flatMap (requestsOf h analyzers)) s' :=
  tracks_explored.search target

end Search
end Retention
