import Retention.Proofs.Realm.Collections
import Retention.Realm.Function

/-!
# Weak references, proxies and bound functions

What a weak reference or a cell of a registry holds can be held weakly, a proxy
has its target and its handler or neither, and a bound function calls what can
be called.

* `Keeps.newWeakRef`, `Keeps.register`, `Keeps.unregister`: what is held weakly.
* `Keeps.newProxy`, `Keeps.revoke`: proxies.
* `Keeps.bind`: bound functions.
-/

namespace Retention

variable {h : Heap}

theorem Heap.callable?_eq_some_iff {v : Value} {ref : ObjectRef} :
    h.callable? v = some ref ↔ v = .object ref ∧ h.isCallable v = true := by
  unfold callable?
  split
  · rename_i hc
    obtain ⟨ref', o, rfl, -⟩ := isCallable_iff.mp hc
    simp [Value.object?, hc]
  · simp [*]

/-- The slots of a registry say what its callback and its cells say. -/
theorem ObjectKind.consistent_finalizationRegistry_iff (callback : ObjectRef)
    (cells : Sequence Cell) :
    (finalizationRegistry callback cells).Consistent h ↔
      h.isCallable (.object callback) = true ∧
        ∀ c ∈ cells.toList, c.Checked h ∧ h.isValid c.held = true := by
  constructor
  · refine fun hk => ⟨hk.checked.1, fun c hc => ⟨hk.checked.2 c hc, hk.valid _ ?_⟩⟩
    exact List.mem_cons_of_mem _ (List.mem_flatMap.mpr ⟨c, hc, List.mem_cons_self⟩)
  · rintro ⟨hcallback, hcells⟩
    refine ⟨fun v hv => ?_, hcallback, fun c hc => (hcells c hc).1⟩
    rcases List.mem_cons.mp hv with rfl | hv
    · exact Heap.isValid_of_isCallable hcallback
    · obtain ⟨c, hc, hv⟩ := List.mem_flatMap.mp hv
      obtain ⟨hchecked, hheld⟩ := hcells c hc
      rcases List.mem_cons.mp hv with rfl | hv
      · exact hheld
      · rcases List.mem_cons.mp hv with rfl | hv
        · exact Heap.isValid_of_canBeHeldWeakly hchecked.target
        · exact Heap.isValid_of_canBeHeldWeakly (hchecked.token v (Option.mem_toList.mp hv))

namespace Realm.Keeps

variable {r : Realm} {ref : ObjectRef} {target held this : Value} (hr : r.Consistent)

include hr

/-! ## Weak references and registries -/

theorem newWeakRef (target : Value) :
    Keeps (newWeakRef target) r fun ref r' => r'.heap.isValid (.object ref) = true := by
  refine (requireWeaklyHoldable hr target _).bind ?_
  rintro _ _ - - ⟨rfl, hheld⟩
  refine (allocOf hr (k := .weakRef target) ⟨fun v hv => ?_, hheld⟩).mono fun _ _ _ _ ho =>
    Heap.isValid_object_iff.mpr ⟨_, ho⟩
  rw [List.mem_singleton.mp hv]
  exact Heap.isValid_of_canBeHeldWeakly hheld

theorem deref (ref : ObjectRef) :
    Keeps (deref ref) r fun v r' => r'.heap.isValid v = true := by
  refine (kind hr ref).bind ?_
  rintro k _ - - ⟨rfl, o, ho, rfl⟩
  split
  · rename_i target hk
    have hvalid := (hr.heap.objects ho).kind.valid
    rw [hk] at hvalid
    exact pure hr (hvalid target (List.mem_singleton_self target))
  · exact throwTypeError hr _

theorem newRegistry (callback : Value) :
    Keeps (newRegistry callback) r fun ref r' => r'.heap.isValid (.object ref) = true := by
  refine (getThe hr).bind ?_
  rintro _ r - - ⟨rfl, rfl⟩
  split
  · rename_i f hf
    obtain ⟨rfl, hc⟩ := Heap.callable?_eq_some_iff.mp hf
    have hk : (ObjectKind.finalizationRegistry f {}).Consistent r.heap :=
      (ObjectKind.consistent_finalizationRegistry_iff f {}).mpr
        ⟨hc, fun _ hmem => absurd hmem List.not_mem_nil⟩
    exact (allocOf hr hk).mono fun _ _ _ _ ho => Heap.isValid_object_iff.mpr ⟨_, ho⟩
  · exact throwTypeError hr _

/-- The callback and the cells that were read, and where they can be written back. -/
theorem registryOf (ref : ObjectRef) :
    Keeps (registryOf ref) r fun registry r' => r' = r ∧
      r.heap.builtin? ref = some .finalizationRegistry ∧
      r.heap.isCallable (.object registry.1) = true ∧
      ∀ c ∈ registry.2.toList, c.Checked r.heap ∧ r.heap.isValid c.held = true := by
  refine (kind hr ref).bind ?_
  rintro k _ - - ⟨rfl, o, ho, rfl⟩
  split
  · rename_i callback cells hk
    have hregistry := (hr.heap.objects ho).kind
    have hb := Heap.builtin?_of_object ho
    rw [hk] at hregistry hb
    exact pure hr
      ⟨rfl, hb, (ObjectKind.consistent_finalizationRegistry_iff callback cells).mp hregistry⟩
  · exact throwTypeError hr _

theorem register {token? : Option Value} (hheld : r.heap.isValid held = true) :
    Keeps (register ref target held token?) r fun _ _ => True := by
  unfold Realm.register
  refine (registryOf hr ref).bind ?_
  rintro ⟨callback, cells⟩ _ - - ⟨rfl, hb, hcallback, hcells⟩
  refine (requireWeaklyHoldable hr target _).bind ?_
  rintro _ r - - ⟨rfl, htarget⟩
  -- the cell is written once its token, if there is one, is known to be holdable
  have hwrite : ∀ token? : Option Value, target.sameValue held = false →
      (∀ token ∈ token?, r.heap.canBeHeldWeakly token = true) →
      Keeps (Realm.setKind ref (.finalizationRegistry callback
        (cells.push { target, held, token? }))) r fun _ _ => True := by
    intro token? hne htoken
    refine setKind hr hb ((ObjectKind.consistent_finalizationRegistry_iff _ _).mpr
      ⟨hcallback, fun c hc => ?_⟩)
    rw [Sequence.toList_push, List.mem_append, List.mem_singleton] at hc
    rcases hc with hc | rfl
    · exact hcells c hc
    · exact ⟨⟨htarget, htoken, hne⟩, hheld⟩
  split
  · exact (throwTypeError hr (Q := fun _ _ => False) _).bind fun _ _ _ _ hfalse => hfalse.elim
  · rename_i hne
    dsimp only
    split
    · rename_i token htoken
      refine (requireWeaklyHoldable hr token _).bind ?_
      rintro _ _ - - ⟨rfl, hholdable⟩
      refine hwrite _ (by simpa using hne) fun token' htoken' => ?_
      rw [htoken] at htoken'
      exact Option.some.inj htoken' ▸ hholdable
    · rename_i hnone
      exact hwrite _ (by simpa using hne) fun token htoken => (hnone token htoken).elim

theorem unregister (ref : ObjectRef) (token : Value) :
    Keeps (unregister ref token) r fun _ _ => True := by
  refine (registryOf hr ref).bind ?_
  rintro ⟨callback, cells⟩ _ - - ⟨rfl, hb, hcallback, hcells⟩
  refine (requireWeaklyHoldable hr token _).bind ?_
  rintro _ _ - - ⟨rfl, -⟩
  refine (setKind hr hb ((ObjectKind.consistent_finalizationRegistry_iff _ _).mpr
    ⟨hcallback, fun c hc => ?_⟩)).bind fun _ _ _ hr' _ => pure hr' trivial
  rw [Sequence.toList_filter] at hc
  exact hcells c (List.mem_filter.mp hc |>.1)

/-! ## Proxies and bound functions -/

theorem newProxy {handler : Value} (ht : r.heap.isValid target = true)
    (hh : r.heap.isValid handler = true) :
    Keeps (newProxy target handler) r fun pair r' =>
      r'.heap.isValid (.object pair.1) = true ∧ r'.heap.isValid (.object pair.2) = true := by
  unfold Realm.newProxy
  split
  · rename_i target handler
    refine (alloc hr (fun _ hp => absurd hp (Option.not_mem_none _))
      (k := .proxy (some target) (some handler)) ⟨fun v hv => ?_, rfl⟩).bind
      fun proxy r' _ hr' hproxy => ?_
    · rcases List.mem_cons.mp hv with rfl | hv
      · exact ht
      · rw [List.mem_singleton.mp hv]
        exact hh
    have hb := Heap.builtin?_of_object hproxy
    refine (allocOf hr' (k := .proxyRevoker (some proxy)) ⟨fun v hv => ?_, fun p hp => ?_⟩).bind
      fun revoker r'' hext hr'' hrevoker => pure hr'' ⟨hext.isValid (Heap.isValid_of_builtin? hb),
        Heap.isValid_object_iff.mpr ⟨_, hrevoker⟩⟩
    · rw [List.mem_singleton.mp hv]
      exact Heap.isValid_of_builtin? hb
    · exact Option.some.inj hp ▸ hb
  · exact throwTypeError hr _

theorem proxyTarget? (ref : ObjectRef) :
    Keeps (proxyTarget? ref) r fun target? r' =>
      ∀ target ∈ target?, r'.heap.isValid (.object target) = true := by
  refine (kind hr ref).bind ?_
  rintro k _ - - ⟨rfl, o, ho, rfl⟩
  split
  · rename_i target? handler? hk
    have hvalid := (hr.heap.objects ho).kind.valid
    rw [hk] at hvalid
    refine pure hr fun target htarget => hvalid _ (List.mem_map_of_mem ?_)
    exact List.mem_append_left _ (Option.mem_toList.mpr htarget)
  · exact throwTypeError hr _

theorem revoke (revoker : ObjectRef) : Keeps (revoke revoker) r fun _ _ => True := by
  refine (kind hr revoker).bind ?_
  rintro k _ - - ⟨rfl, o, ho, rfl⟩
  have hb := Heap.builtin?_of_object ho
  split
  · rename_i proxy? hk
    rw [hk] at hb
    refine (setKind hr (k := .proxyRevoker none) hb ⟨nofun, nofun⟩).bind fun _ r' _ hr' _ => ?_
    split
    · refine (kind hr' _).bind ?_
      rintro k _ - - ⟨rfl, o', ho', rfl⟩
      have hb' := Heap.builtin?_of_object ho'
      split
      · rename_i hk'
        rw [hk'] at hb'
        exact setKind hr' (k := .proxy none none) hb' ⟨nofun, rfl⟩
      · exact pure hr' trivial
    · exact pure hr' trivial
  · exact throw hr trivial

theorem bindFunction {args : List Value} (hthis : r.heap.isValid this = true)
    (hargs : ∀ v ∈ args, r.heap.isValid v = true) :
    Keeps (Realm.bind target this args) r fun ref r' => r'.heap.isValid (.object ref) = true := by
  unfold Realm.bind
  refine (getThe hr).bind ?_
  rintro _ _ - - ⟨rfl, rfl⟩
  split
  · rename_i f hf
    obtain ⟨rfl, hc⟩ := Heap.callable?_eq_some_iff.mp hf
    refine (readObject hr f Object.prototype?).bind ?_
    rintro _ _ - - ⟨rfl, o, ho, rfl⟩
    refine (alloc hr (hr.heap.objects ho).prototype (k := .boundFunction f this args)
      ⟨fun v hv => ?_, hc⟩).mono fun _ _ _ _ ho => Heap.isValid_object_iff.mpr ⟨_, ho⟩
    rcases List.mem_cons.mp hv with rfl | hv
    · exact Heap.isValid_of_isCallable hc
    · rcases List.mem_cons.mp hv with rfl | hv
      · exact hthis
      · exact hargs v hv
  · exact throwTypeError hr _

end Realm.Keeps
end Retention
