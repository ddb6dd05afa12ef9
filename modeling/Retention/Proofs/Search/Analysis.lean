import Retention.Proofs.Search.Step

/-!
# Analyzers that go by what they are answered

An analyzer need not know its requests beforehand. It may look at the options of
the search, use the id of a node that it asked for, and go on although a request
failed (`Analysis`). A search with analyzers that list their requests is one with
analyzers of this kind (`search_eq_searchBy`).
-/

namespace Retention

/-- What an analyzer does with an object: one request after another, each of
them chosen by how those before it went. -/
inductive Analysis where
  | done
  | fail (cause : Abrupt)
  /-- Make a request, and go on from the node that it is answered with, if any,
  or from the cause of its failure. -/
  | ask (req : Request) (next : Except Abrupt (Option NodeId) → Analysis)

/-- Analyzers by the kind of object they read; kinds may have none. -/
abbrev Registry := BuiltinKind → Option (Search.Options → Heap → ObjectRef → Analysis)

/-- Makes requests in order, as long as none fails. -/
def Analysis.ofRequests : List Request → Analysis
  | [] => done
  | req :: rest => ask req fun
    | .ok _ => ofRequests rest
    | .error cause => fail cause

/-- Analyzers that list their requests beforehand. -/
def Registry.ofTable (analyzers : AnalyzerTable) : Registry := fun kind =>
  (analyzers kind).map fun analyze _ h ref => .ofRequests (analyze h ref)

namespace Search

/-- What a request does and what it is answered with: the id of a node asked for. -/
def answer (h : Heap) (options : Options) : Request → Step (Option NodeId)
  | .node value => some <$> nodeFor h value
  | req => do
    perform h options req
    return none

/-- How a step goes. What it did before it failed stays done. -/
def attempt {α : Type} (m : Step α) : Step (Except Abrupt α) := ExceptT.mk (Except.ok <$> m.run)

/-- What an analyzer does to a search. -/
def analyze (h : Heap) (options : Options) : Analysis → Step Unit
  | .done => pure ()
  | .fail cause => throw cause
  | .ask req next => do analyze h options (next (← attempt (answer h options req)))

/-- Records the references of an object: those that its analyzer asks for, then
its prototype and properties. -/
def expandBy (h : Heap) (options : Options) (registry : Registry) (ref : ObjectRef) :
    Step Unit := do
  let o ← h.object ref
  match registry o.kind.builtin with
  | some inspect => analyze h options (inspect options h ref)
  | none => pure ()
  (ownRequests ref o).forM (perform h options)

/-- Expands objects of the agenda, at most `steps` of them. -/
def expandAll (expand : ObjectRef → Step Unit) : Nat → Step Unit
  | 0 => pure ()
  | steps + 1 => do
    let s ← get
    match s.agenda[s.expanded]? with
    | none => pure ()
    | some ref =>
      modify fun s => { s with expanded := s.expanded + 1 }
      expand ref
      modify State.drain
      expandAll expand steps

/-- A whole search with analyzers of any kind. It may expand as many objects as the
heap has slots, which are as many as it can discover (`expandAll_of_size_le`). -/
def searchBy (h : Heap) (options : Options) (registry : Registry) (target : Value)
    (held : List Value) : Step Graph := do
  held.forM (hold h)
  let targetId ← register h (← identity target)
  modify State.drain
  expandAll (expandBy h options registry) h.size
  return (← get).graph targetId

/-! ## Lists of requests -/

variable {h : Heap} {options : Options}

theorem exec_attempt {α : Type} (m : Step α) (s : State) :
    exec (attempt m) s = (.ok (exec m s).1, (exec m s).2) := rfl

theorem step_ext {α : Type} {m n : Step α} (hexec : ∀ s, exec m s = exec n s) : m = n :=
  funext hexec

/-- A request does what it does, whatever it is answered with. -/
theorem exec_perform (req : Request) (s : State) :
    exec (perform h options req) s =
      ((exec (answer h options req) s).1.map fun _ => (), (exec (answer h options req) s).2) := by
  have hdiscard : perform h options req = (fun _ => ()) <$> answer h options req := by
    cases req with
    | node value => simp only [perform, answer, discard, Functor.discard, Functor.map_map]; rfl
    | _ => simp only [answer, map_bind, map_pure, bind_pure_unit]
  rw [hdiscard, exec_map]

/-- An analyzer that lists its requests makes them in order. -/
theorem analyze_ofRequests (reqs : List Request) :
    analyze h options (.ofRequests reqs) = reqs.forM (perform h options) := by
  induction reqs with
  | nil => rfl
  | cons req rest ih =>
    refine step_ext fun s => ?_
    show exec (analyze h options (.ofRequests (req :: rest))) s =
      exec (perform h options req >>= fun _ => rest.forM (perform h options)) s
    rw [exec_bind, exec_perform, Analysis.ofRequests, analyze, exec_bind, exec_attempt]
    rcases exec (answer h options req) s with ⟨cause | id, s'⟩
    · rfl
    · exact congrArg (exec · s') ih

theorem expandBy_ofTable (analyzers : AnalyzerTable) :
    expandBy h options (.ofTable analyzers) = expand h options analyzers := by
  refine funext fun ref => step_ext fun s => ?_
  rw [expandBy, expand, exec_bind, exec_bind, exec_lift, exec_lift]
  cases ho : h.object ref with
  | error cause =>
    rw [requestsFor, ho]
    rfl
  | ok o =>
    cases ha : analyzers o.kind.builtin with
    | none =>
      have hreqs : requestsFor h analyzers ref = .ok (ownRequests ref o) := by
        rw [requestsFor, ho]
        simp only [bind, Except.bind, pure, Except.pure, ha, List.nil_append]
      rw [hreqs]
      simp only [Registry.ofTable, ha, Option.map_none]
    | some inspect =>
      have hreqs : requestsFor h analyzers ref = .ok (inspect h ref ++ ownRequests ref o) := by
        rw [requestsFor, ho]
        simp only [bind, Except.bind, pure, Except.pure, ha]
      rw [hreqs]
      simp only [Registry.ofTable, ha, Option.map_some, analyze_ofRequests]
      exact congrArg (exec · s) List.forM_append.symm

theorem expandWithin_eq_expandAll (analyzers : AnalyzerTable) (steps : Nat) :
    expandWithin h options analyzers steps = expandAll (expand h options analyzers) steps := by
  induction steps with
  | zero => rfl
  | succ steps ih =>
    rw [expandWithin, ih]
    rfl

/-- A search with analyzers that list their requests is one with analyzers of
any kind. -/
theorem search_eq_searchBy (analyzers : AnalyzerTable) (target : Value) (held : List Value) :
    search h options analyzers target held =
      searchBy h options (.ofTable analyzers) target held := by
  rw [search, searchBy, expandBy_ofTable, expandWithin_eq_expandAll]

end Search
end Retention
