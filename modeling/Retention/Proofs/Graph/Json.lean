import Retention.Graph.Json
import Retention.Proofs.Json

/-!
# Graphs and their written forms

The written form of a graph determines it: no two graphs are written in the same
way, whatever ids, names, texts, owners and values they have.

* `EdgeKind.fields_append_inj`: the fields that tell the kind of a reference can be
  told apart from those behind them.
* `Edge.toJson_inj`, `CollectionEntry.toJson_inj`: references and entries, with
  fields that can be left out.
* `Graph.toJson_inj`, `Graph.json_inj`: graphs of the same written form are the same.
-/

namespace Retention

namespace NodeId

theorem toList_text (id : NodeId) :
    id.text.toList = id.kind.label.toList ++ ':' :: Nat.toDigits 10 id.index := by
  have htext : id.text = id.kind.label ++ ":" ++ toString id.index := rfl
  rw [htext, String.toList_append, String.toList_append, toList_toString, List.append_assoc]
  rfl

theorem text_inj {id id' : NodeId} : id.text = id'.text ↔ id = id' := by
  refine ⟨fun h => ?_, congrArg text⟩
  have hlist := congrArg String.toList h
  obtain ⟨kind, index⟩ := id
  obtain ⟨kind', index'⟩ := id'
  rw [toList_text, toList_text] at hlist
  cases kind <;> cases kind' <;> simp [NodeKind.label] at hlist
  · rw [toDigits_injective hlist]
  · rw [toDigits_injective hlist]

@[simp] theorem toJson_inj {id id' : NodeId} : id.toJson = id'.toJson ↔ id = id' := by
  rw [toJson, toJson, Json.text.injEq, text_inj]

end NodeId

@[simp] theorem Endpoint.toJson_inj {e e' : Endpoint} : e.toJson = e'.toJson ↔ e = e' := by
  cases e <;> cases e' <;> simp [toJson]

/-- The type says which fields follow. -/
theorem EdgeKind.fields_append_inj {k k' : EdgeKind} {r s : List (String × Json)} :
    k.fields ++ r = k'.fields ++ s ↔ k = k' ∧ r = s := by
  cases k <;> cases k' <;> simp [fields]

/-- Lists of items that can be told apart can be told apart. -/
theorem list_map_inj {α : Type} {toJson : α → Json} (h : ∀ a b, toJson a = toJson b ↔ a = b)
    {items items' : List α} :
    Json.list (items.map toJson) = Json.list (items'.map toJson) ↔ items = items' := by
  rw [Json.list.injEq]
  exact List.map_inj_right fun a b => (h a b).mp

/-- Owners are left out only where there are none. -/
theorem Edge.ownersField_inj {e e' : Edge} :
    ((if e.isJoint then [("jointOwnerIds", Json.list (e.owners.map NodeId.toJson))] else []) =
      if e'.isJoint then [("jointOwnerIds", Json.list (e'.owners.map NodeId.toJson))] else []) ↔
      e.owners = e'.owners := by
  rw [isJoint, isJoint]
  cases hnone : e.owners <;> cases hnone' : e'.owners <;>
    simp only [List.isEmpty_nil, List.isEmpty_cons, Bool.not_true, Bool.not_false, reduceIte,
      Bool.false_eq_true, reduceCtorEq, List.cons.injEq, Prod.mk.injEq, true_and, and_true,
      list_map_inj fun _ _ => NodeId.toJson_inj]

theorem Edge.toJson_inj {e e' : Edge} : e.toJson = e'.toJson ↔ e = e' := by
  have hfields (e : Edge) : e.toJson = .record
      (("edgeId", .number e.id) :: ("parentId", e.parent.toJson) :: ("child", e.child.toJson) ::
        (e.kind.fields ++ ("isStrongOwningReference", .bool e.strong) ::
          if e.isJoint then [("jointOwnerIds", .list (e.owners.map NodeId.toJson))] else [])) := by
    simp only [toJson, List.append_assoc, List.cons_append, List.nil_append]
  rw [hfields, hfields, Json.record.injEq]
  simp only [List.cons.injEq, Prod.mk.injEq, true_and, Json.number.injEq, Json.bool.injEq,
    NodeId.toJson_inj, Endpoint.toJson_inj, EdgeKind.fields_append_inj, ownersField_inj]
  cases e
  cases e'
  simp only [mk.injEq]

theorem Confirmation.toJson_inj {c c' : Confirmation} : c.toJson = c'.toJson ↔ c = c' := by
  obtain ⟨child, owners, edge, strong⟩ := c
  obtain ⟨child', owners', edge', strong'⟩ := c'
  simp [toJson, -Json.list.injEq, list_map_inj fun _ _ => NodeId.toJson_inj]

theorem CollectionEntry.toJson_inj {e e' : CollectionEntry} : e.toJson = e'.toJson ↔ e = e' := by
  obtain ⟨id, collection, entry, key, strong, value?⟩ := e
  obtain ⟨id', collection', entry', key', strong', value?'⟩ := e'
  cases value? <;> cases value?' <;> simp [toJson]

theorem GraphNode.toJson_inj {n n' : GraphNode} : n.toJson = n'.toJson ↔ n = n' := by
  obtain ⟨id, builtin, held⟩ := n
  obtain ⟨id', builtin', held'⟩ := n'
  simp [toJson]

namespace Graph

theorem toJson_inj {g g' : Graph} : g.toJson = g'.toJson ↔ g = g' := by
  obtain ⟨target, nodes, edges, confirmations, entries, succeeded⟩ := g
  obtain ⟨target', nodes', edges', confirmations', entries', succeeded'⟩ := g'
  simp [toJson, -Json.list.injEq, list_map_inj fun _ _ => GraphNode.toJson_inj,
    list_map_inj fun _ _ => Edge.toJson_inj,
    list_map_inj fun _ _ => Confirmation.toJson_inj,
    list_map_inj fun _ _ => CollectionEntry.toJson_inj]

/-- The written form of a graph loses nothing: graphs of the same written form are the
same. It does not matter how documents are laid out and texts escaped, as long as
different texts are escaped in different ways. -/
theorem json_inj {escape : String → List Char} {print : Json → String}
    (hescape : Json.Escaping escape) (hprint : ∀ d, Json.Written escape d (print d).toList)
    (g g' : Graph) :
    (print g.toJson = print g'.toJson ↔ g = g') ∧ (g.json = g'.json ↔ g = g') :=
  ⟨(Json.Written.inj hescape hprint).trans toJson_inj,
    (Json.Written.inj Json.escaping_escaped Json.written_pretty).trans toJson_inj⟩

/-- Two graphs with one reference, from an internal slot and from a property of the same
name, which has a quote in it. -/
theorem json_inj_quote :
    let g (kind : EdgeKind) : Graph :=
      { target := ⟨.object, 1⟩, nodes := [], confirmations := [], entries := [], succeeded := false
        edges := [⟨0, ⟨.object, 0⟩, .node ⟨.object, 1⟩, kind, true, []⟩] }
    Json.Escaping Json.escaped ∧ (∀ d, Json.Written Json.escaped d d.pretty.toList) ∧
      (g (.slot "\"")).json ≠ (g (.property "\"")).json := by
  intro g
  have hdiffer : g (.slot "\"") ≠ g (.property "\"") := by decide
  exact ⟨Json.escaping_escaped, Json.written_pretty, fun h => hdiffer
    ((json_inj Json.escaping_escaped Json.written_pretty _ _).2.mp h)⟩

end Graph
end Retention
