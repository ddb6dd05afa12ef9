import Retention.Graph.Json

/-!
# Published results

The searches of a run under the names that the guest gave them, in call order.
A search that did not reach its target is published without its graph.
-/

namespace Retention

/-- A finished search, not yet published. -/
structure SearchRecord where
  name : String
  graph : Graph
deriving DecidableEq, Repr, Inhabited

/-- The graph of a search that reached its target. -/
def SearchRecord.published? (r : SearchRecord) : Option Graph :=
  if r.graph.succeeded then some r.graph else none

/-- The results of a run. -/
structure SearchResults where
  entries : List (String × Option Graph)
deriving DecidableEq, Repr, Inhabited

namespace SearchResults

def ofRecords (records : List SearchRecord) : SearchResults :=
  ⟨records.map fun r => (r.name, r.published?)⟩

def names (rs : SearchResults) : List String := rs.entries.map Prod.fst

def size (rs : SearchResults) : Nat := rs.entries.length

/-- Whether a search of the given name ran. -/
def contains (rs : SearchResults) (name : String) : Bool := rs.names.contains name

/-- The graph of the search of the given name, if it reached its target. -/
def get? (rs : SearchResults) (name : String) : Option Graph :=
  (rs.entries.find? (·.1 == name)).bind Prod.snd

/-- The written form: a record from names to graphs, null for a search that did
not reach its target. -/
def json (rs : SearchResults) : String :=
  (Json.record (rs.entries.map fun (name, graph?) =>
    (name, graph?.elim Json.null Graph.toJson))).pretty

theorem names_ofRecords (records : List SearchRecord) :
    (ofRecords records).names = records.map SearchRecord.name := by
  simp [ofRecords, names]

end SearchResults
end Retention
