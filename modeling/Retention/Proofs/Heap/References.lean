import Retention.Proofs.Heap.Discovered
import Retention.Search.Request

/-!
# The references of an object

What an object refers to, by which of its parts, and how strongly
(`Object.References`), and the entries of a collection (`Object.HasEntry`).
-/

namespace Retention

/-- The lists of reactions of a promise, with their names. -/
def PromiseSlots.reactionLists (p : PromiseSlots) : List (String × Sequence Reaction) :=
  [("[[PromiseFulfillReactions]]", p.onFulfilled), ("[[PromiseRejectReactions]]", p.onRejected)]

/-- The references of an object, by their kinds, where symbols have the nodes that
an interner gives them. Targets and tokens are referred to weakly, and so are
the keys of weak collections. The value of a WeakMap's entry is owned by the map
and the key together. All others are strong. -/
inductive Object.References (o : Object) (ref : ObjectRef) (t : Interner) :
    EdgeKind → Value → Strength → Prop where
  | prototype {p} (hp : o.prototype? = some p) :
    o.References ref t (.slot "[[Prototype]]") (.object p) .strong
  | index {p name i} (hp : p ∈ o.properties) (hk : p.key = .string name)
    (hi : arrayIndex? name = some i) : o.References ref t (.index i) p.value .strong
  | property {p name} (hp : p ∈ o.properties) (hk : p.key = .string name)
    (hi : arrayIndex? name = none) : o.References ref t (.property name) p.value .strong
  | symbolKey {p symbol} (hp : p ∈ o.properties) (hk : p.key = .symbol symbol) :
    o.References ref t .symbolKey (.symbol symbol) .strong
  | symbolValue {p symbol id} (hp : p ∈ o.properties) (hk : p.key = .symbol symbol)
    (hid : t.id? (.symbol symbol) = some id) :
    o.References ref t (.symbolValue id) p.value .strong
  | capture {name behaviour captures b} (hk : o.kind = .function name behaviour captures)
    (hb : b ∈ captures) :
    o.References ref t (.slot s!"[[Environment]].{b.name}") b.value .strong
  | boundTarget {target this args} (hk : o.kind = .boundFunction target this args) :
    o.References ref t (.slot "[[BoundTargetFunction]]") (.object target) .strong
  | boundThis {target this args} (hk : o.kind = .boundFunction target this args) :
    o.References ref t (.slot "[[BoundThis]]") this .strong
  | boundArgument {target this args a} {i : Nat} (hk : o.kind = .boundFunction target this args)
    (ha : args[i]? = some a) : o.References ref t (.slot s!"[[BoundArguments]][{i}]") a .strong
  | revocableProxy {proxy} (hk : o.kind = .proxyRevoker (some proxy)) :
    o.References ref t (.slot "[[RevocableProxy]]") (.object proxy) .strong
  | proxyTarget {target handler?} (hk : o.kind = .proxy (some target) handler?) :
    o.References ref t (.slot "[[ProxyTarget]]") (.object target) .strong
  | proxyHandler {target? handler} (hk : o.kind = .proxy target? (some handler)) :
    o.References ref t (.slot "[[ProxyHandler]]") (.object handler) .strong
  | weakRefTarget {target} (hk : o.kind = .weakRef target) :
    o.References ref t (.slot "[[WeakRefTarget]]") target .weak
  | cleanupCallback {callback cells} (hk : o.kind = .finalizationRegistry callback cells) :
    o.References ref t (.slot "[[CleanupCallback]]") (.object callback) .strong
  | cellHeldValue {callback cells c} {i : Nat} (hk : o.kind = .finalizationRegistry callback cells)
    (hc : cells.toList[i]? = some c) :
    o.References ref t (.slot s!"[[Cells]][{i}].[[HeldValue]]") c.held .strong
  | cellTarget {callback cells c} {i : Nat} (hk : o.kind = .finalizationRegistry callback cells)
    (hc : cells.toList[i]? = some c) :
    o.References ref t (.slot s!"[[Cells]][{i}].[[WeakRefTarget]]") c.target .weak
  | cellToken {callback cells c token} {i : Nat} (hk : o.kind = .finalizationRegistry callback cells)
    (hc : cells.toList[i]? = some c) (ht : c.token? = some token) :
    o.References ref t (.slot s!"[[Cells]][{i}].[[UnregisterToken]]") token .weak
  | mapKey {entries i e} (hk : o.kind = .map entries) (he : entries.toList[i]? = some e) :
    o.References ref t (.entryKey i) e.key .strong
  | mapValue {entries i e} (hk : o.kind = .map entries) (he : entries.toList[i]? = some e) :
    o.References ref t (.entryValue i) e.value .strong
  | setValue {values i v} (hk : o.kind = .set values) (hv : values.toList[i]? = some v) :
    o.References ref t (.entryKey i) v .strong
  | weakMapKey {entries i e} (hk : o.kind = .weakMap entries) (he : entries.toList[i]? = some e) :
    o.References ref t (.entryKey i) e.key .weak
  | weakMapValue {entries i e} (hk : o.kind = .weakMap entries)
    (he : entries.toList[i]? = some e) :
    o.References ref t (.entryValue i) e.value (.joint [.object ref, e.key])
  | weakSetValue {values i v} (hk : o.kind = .weakSet values) (hv : values.toList[i]? = some v) :
    o.References ref t (.entryKey i) v .weak
  | promiseResult {p} (hk : o.kind = .promise p) :
    o.References ref t (.slot "[[PromiseResult]]") p.result .strong
  | reactionHandler {p list rs r f} {i : Nat} (hk : o.kind = .promise p)
    (hl : (list, rs) ∈ p.reactionLists) (hr : rs.toList[i]? = some r)
    (hf : r.handler? = some f) :
    o.References ref t (.slot s!"{list}[{i}].[[Handler]]") (.object f) .strong
  | derivedPromise {p list rs r q} {i : Nat} (hk : o.kind = .promise p)
    (hl : (list, rs) ∈ p.reactionLists) (hr : rs.toList[i]? = some r)
    (hq : r.derived? = some q) :
    o.References ref t (.slot s!"{list}[{i}].[[Capability]]") (.object q) .strong

/-- The entries of a collection by their positions: the key, whether it is held
strongly, and the value, which sets have none of. -/
inductive Object.HasEntry (o : Object) : Nat → Value → Bool → Option Value → Prop where
  | map {entries i e} (hk : o.kind = .map entries) (he : entries.toList[i]? = some e) :
    o.HasEntry i e.key true (some e.value)
  | set {values i v} (hk : o.kind = .set values) (hv : values.toList[i]? = some v) :
    o.HasEntry i v true none
  | weakMap {entries i e} (hk : o.kind = .weakMap entries) (he : entries.toList[i]? = some e) :
    o.HasEntry i e.key false (some e.value)
  | weakSet {values i v} (hk : o.kind = .weakSet values) (hv : values.toList[i]? = some v) :
    o.HasEntry i v false none

/-- An object has one entry at a position. -/
theorem Object.HasEntry.unique {o : Object} {i : Nat} {key key' : Value} {strong strong' : Bool}
    {value? value?' : Option Value} (h : o.HasEntry i key strong value?)
    (h' : o.HasEntry i key' strong' value?') :
    key = key' ∧ strong = strong' ∧ value? = value?' := by
  cases h <;> cases h' <;> simp_all

end Retention
