import Retention.Realm.Basic

/-!
# Proxies and bound functions

* `Realm.newProxy`, `Realm.revoke`: a proxy and the function that revokes it.
* `Realm.bind`: a function with a receiver and leading arguments.
-/

namespace Retention.Realm

/-- A new proxy, and the function that revokes it. -/
def newProxy (target handler : Value) : RealmM (ObjectRef × ObjectRef) := do
  match target, handler with
  | .object target, .object handler =>
    let proxy ← alloc none (.proxy (some target) (some handler))
    let revoker ← allocOf .function (.proxyRevoker (some proxy))
    return (proxy, revoker)
  | _, _ => throwTypeError "cannot create proxy with a non-object as target or handler"

/-- The target of a proxy, unless it is revoked. -/
def proxyTarget? (ref : ObjectRef) : RealmM (Option ObjectRef) := do
  match ← kind ref with
  | .proxy target? _ => return target?
  | _ => throwTypeError "receiver is not a Proxy"

/-- What calling a revoker does: it lets go of its proxy, which lets go of its
target and handler. A second call changes nothing. -/
def revoke (revoker : ObjectRef) : RealmM Unit := do
  match ← kind revoker with
  | .proxyRevoker proxy? =>
    setKind revoker (.proxyRevoker none)
    if let some proxy := proxy? then
      match ← kind proxy with
      | .proxy .. => setKind proxy (.proxy none none)
      | _ => pure ()
  | _ => throw (.broken (.wrongObjectKind "proxy revoker"))

/-- A function that calls another with a fixed receiver and leading arguments. -/
def bind (target this : Value) (args : List Value) : RealmM ObjectRef := do
  match (← getThe Realm).heap.callable? target with
  | some target =>
    let prototype? ← readHeap (·.prototype? target)
    alloc prototype? (.boundFunction target this args)
  | none => throwTypeError "bind must be called on a function"

end Retention.Realm
