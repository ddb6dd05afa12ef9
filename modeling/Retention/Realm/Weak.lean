import Retention.Realm.Collection

/-!
# Weak references and finalization registries

* `Realm.newWeakRef`, `Realm.deref`: weak references. Nothing is collected
  while a realm is alive, so a weak reference always has its target.
* `Realm.newRegistry`, `Realm.register`, `Realm.unregister`: finalization
  registries, whose cells are the registrations not yet undone.
-/

namespace Retention.Realm

/-- A new weak reference. -/
def newWeakRef (target : Value) : RealmM ObjectRef := do
  requireWeaklyHoldable target "WeakRef target"
  allocOf .weakRef (.weakRef target)

/-- The target of a weak reference. -/
def deref (ref : ObjectRef) : RealmM Value := do
  match ← kind ref with
  | .weakRef target => return target
  | _ => throwTypeError "receiver is not a WeakRef"

/-- A new finalization registry. -/
def newRegistry (callback : Value) : RealmM ObjectRef := do
  match (← getThe Realm).heap.callable? callback with
  | some callback => allocOf .finalizationRegistry (.finalizationRegistry callback {})
  | none => throwTypeError "cleanup callback must be callable"

/-- The cleanup callback and the cells of a finalization registry. -/
def registryOf (ref : ObjectRef) : RealmM (ObjectRef × Sequence Cell) := do
  match ← kind ref with
  | .finalizationRegistry callback cells => return (callback, cells)
  | _ => throwTypeError "receiver is not a FinalizationRegistry"

/-- Registers a target. A token of `undefined` is no token. -/
def register (ref : ObjectRef) (target held : Value) (token? : Option Value) : RealmM Unit := do
  let (callback, cells) ← registryOf ref
  requireWeaklyHoldable target "registration target"
  if target.sameValue held then
    throwTypeError "target and held value must not be the same"
  let token? := token?.filter (· != .undefined)
  if let some token := token? then requireWeaklyHoldable token "unregister token"
  setKind ref (.finalizationRegistry callback (cells.push { target, held, token? }))

/-- Undoes the registrations made with a token, and tells whether there were any. -/
def unregister (ref : ObjectRef) (token : Value) : RealmM Bool := do
  let (callback, cells) ← registryOf ref
  requireWeaklyHoldable token "unregister token"
  let remaining := cells.filter fun cell => !cell.token?.any (·.sameValue token)
  setKind ref (.finalizationRegistry callback remaining)
  return remaining.size != cells.size

end Retention.Realm
