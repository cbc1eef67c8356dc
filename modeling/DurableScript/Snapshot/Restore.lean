import DurableScript.Snapshot.Tagged

namespace DurableScript

/-- Where the objects of a snapshot come from. When `deferred`, ids are looked up on first use. -/
structure Sources where
  resolvers : List Resolver
  blobs : Table (String → Except String (HostObject Value))
  deferred : Bool

/-- What was looked up before a fault stays looked up. -/
abbrev Restoring := ExceptT FormatError (StateM Objects)

namespace Restoring

def ofExcept {α : Type} (result : Except FormatError α) : Restoring α := ExceptT.mk (pure result)

def adopt (object : HostObject Value) : Restoring Value := do
  let objects ← get
  let (ref, objects) := objects.adopt object
  set objects
  return .object ref

def handOut (resolver : Resolver) (id : String) : Restoring Value :=
  match resolver.held? id with
  | some serial => return .object (.ready serial (resolver.resolve id))
  | none => adopt (resolver.resolve id)

def reference (sources : Sources) (source : Nat) (id : String) : Restoring Value := do
  let objects ← get
  if sources.deferred then
    let (ref, objects) := objects.defer source id
    set objects
    return .object ref
  else
    match objects.ask source id with
    | none => throw (.referenceNotFound id)
    | some (resolver, objects) =>
      set objects
      handOut resolver id

def blob (sources : Sources) (typeName payload : String) : Restoring Value :=
  match Table.find? typeName sources.blobs with
  | none => throw (.unknownBlobType typeName)
  | some decode =>
    match decode payload with
    | .error message => throw (.blob typeName message)
    | .ok object => adopt object

end Restoring

namespace Tagged

mutual

def restore (sources : Sources) (source : Nat) : Tagged → Restoring Value
  | null => return .null
  | bool b => return .bool b
  | int n => return .int n
  | float x => return .float x
  | str s => return .str s
  | list items => return .list (← restoreItems sources source items)
  | record fields => return .record (← restoreFields sources source [] fields)
  | reference id => Restoring.reference sources source id
  | blob typeName payload => Restoring.blob sources typeName payload
  | fault e => throw e

def restoreItems (sources : Sources) (source : Nat) : List Tagged → Restoring (List Value)
  | [] => return []
  | item :: rest => do
    let value ← restore sources source item
    let values ← restoreItems sources source rest
    return value :: values

def restoreFields (sources : Sources) (source : Nat) (done : Table Value) :
    List (String × Tagged) → Restoring (Table Value)
  | [] => return done
  | (name, field) :: rest => do
    let value ← restore sources source field
    restoreFields sources source (Table.insert name value done) rest

end

end Tagged

end DurableScript
