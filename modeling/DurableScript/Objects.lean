import DurableScript.Value

/-!
The store of host objects: which lazy references have been looked up, and how often each source was
asked. A lazy reference is looked up once, on first use, and its copies share the answer.
-/

namespace DurableScript

/-- Finds the host object of an id. It builds one for each lookup, unless the host holds the object
already: that one keeps its serial number. -/
structure Resolver where
  supports : String → Bool
  resolve : String → HostObject Value
  held? : String → Option Nat := fun _ => none

structure ObjectSource where
  resolvers : List Resolver
  lookups : Nat

structure LazyCell where
  source : Nat
  content : Option (HostObject Value)

structure Objects where
  issued : Nat
  sources : Array ObjectSource
  cells : Array LazyCell

namespace Objects

def empty : Objects := ⟨0, #[], #[]⟩

def adopt (objects : Objects) (object : HostObject Value) : ObjectRef Value × Objects :=
  (.ready objects.issued object, { objects with issued := objects.issued + 1 })

def addSource (objects : Objects) (resolvers : List Resolver) : Nat × Objects :=
  (objects.sources.size, { objects with sources := objects.sources.push ⟨resolvers, 0⟩ })

def defer (objects : Objects) (source : Nat) (id : String) : ObjectRef Value × Objects :=
  (.lazy objects.cells.size id, { objects with cells := objects.cells.push ⟨source, none⟩ })

def lookups (objects : Objects) (source : Nat) : Nat :=
  (objects.sources[source]?).elim 0 ObjectSource.lookups

/-- Asks the first resolver that supports the id; only an answer counts as a lookup. -/
def ask (objects : Objects) (source : Nat) (id : String) : Option (Resolver × Objects) :=
  match objects.sources[source]? with
  | none => none
  | some known =>
    match known.resolvers.find? fun resolver => resolver.supports id with
    | none => none
    | some resolver =>
      let counted := { known with lookups := known.lookups + 1 }
      some (resolver, { objects with sources := objects.sources.setIfInBounds source counted })

def lookUp (objects : Objects) (source : Nat) (id : String) :
    Option (HostObject Value × Objects) :=
  (objects.ask source id).map fun (resolver, objects) => (resolver.resolve id, objects)

def found? (objects : Objects) (cell : Nat) : Option (HostObject Value) :=
  (objects.cells[cell]?).bind LazyCell.content

def content? (objects : Objects) : ObjectRef Value → Option (HostObject Value)
  | .ready _ object => some object
  | .lazy cell _ => objects.found? cell

def fill (objects : Objects) (cell : Nat) (object : HostObject Value) : Objects :=
  { objects with
    cells := objects.cells.modify cell fun known => { known with content := some object } }

/-- The object, looked up if need be, in which case the answer is kept for the next time. When no
resolver supports the id of a reference, the id is the answer. -/
def resolve (objects : Objects) : ObjectRef Value → Except String (HostObject Value × Objects)
  | .ready _ object => .ok (object, objects)
  | .lazy cell id =>
    match objects.found? cell with
    | some object => .ok (object, objects)
    | none =>
      match (objects.cells[cell]?).bind fun known => objects.lookUp known.source id with
      | some (object, objects) => .ok (object, objects.fill cell object)
      | none => .error id

def isResolved (objects : Objects) (ref : ObjectRef Value) : Bool := (objects.content? ref).isSome

def typeName? (objects : Objects) (ref : ObjectRef Value) : Option String :=
  (objects.content? ref).map HostObject.typeName

def persisted (objects : Objects) : ObjectRef Value → Option Persisted
  | .ready _ object => object.persisted
  | .lazy cell id =>
    match objects.found? cell with
    | some object => object.persisted
    | none => some (.reference id)

def label (objects : Objects) : ObjectRef Value → String
  | .ready _ object => object.label
  | .lazy cell id =>
    match objects.found? cell with
    | some object => object.label
    | none => "<unresolved " ++ id ++ ">"

def sameCell : ObjectRef Value → ObjectRef Value → Bool
  | .lazy cell _, .lazy other _ => cell == other
  | _, _ => false

def sameId : Option Persisted → Option Persisted → Bool
  | some (.reference id), some (.reference other) => id == other
  | _, _ => false

/-- Two ready references are equal when they hold the same object. A lazy one equals another
reference when both are the same cell, or when both are kept under the same id. -/
def sameRef (objects : Objects) (left right : ObjectRef Value) : Bool :=
  match left, right with
  | .ready serial _, .ready other _ => serial == other
  | _, _ => sameCell left right || sameId (objects.persisted left) (objects.persisted right)

end Objects

end DurableScript
