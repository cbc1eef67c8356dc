import DurableScript.Table

namespace DurableScript

inductive Persisted where
  | reference (id : String)
  | blob (payload : String)
  deriving DecidableEq

structure HostObject (V : Type) where
  typeName : String
  persisted : Option Persisted
  properties : List (String × V)
  label : String

/-- A ready reference holds its object, and the serial number tells objects apart. A lazy one names
the cell in which the object will be once it has been looked up. -/
inductive ObjectRef (V : Type) where
  | ready (serial : Nat) (object : HostObject V)
  | lazy (cell : Nat) (id : String)

/-- A record's field names differ from each other and keep their order. -/
inductive Value where
  | null
  | bool (b : Bool)
  | int (n : Int64)
  | float (x : Float)
  | str (s : String)
  | list (items : List Value)
  | record (fields : List (String × Value))
  | object (ref : ObjectRef Value)

namespace Value

instance : Inhabited Value := ⟨null⟩

def typeName : Value → String
  | null => "null"
  | bool _ => "bool"
  | int _ => "int"
  | float _ => "float"
  | str _ => "string"
  | list _ => "list"
  | record _ => "record"
  | object _ => "object"

def truthy : Value → Bool
  | null => false
  | bool b => b
  | int n => n != 0
  | float x => x != 0
  | str s => s != "" && s != "0"
  | list items => !items.isEmpty
  | record fields => !fields.isEmpty
  | object _ => true

def isObject : Value → Bool
  | record _ => true
  | object _ => true
  | _ => false

def int? : Value → Option Int64
  | int n => some n
  | _ => none

def str? : Value → Option String
  | str s => some s
  | _ => none

def list? : Value → Option (List Value)
  | list items => some items
  | _ => none

def object? : Value → Option (ObjectRef Value)
  | object ref => some ref
  | _ => none

end Value

end DurableScript
