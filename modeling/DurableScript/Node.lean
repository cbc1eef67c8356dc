import DurableScript.Operator
import DurableScript.Position

namespace DurableScript

inductive Node where
  | root (body : List Node) (pos : Option SourcePos)
  | assign (name : String) (value : Node) (pos : Option SourcePos)
  /-- `orElse` is the next branch of the chain; `otherwise` runs when every condition before it
  failed. -/
  | branch (condition : Node) (body : List Node) (orElse : Option Node)
      (otherwise : Option (List Node)) (pos : Option SourcePos)
  | countLoop (first last : Node) (step : Option Node) (counter : Option String)
      (body : List Node) (pos : Option SourcePos)
  | eachLoop (items : Node) (item : String) (body : List Node) (pos : Option SourcePos)
  | whileLoop (condition : Node) (body : List Node) (pos : Option SourcePos)
  | procedure (name : String) (params : List String) (body : List Node) (pos : Option SourcePos)
  | ret (value : Option Node) (pos : Option SourcePos)
  | stop (pos : Option SourcePos)
  | nothing (pos : Option SourcePos)
  | wait (all : Bool) (names : List String) (pos : Option SourcePos)
  | call (name : String) (args : List Node) (pos : Option SourcePos)
  | methodCall (object name : String) (args : List Node) (pos : Option SourcePos)
  | group (inner : Node) (pos : Option SourcePos)
  | binary (op : Operator) (left right : Node) (pos : Option SourcePos)
  | negate (inner : Node) (pos : Option SourcePos)
  /-- A property path in source order: the object comes last. -/
  | path (names : List String) (pos : Option SourcePos)
  | ident (name : String) (pos : Option SourcePos)
  | int (n : Int64) (pos : Option SourcePos)
  | float (x : Float) (pos : Option SourcePos)
  | str (s : String) (pos : Option SourcePos)
  | bool (b : Bool) (pos : Option SourcePos)
  | null (pos : Option SourcePos)

namespace Node

instance : Inhabited Node := ⟨null none⟩

def pos : Node → Option SourcePos
  | root _ pos => pos
  | assign _ _ pos => pos
  | branch _ _ _ _ pos => pos
  | countLoop _ _ _ _ _ pos => pos
  | eachLoop _ _ _ pos => pos
  | whileLoop _ _ pos => pos
  | procedure _ _ _ pos => pos
  | ret _ pos => pos
  | stop pos => pos
  | nothing pos => pos
  | wait _ _ pos => pos
  | call _ _ pos => pos
  | methodCall _ _ _ pos => pos
  | group _ pos => pos
  | binary _ _ _ pos => pos
  | negate _ pos => pos
  | path _ pos => pos
  | ident _ pos => pos
  | int _ pos => pos
  | float _ pos => pos
  | str _ pos => pos
  | bool _ pos => pos
  | null pos => pos

def kindName : Node → String
  | root .. => "root"
  | assign .. => "let"
  | branch .. => "if"
  | countLoop .. => "from loop"
  | eachLoop .. => "for each loop"
  | whileLoop .. => "while loop"
  | procedure .. => "procedure"
  | ret .. => "return"
  | stop _ => "stop"
  | nothing _ => "nothing"
  | wait .. => "wait for signal"
  | call .. => "function call"
  | methodCall .. => "object function call"
  | group .. => "expression"
  | binary .. => "math operator"
  | negate .. => "not"
  | path .. => "of access"
  | ident .. => "reference"
  | int .. => "number"
  | float .. => "decimal"
  | str .. => "string"
  | bool .. => "bool"
  | null _ => "null"

def signalName : String := "signal"

def isSignal : Node → Bool
  | ident name _ => name == signalName
  | _ => false

end Node

end DurableScript
