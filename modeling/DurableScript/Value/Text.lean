import DurableScript.Objects
import DurableScript.Decimal.Style
import DurableScript.Text.Quoted

namespace DurableScript.Value

def decimalText (x : Float) : String := String.ofList (DecimalStyle.plain.render x)

def intText (n : Int64) : String := toString n.toInt

mutual

def text (objects : Objects) : Value → String
  | null => ""
  | bool true => "1"
  | bool false => ""
  | int n => intText n
  | float x => decimalText x
  | str s => s
  | list items => "[" ++ ", ".intercalate (texts objects items) ++ "]"
  | record fields => "\x7b" ++ ", ".intercalate (fieldTexts objects fields) ++ "\x7d"
  | object ref => objects.label ref

def texts (objects : Objects) : List Value → List String
  | [] => []
  | item :: rest => text objects item :: texts objects rest

def fieldTexts (objects : Objects) : List (String × Value) → List String
  | [] => []
  | (name, value) :: rest => (name ++ ": " ++ text objects value) :: fieldTexts objects rest

end

mutual

def describe (objects : Objects) : Value → String
  | null => "Null"
  | bool true => "Bool(true)"
  | bool false => "Bool(false)"
  | int n => "Int(" ++ intText n ++ ")"
  | float x => "Float(" ++ String.ofList (DecimalStyle.precise.render x) ++ ")"
  | str s => "Str(" ++ Text.quote s ++ ")"
  | list items => "List([" ++ ", ".intercalate (describeAll objects items) ++ "])"
  | record fields => "Record(\x7b" ++ ", ".intercalate (describeFields objects fields) ++ "\x7d)"
  | object ref => "Object(" ++ objects.label ref ++ ")"

def describeAll (objects : Objects) : List Value → List String
  | [] => []
  | item :: rest => describe objects item :: describeAll objects rest

def describeFields (objects : Objects) : List (String × Value) → List String
  | [] => []
  | (name, value) :: rest =>
    (Text.quote name ++ ": " ++ describe objects value) :: describeFields objects rest

end

end DurableScript.Value
