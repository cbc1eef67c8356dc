import DurableScript.FormatError
import DurableScript.Json.Reader
import DurableScript.Json.Render
import DurableScript.Text.Blank
import DurableScript.Text.Escape
import DurableScript.Value.Text

/-!
Tagged text: a value is written as JSON text whose first letters name its kind. Lists and nothing
are plain JSON, except inside a record, which is one text as a whole.
-/

namespace DurableScript

open scoped Power

/-- A value made ready for writing. Only nothing and lists look different inside a record. -/
inductive TagForm where
  | null
  | text (s : String)
  | list (items : List Json)

namespace TagForm

def json : TagForm → Json
  | null => .null
  | text s => .str s
  | list items => .arr items

def inline : TagForm → String
  | null => "N"
  | text s => s
  | list items => "a:" ++ (Json.arr items).text

end TagForm

namespace Objects

def tagForm (objects : Objects) (ref : ObjectRef Value) : Except FormatError TagForm :=
  let typeName := (objects.typeName? ref).getD "object"
  match objects.persisted ref with
  | some (.reference id) => .ok (.text ("o:" ++ id))
  | some (.blob payload) => .ok (.text ("j:" ++ typeName ++ ":" ++ payload))
  | none => .error (.unsupportedObject typeName)

end Objects

namespace Value

def escaped (specials : List Char) (s : String) : String :=
  String.ofList (Text.escape specials s.toList)

mutual

def tagForm (objects : Objects) : Value → Except FormatError TagForm
  | null => .ok .null
  | bool true => .ok (.text "b:1")
  | bool false => .ok (.text "b:0")
  | int n => .ok (.text ("i:" ++ intText n))
  | float x => .ok (.text ("d:" ++ decimalText x))
  | str s => .ok (.text ("s:" ++ s))
  | list items => (itemForms objects items).map .list
  | record fields => do
    let pairs ← fieldForms objects fields
    return .text ("os:" ++ ",".intercalate pairs)
  | object ref => objects.tagForm ref

def itemForms (objects : Objects) : List Value → Except FormatError (List Json)
  | [] => .ok []
  | item :: rest => do
    let form ← tagForm objects item
    let forms ← itemForms objects rest
    return form.json :: forms

def fieldForms (objects : Objects) : List (String × Value) → Except FormatError (List String)
  | [] => .ok []
  | (name, value) :: rest => do
    let form ← tagForm objects value
    let forms ← fieldForms objects rest
    return (escaped [',', ':'] name ++ ":" ++ escaped [','] form.inline) :: forms

end

def toJson (objects : Objects) (value : Value) : Except FormatError Json :=
  (tagForm objects value).map TagForm.json

end Value

/-- A value as it was read. Host objects are still to be found, and what could not be read stands at
its place, so that faults come up in the order of the text. -/
inductive Tagged where
  | null
  | bool (b : Bool)
  | int (n : Int64)
  | float (x : Float)
  | str (s : String)
  | list (items : List Tagged)
  | record (fields : List (String × Tagged))
  | reference (id : String)
  | blob (typeName payload : String)
  | fault (e : FormatError)

namespace Tagged

def ofNumber : JsonNumber → Tagged
  | .int n => if -2 ^ (63 : Nat) ≤ n ∧ n < 2 ^ (63 : Nat) then int (Int64.ofInt n)
    else float (Float.ofInt n)
  | .float x => float x

mutual

def ofJsonWith (read : String → Tagged) : Json → Tagged
  | .null => null
  | .bool b => bool b
  | .num n => ofNumber n
  | .str s => read s
  | .arr items => list (ofItems read items)
  | .obj members => list (ofMembers read members)

def ofItems (read : String → Tagged) : List Json → List Tagged
  | [] => []
  | item :: rest => ofJsonWith read item :: ofItems read rest

def ofMembers (read : String → Tagged) : List (String × Json) → List Tagged
  | [] => []
  | (_, value) :: rest => ofJsonWith read value :: ofMembers read rest

end

def malformed (text : List Char) (why : ValueFault) : Tagged :=
  fault (.malformedValue (String.ofList text) why)

def ofBlob (text payload : List Char) : Tagged :=
  match payload.dropWhile (· != ':') with
  | [] => malformed text .blobType
  | _ :: rest => blob (String.ofList (payload.takeWhile (· != ':'))) (String.ofList rest)

def ofPair (read : List Char → Tagged) (pair : List Char) : String × Tagged :=
  match Text.splitFirst? ':' pair with
  | none => ("", malformed pair .recordPair)
  | some (name, value) => (String.ofList (Text.unescape name), read (Text.unescape value))

def ofPairs (read : List Char → Tagged) (text : List Char) : List (String × Tagged) :=
  ((Text.splitAll ',' text).filter fun pair => !Text.isAllBlank pair).map (ofPair read)

/-- The fuel bounds how deep texts hold further texts, each of which is shorter than the one around
it. -/
def ofChars : Nat → List Char → Tagged
  | 0, text => fault (.unknownTag (String.ofList text))
  | fuel + 1, text =>
    match text with
    | 's' :: ':' :: rest => str (String.ofList rest)
    | 'i' :: ':' :: rest =>
      match Numeral.read rest with
      | .ok n => int n
      | .error why => malformed text (.integer why)
    | 'd' :: ':' :: rest =>
      match Decimal.read rest with
      | .ok x => float x
      | .error why => malformed text (.decimal why)
    | ['b', ':', '1'] => bool true
    | ['b', ':', '0'] => bool false
    | 'b' :: ':' :: _ => malformed text .truth
    | ['N'] => null
    | 'o' :: 's' :: ':' :: rest => record (ofPairs (ofChars fuel) rest)
    | 'o' :: ':' :: rest => reference (String.ofList rest)
    | 'j' :: ':' :: rest => ofBlob text rest
    | 'a' :: ':' :: rest =>
      match Json.parse? rest with
      | none => fault .json
      | some json => ofJsonWith (fun s => ofChars fuel s.toList) json
    | _ => fault (.unknownTag (String.ofList text))

def ofText (s : String) : Tagged := ofChars (s.length + 1) s.toList

def ofJson (json : Json) : Tagged := ofJsonWith ofText json

end Tagged

end DurableScript
