import DurableScript.Json.Literal

namespace DurableScript

def Json.maxLevels : Nat := 127

/-- The text of a string is missing when an escape in it is half of a surrogate pair. -/
inductive Document where
  | null
  | bool (b : Bool)
  | num (literal : JsonLiteral)
  | str (text : Option String)
  | arr (items : List Document)
  | obj (members : List (Option String × Document))

namespace Document

mutual

def toJson? (levels : Nat) : Document → Option Json
  | null => some .null
  | bool b => some (.bool b)
  | num literal => literal.number?.map .num
  | str text => text.map .str
  | arr items =>
    match levels with
    | 0 => none
    | inner + 1 => (itemsToJson? inner items).map .arr
  | obj members =>
    match levels with
    | 0 => none
    | inner + 1 => (membersToJson? inner [] members).map .obj

def itemsToJson? (levels : Nat) : List Document → Option (List Json)
  | [] => some []
  | item :: rest =>
    match toJson? levels item with
    | none => none
    | some json => (itemsToJson? levels rest).map (json :: ·)

def membersToJson? (levels : Nat) (done : Table Json) :
    List (Option String × Document) → Option (Table Json)
  | [] => some done
  | (name, value) :: rest =>
    match name, toJson? levels value with
    | some name, some json => membersToJson? levels (Table.insert name json done) rest
    | _, _ => none

end

def member? (members : List (Option String × Document)) (name : String) :
    Option (Option Document) :=
  match members.filter fun (other, _) => other == some name with
  | [] => some none
  | [(_, value)] => some (some value)
  | _ => none

/-- The named parts of a record, which is written as an object or as a list in the order of the
names. Members of other names are left alone, but a list must not be too long. -/
def parts? (names : List String) : Document → Option (List (Option Document))
  | arr items =>
    if items.length ≤ names.length then
      some (items.map some ++ List.replicate (names.length - items.length) none)
    else none
  | obj members =>
    if members.all fun (name, _) => name.isSome then names.mapM (member? members) else none
  | _ => none

def natBelow? (bound : Nat) : Document → Option Nat
  | num literal =>
    match literal.number? with
    | some (.int n) => if 0 ≤ n ∧ n < bound then some n.toNat else none
    | _ => none
  | _ => none

def optional? {α : Type} (read : Document → Option α) : Option Document → Option (Option α)
  | none => some none
  | some null => some none
  | some document => (read document).map some

def withDefault? {α : Type} (default : α) (read : Document → Option α) : Option Document → Option α
  | none => some default
  | some document => read document

def each? {α : Type} (read : Document → Option α) : Document → Option (List α)
  | arr items => items.mapM read
  | _ => none

end Document

end DurableScript
