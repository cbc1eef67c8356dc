import DurableScript.Value.Order

namespace DurableScript.Value

mutual

def looseEq (objects : Objects) : Value → Value → Bool
  | list xs, list ys => looseEqItems objects xs ys
  | record xs, record ys => xs.length == ys.length && looseEqFields objects xs ys
  | object left, object right => objects.sameRef left right
  | left, right => order left right == some .eq

def looseEqItems (objects : Objects) : List Value → List Value → Bool
  | [], [] => true
  | x :: xs, y :: ys => looseEq objects x y && looseEqItems objects xs ys
  | _, _ => false

def looseEqFields (objects : Objects) : List (String × Value) → List (String × Value) → Bool
  | [], _ => true
  | (name, x) :: rest, fields =>
    (match Table.find? name fields with
      | some y => looseEq objects x y
      | none => false) && looseEqFields objects rest fields

end

mutual

def strictEq (objects : Objects) : Value → Value → Bool
  | null, null => true
  | bool a, bool b => a == b
  | int m, int n => m == n
  | float x, float y => x == y
  | str s, str t => s == t
  | list xs, list ys => strictEqItems objects xs ys
  | record xs, record ys => xs.length == ys.length && strictEqFields objects xs ys
  | object left, object right => objects.sameRef left right
  | _, _ => false

def strictEqItems (objects : Objects) : List Value → List Value → Bool
  | [], [] => true
  | x :: xs, y :: ys => strictEq objects x y && strictEqItems objects xs ys
  | _, _ => false

def strictEqFields (objects : Objects) : List (String × Value) → List (String × Value) → Bool
  | [], _ => true
  | (name, x) :: rest, fields =>
    (match Table.find? name fields with
      | some y => strictEq objects x y
      | none => false) && strictEqFields objects rest fields

end

end DurableScript.Value
