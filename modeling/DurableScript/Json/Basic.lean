import DurableScript.Power
import DurableScript.Table

namespace DurableScript

open scoped Power

inductive JsonNumber where
  | int (n : Int)
  | float (x : Float)

inductive Json where
  | null
  | bool (b : Bool)
  | num (n : JsonNumber)
  | str (s : String)
  | arr (items : List Json)
  | obj (members : List (String × Json))

namespace Json

instance : Inhabited Json := ⟨null⟩

def ofNat (n : Nat) : Json := num (.int n)

def ofOption {α : Type} (write : α → Json) : Option α → Json
  | none => null
  | some a => write a

def str? : Json → Option String
  | str s => some s
  | _ => none

def word? : Json → Option Nat
  | num (.int n) => if 0 ≤ n ∧ n < 2 ^ (64 : Nat) then some n.toNat else none
  | _ => none

end Json

end DurableScript
