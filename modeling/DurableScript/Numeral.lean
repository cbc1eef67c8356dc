import DurableScript.Power

namespace DurableScript.Numeral

open scoped Power

inductive Fault where
  | empty
  | invalidDigit
  | tooLarge
  | tooSmall
  deriving DecidableEq

def Fault.message : Fault → String
  | .empty => "cannot parse integer from empty string"
  | .invalidDigit => "invalid digit found in string"
  | .tooLarge => "number too large to fit in target type"
  | .tooSmall => "number too small to fit in target type"

def digit? (c : Char) : Option Nat :=
  if '0' ≤ c ∧ c ≤ '9' then some (c.toNat - '0'.toNat) else none

/-- Appends the digits to `start`; the leftmost fault decides, be it a foreign character or a value
past `limit`. -/
def readDigits (limit : Nat) (overflow : Fault) (start : Nat) : List Char → Except Fault Nat
  | [] => .ok start
  | c :: rest =>
    match digit? c with
    | none => .error .invalidDigit
    | some d =>
      let next := start * 10 + d
      if limit < next then .error overflow else readDigits limit overflow next rest

def read (text : List Char) : Except Fault Int64 :=
  match text with
  | [] => .error .empty
  | ['+'] => .error .invalidDigit
  | ['-'] => .error .invalidDigit
  | '+' :: digits => (readDigits (2 ^ (63 : Nat) - 1) .tooLarge 0 digits).map Int64.ofNat
  | '-' :: digits => (readDigits (2 ^ (63 : Nat)) .tooSmall 0 digits).map fun n => Int64.ofInt (-n)
  | digits => (readDigits (2 ^ (63 : Nat) - 1) .tooLarge 0 digits).map Int64.ofNat

def read? (text : List Char) : Option Int64 := (read text).toOption

end DurableScript.Numeral
