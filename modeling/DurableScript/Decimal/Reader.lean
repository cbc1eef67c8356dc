import DurableScript.Numeral

namespace DurableScript.Decimal

inductive Fault where
  | empty
  | invalid
  deriving DecidableEq

def Fault.message : Fault → String
  | .empty => "cannot parse float from empty string"
  | .invalid => "invalid float literal"

def isDigit (c : Char) : Bool := '0' ≤ c && c ≤ '9'

def digitsValue (digits : List Char) : Nat :=
  digits.foldl (fun n c => n * 10 + (c.toNat - '0'.toNat)) 0

def infinity : Float := Float.ofBits 0x7FF0000000000000

def notANumber : Float := Float.ofBits 0x7FF8000000000000

/-- `digits · 10 ^ exponent` to the nearest double. Outside the bounds the answer is known without
computing the power. -/
def nearest (digits : Nat) (exponent : Int) : Float :=
  let lead := exponent + Int.ofNat (Nat.toDigits 10 digits).length
  if digits = 0 then 0
  else if 400 < lead then infinity
  else if lead < -400 then 0
  else Float.ofScientific digits (exponent < 0) exponent.natAbs

def lower (c : Char) : Char := if 'A' ≤ c ∧ c ≤ 'Z' then Char.ofNat (c.toNat + 32) else c

def readExponent : List Char → Option Int
  | [] => some 0
  | mark :: rest =>
    if mark = 'e' ∨ mark = 'E' then
      let (negative, digits) :=
        match rest with
        | '-' :: digits => (true, digits)
        | '+' :: digits => (false, digits)
        | digits => (false, digits)
      if digits.isEmpty || !digits.all isDigit then none
      else
        let n := Int.ofNat (digitsValue digits)
        some (if negative then -n else n)
    else none

def readUnsigned (text : List Char) : Option Float :=
  let word := String.ofList (text.map lower)
  if word = "inf" ∨ word = "infinity" then some infinity
  else if word = "nan" then some notANumber
  else
    let whole := text.takeWhile isDigit
    let afterWhole := text.dropWhile isDigit
    let (fraction, rest) :=
      match afterWhole with
      | '.' :: tail => (tail.takeWhile isDigit, tail.dropWhile isDigit)
      | tail => ([], tail)
    if whole.isEmpty && fraction.isEmpty then none
    else
      (readExponent rest).map fun exponent =>
        nearest (digitsValue (whole ++ fraction)) (exponent - Int.ofNat fraction.length)

def read (text : List Char) : Except Fault Float :=
  match text with
  | [] => .error .empty
  | '-' :: rest => ((readUnsigned rest).map Float.neg).elim (.error .invalid) .ok
  | '+' :: rest => (readUnsigned rest).elim (.error .invalid) .ok
  | rest => (readUnsigned rest).elim (.error .invalid) .ok

def read? (text : List Char) : Option Float := (read text).toOption

end DurableScript.Decimal
