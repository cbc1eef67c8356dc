import DurableScript.Decimal.Reader
import DurableScript.Json.Basic

namespace DurableScript

open scoped Power

/-- A literal as it is written. `fraction` is empty when there is no point, and the exponent comes
with its sign: true for a negative one. -/
structure JsonLiteral where
  negative : Bool
  whole : List Char
  fraction : List Char
  exponent : Option (Bool × List Char)

namespace JsonLiteral

def absorb (significand : Nat) : List Char → Nat × List Char
  | [] => (significand, [])
  | c :: rest =>
    let next := significand * 10 + (c.toNat - '0'.toNat)
    if next < 2 ^ (64 : Nat) then absorb next rest else (significand, c :: rest)

def power (n : Nat) : Float := Float.ofScientific 1 false n

/-- `significand · 10 ^ exponent` by one multiplication or division; none when it leaves the range
of doubles. Powers past `10 ^ 308` are divided out in two steps, and after two full ones a
significand of 64 bits has vanished. -/
def scale? (significand : Nat) (exponent : Int) : Option Float :=
  let x := Float.ofNat significand
  if exponent < -616 then some 0
  else if exponent < -308 then some (x / power 308 / power (-exponent - 308).toNat)
  else if exponent < 0 then some (x / power (-exponent).toNat)
  else if significand = 0 then some x
  else if 308 < exponent then none
  else
    let scaled := x * power exponent.toNat
    if scaled.isInf then none else some scaled

/-- The exponent of the literal: its own part, and what the digits contribute. A written exponent
past 31 bits makes the literal vanish or leave the range at once. -/
def magnitude? (literal : JsonLiteral) : Option Float :=
  let (head, skipped) := absorb 0 literal.whole
  let (significand, ignored) := absorb head literal.fraction
  let shift := Int.ofNat skipped.length -
    Int.ofNat (literal.fraction.length - ignored.length)
  match literal.exponent with
  | none => scale? significand shift
  | some (negative, digits) =>
    let n := Decimal.digitsValue digits
    if 2 ^ (31 : Nat) ≤ n then if significand ≠ 0 ∧ !negative then none else some 0
    else scale? significand (if negative then shift - n else shift + n)

/-- A literal without fraction and exponent is a whole number if it fits 64 bits, with a sign or
without; every other literal is a double, and so is minus zero. -/
def number? (literal : JsonLiteral) : Option JsonNumber :=
  let n := Decimal.digitsValue literal.whole
  let isWhole := literal.fraction.isEmpty && literal.exponent.isNone
  if isWhole && !literal.negative && n < 2 ^ (64 : Nat) then some (.int n)
  else if isWhole && literal.negative && 0 < n && n ≤ 2 ^ (63 : Nat) then some (.int (-n))
  else
    literal.magnitude?.map fun x => .float (if literal.negative then x.neg else x)

end JsonLiteral

end DurableScript
