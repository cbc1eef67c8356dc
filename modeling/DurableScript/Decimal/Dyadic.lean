import DurableScript.Power

namespace DurableScript

open scoped Power

structure Dyadic where
  negative : Bool
  mantissa : Nat
  exponent : Int
  deriving DecidableEq

namespace Dyadic

/-- The number that a finite double stands for. An infinity reads as `2 ^ 1024`, the first number
past the range. -/
def ofFloat (x : Float) : Dyadic :=
  let bits := x.toBits.toNat
  let scale := bits / 2 ^ (52 : Nat) % 2 ^ (11 : Nat)
  let fraction := bits % 2 ^ (52 : Nat)
  { negative := bits / 2 ^ (63 : Nat) == 1
    mantissa := if scale = 0 then fraction else 2 ^ (52 : Nat) + fraction
    exponent := Int.ofNat (max scale 1) - 1075 }

def whole (d : Dyadic) : Nat :=
  if 0 ≤ d.exponent then d.mantissa * 2 ^ d.exponent.toNat
  else d.mantissa / 2 ^ (-d.exponent).toNat

def toInt64 (x : Float) : Int64 :=
  if x.isNaN then 0
  else
    let d := ofFloat x
    if d.negative then Int64.ofInt (-(min d.whole (2 ^ (63 : Nat)) : Nat))
    else Int64.ofNat (min d.whole (2 ^ (63 : Nat) - 1))

end Dyadic

def floatOfInt64 (n : Int64) : Float := Float.ofInt n.toInt

end DurableScript
