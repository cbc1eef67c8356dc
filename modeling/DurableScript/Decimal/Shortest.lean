import DurableScript.Decimal.Dyadic

/-!
The shortest decimal that reads back: among the decimals that round to a given double, those with
the fewest digits, and of these the nearest. Everything is decided in exact arithmetic on whole
numbers.
-/

namespace DurableScript

open scoped Power

structure ShortDecimal where
  digits : Nat
  exponent : Int
  deriving DecidableEq

namespace ShortDecimal

def digitCount (n : Nat) : Nat := (Nat.toDigits 10 n).length

/-- The exponent of the leading digit of `mantissa · 2 ^ exponent`. Four hundred places more reach
below the smallest double, so that the whole part never vanishes. -/
def leadingExponent (d : Dyadic) : Int :=
  let shifted : Dyadic := { d with mantissa := d.mantissa * 10 ^ (400 : Nat) }
  Int.ofNat (digitCount shifted.whole) - 401

/-- The best point of the grid `10 ^ place` that rounds to the double, if there is one.
The double is `4 · mantissa` quarter units; what lies less than two of them above it, or less than
`below` of them under it, rounds to it, and so do the ends when the mantissa is even. -/
def onGrid? (d : Dyadic) (place : Int) : Option Nat :=
  let up := 2 ^ (d.exponent - 2).toNat * 10 ^ (-place).toNat
  let down := 2 ^ (2 - d.exponent).toNat * 10 ^ place.toNat
  let below := if d.mantissa = 2 ^ (52 : Nat) ∧ -1074 < d.exponent then 1 else 2
  let value := 4 * d.mantissa * up
  let least := (4 * d.mantissa - below) * up
  let greatest := (4 * d.mantissa + 2) * up
  let rounds (n : Nat) : Bool :=
    if d.mantissa % 2 = 0 then least ≤ n * down && n * down ≤ greatest
    else least < n * down && n * down < greatest
  let floor := value / down
  let nearerBelow := value - floor * down < (floor + 1) * down - value
  match rounds floor, rounds (floor + 1) with
  | true, true => some (if nearerBelow then floor else floor + 1)
  | true, false => some floor
  | false, true => some (floor + 1)
  | false, false => none

def strip : Nat → ShortDecimal → ShortDecimal
  | 0, s => s
  | fuel + 1, s =>
    if s.digits ≠ 0 ∧ s.digits % 10 = 0 then strip fuel ⟨s.digits / 10, s.exponent + 1⟩ else s

/-- Seventeen digits always suffice. -/
def ofDyadic (d : Dyadic) : ShortDecimal :=
  let lead := leadingExponent d
  let found := (List.range 17).findSome? fun more =>
    let place := lead - Int.ofNat more
    (onGrid? d place).map fun n => strip 20 ⟨n, place⟩
  found.getD ⟨0, 0⟩

end ShortDecimal

end DurableScript
