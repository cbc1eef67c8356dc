import DurableScript.Decimal.Shortest

namespace DurableScript

structure DecimalStyle where
  positional : Int → Bool
  showFraction : Bool

namespace DecimalStyle

def plain : DecimalStyle := ⟨fun _ => true, false⟩

def precise : DecimalStyle := ⟨fun lead => -4 ≤ lead && lead < 16, true⟩

def zeros (n : Nat) : List Char := List.replicate n '0'

def placePoint (style : DecimalStyle) (digits : List Char) (point : Int) : List Char :=
  if point ≤ 0 then '0' :: '.' :: zeros (-point).toNat ++ digits
  else if digits.length ≤ point.toNat then
    digits ++ zeros (point.toNat - digits.length) ++ (if style.showFraction then ['.', '0'] else [])
  else digits.take point.toNat ++ '.' :: digits.drop point.toNat

def exponential (digits : List Char) (lead : Int) : List Char :=
  let fraction :=
    match digits.drop 1 with
    | [] => []
    | rest => '.' :: rest
  digits.take 1 ++ fraction ++ 'e' :: (toString lead).toList

def magnitude (style : DecimalStyle) (d : Dyadic) : List Char :=
  if d.mantissa = 0 then if style.showFraction then ['0', '.', '0'] else ['0']
  else
    let short := ShortDecimal.ofDyadic d
    let digits := Nat.toDigits 10 short.digits
    let lead := short.exponent + Int.ofNat digits.length - 1
    if style.positional lead then placePoint style digits (lead + 1)
    else exponential digits lead

def render (style : DecimalStyle) (x : Float) : List Char :=
  if x.isNaN then ['N', 'a', 'N']
  else
    let d := Dyadic.ofFloat x
    let unsigned := if x.isInf then ['i', 'n', 'f'] else magnitude style d
    if d.negative then '-' :: unsigned else unsigned

end DecimalStyle

end DurableScript
