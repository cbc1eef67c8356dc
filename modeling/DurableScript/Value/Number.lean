import DurableScript.Decimal.Dyadic
import DurableScript.Decimal.Reader
import DurableScript.Text.Blank
import DurableScript.Value

namespace DurableScript

inductive Number where
  | int (n : Int64)
  | float (x : Float)

namespace Number

def toFloat : Number → Float
  | int n => floatOfInt64 n
  | float x => x

def isZero : Number → Bool
  | int n => n == 0
  | float x => x == 0

def toInt64 : Number → Int64
  | int n => n
  | float x => Dyadic.toInt64 x

def isLetter (c : Char) : Bool := ('a' ≤ c && c ≤ 'z') || ('A' ≤ c && c ≤ 'Z')

/-- Blanks around the number do not matter. No letter but an exponent mark may appear, so that the
words for infinity and for no number stay words. -/
def ofText? (s : String) : Option Number :=
  let trimmed := Text.trim s.toList
  match Numeral.read? trimmed with
  | some n => some (int n)
  | none =>
    if trimmed.any fun c => isLetter c && c != 'e' && c != 'E' then none
    else (Decimal.read? trimmed).map float

def orderFloats (x y : Float) : Option Ordering :=
  if x < y then some .lt
  else if x == y then some .eq
  else if y < x then some .gt
  else none

def orderInts (m n : Int64) : Ordering := compare m.toInt n.toInt

def order : Number → Number → Option Ordering
  | int m, int n => some (orderInts m n)
  | left, right => orderFloats left.toFloat right.toFloat

end Number

end DurableScript
