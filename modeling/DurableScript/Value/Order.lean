import DurableScript.Value.Number
import DurableScript.Value.Text

namespace DurableScript.Value

def orderTexts (s t : String) : Ordering := compare s t

def orderTruth (left right : Value) : Ordering :=
  compare left.truthy.toNat right.truthy.toNat

def orderNumberText (n : Number) (written : String) (s : String) : Option Ordering :=
  match Number.ofText? s with
  | some m => n.order m
  | none => some (orderTexts written s)

def orderTextNumber (s : String) (n : Number) (written : String) : Option Ordering :=
  match Number.ofText? s with
  | some m => m.order n
  | none => some (orderTexts s written)

def orderStrs (s t : String) : Option Ordering :=
  match Number.ofText? s, Number.ofText? t with
  | some m, some n => m.order n
  | _, _ => some (orderTexts s t)

/-- Pairs other than two lists. Beside nothing or a truth value only truth counts, except that text
beside nothing counts as text; any list is greater than what is no list. -/
def orderPlain : Value → Value → Option Ordering
  | null, null => some .eq
  | null, str s => some (orderTexts "" s)
  | str s, null => some (orderTexts s "")
  | null, right => some (orderTruth null right)
  | left, null => some (orderTruth left null)
  | bool b, right => some (orderTruth (bool b) right)
  | left, bool b => some (orderTruth left (bool b))
  | int m, int n => some (Number.orderInts m n)
  | int n, float x => (Number.int n).order (.float x)
  | float x, int n => (Number.float x).order (.int n)
  | float x, float y => (Number.float x).order (.float y)
  | int n, str s => orderNumberText (.int n) (intText n) s
  | float x, str s => orderNumberText (.float x) (decimalText x) s
  | str s, int n => orderTextNumber s (.int n) (intText n)
  | str s, float x => orderTextNumber s (.float x) (decimalText x)
  | str s, str t => orderStrs s t
  | list _, _ => some .gt
  | _, list _ => some .lt
  | _, _ => none

mutual

def order : Value → Value → Option Ordering
  | list xs, list ys =>
    if xs.length = ys.length then orderItems xs ys else some (compare xs.length ys.length)
  | left, right => orderPlain left right

def orderItems : List Value → List Value → Option Ordering
  | x :: xs, y :: ys =>
    match order x y with
    | some .eq => orderItems xs ys
    | other => other
  | _, _ => some .eq

end

end DurableScript.Value
