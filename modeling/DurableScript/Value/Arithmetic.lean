import DurableScript.Operator
import DurableScript.RunError
import DurableScript.Value.Equality

namespace DurableScript.Value

open scoped Power

def fit? (n : Int) : Option Int64 :=
  if -2 ^ (63 : Nat) ≤ n ∧ n < 2 ^ (63 : Nat) then some (Int64.ofInt n) else none

inductive Operation where
  | add | sub | mul | div
  deriving DecidableEq

def Operation.operator : Operation → Operator
  | .add => .add
  | .sub => .sub
  | .mul => .mul
  | .div => .div

def Operation.whole? (operation : Operation) (m n : Int64) : Option Int64 :=
  let x := m.toInt
  let y := n.toInt
  match operation with
  | .add => fit? (x + y)
  | .sub => fit? (x - y)
  | .mul => fit? (x * y)
  | .div => if Int.tmod x y = 0 then fit? (Int.tdiv x y) else none

def Operation.inexact (operation : Operation) (x y : Float) : Float :=
  match operation with
  | .add => x + y
  | .sub => x - y
  | .mul => x * y
  | .div => x / y

def number (op : Operator) : Value → Except RunFault Number
  | null => .ok (.int 0)
  | bool b => .ok (.int (if b then 1 else 0))
  | int n => .ok (.int n)
  | float x => .ok (.float x)
  | str s =>
    match Number.ofText? s with
    | some n => .ok n
    | none =>
      .error (.typeMismatch
        ("unsupported operand for '" ++ op.symbol ++ "': non-numeric string \"" ++ s ++ "\""))
  | other =>
    .error (.typeMismatch ("unsupported operand for '" ++ op.symbol ++ "': " ++ other.typeName))

def calculate (operation : Operation) (left right : Value) : Except RunFault Value := do
  let x ← number operation.operator left
  let y ← number operation.operator right
  if operation = .div ∧ y.isZero then .error .divisionByZero
  else
    match x, y with
    | .int m, .int n =>
      match operation.whole? m n with
      | some result => .ok (.int result)
      | none => .ok (.float (operation.inexact (floatOfInt64 m) (floatOfInt64 n)))
    | x, y => .ok (.float (operation.inexact x.toFloat y.toFloat))

def remainder (left right : Value) : Except RunFault Value := do
  let x ← number .mod left
  let y ← number .mod right
  let m := x.toInt64
  let n := y.toInt64
  if n = 0 then .error .divisionByZero
  else .ok (.int (Int64.ofInt (Int.tmod m.toInt n.toInt)))

def isStr : Value → Bool
  | str _ => true
  | _ => false

def join (objects : Objects) (left right : Value) : Value :=
  str (left.text objects ++ right.text objects)

def apply (objects : Objects) (op : Operator) (left right : Value) : Except RunFault Value :=
  match op with
  | .add => if left.isStr || right.isStr then .ok (join objects left right)
    else calculate .add left right
  | .sub => calculate .sub left right
  | .mul => calculate .mul left right
  | .div => calculate .div left right
  | .mod => remainder left right
  | .concat => .ok (join objects left right)
  | .gt => .ok (bool (order left right == some .gt))
  | .lt => .ok (bool (order left right == some .lt))
  | .ge => .ok (bool (order left right == some .gt || order left right == some .eq))
  | .le => .ok (bool (order left right == some .lt || order left right == some .eq))
  | .eq => .ok (bool (looseEq objects left right))
  | .ne => .ok (bool (!looseEq objects left right))
  | .and => .ok (bool (left.truthy && right.truthy))
  | .or => .ok (bool (left.truthy || right.truthy))

end DurableScript.Value
