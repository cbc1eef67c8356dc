namespace DurableScript

inductive Operator where
  | add | sub | mul | div | mod | concat
  | gt | lt | ge | le | eq | ne
  | and | or
  deriving DecidableEq, Inhabited

namespace Operator

def all : List Operator :=
  [add, sub, mul, div, mod, concat, gt, lt, ge, le, eq, ne, and, or]

def symbol : Operator → String
  | add => "+"
  | sub => "-"
  | mul => "*"
  | div => "/"
  | mod => "%"
  | concat => "."
  | gt => ">"
  | lt => "<"
  | ge => ">="
  | le => "<="
  | eq => "="
  | ne => "!="
  | and => "and"
  | or => "or"

/-- Besides its symbol, equality answers to `is`, and its denial to `is_not` and `is not`. -/
def ofSymbol? : String → Option Operator
  | "+" => some add
  | "-" => some sub
  | "*" => some mul
  | "/" => some div
  | "%" => some mod
  | "." => some concat
  | ">" => some gt
  | "<" => some lt
  | ">=" => some ge
  | "<=" => some le
  | "=" => some eq
  | "is" => some eq
  | "!=" => some ne
  | "is_not" => some ne
  | "is not" => some ne
  | "and" => some and
  | "or" => some or
  | _ => none

@[simp] theorem ofSymbol?_symbol (op : Operator) : ofSymbol? op.symbol = some op := by
  cases op <;> rfl

end Operator

end DurableScript
