import DurableScript.Builtin
import DurableScript.Operator
import DurableScript.Position

namespace DurableScript

inductive Literal where
  | null
  | bool (b : Bool)
  | int (n : Int64)
  | double (bits : UInt64)
  | str (s : String)

namespace Literal

def value : Literal → Value
  | null => .null
  | bool b => .bool b
  | int n => .int n
  | double bits => .float (Float.ofBits bits)
  | str s => .str s

def float (x : Float) : Literal := double x.toBits

/-- No number differs from itself, and the two zeros are equal. -/
def same : Literal → Literal → Bool
  | null, null => true
  | bool a, bool b => a == b
  | int m, int n => m == n
  | double m, double n => Float.ofBits m == Float.ofBits n
  | str s, str t => s == t
  | _, _ => false

end Literal

inductive Op where
  | pushValue (literal : Literal)
  | pushVariable (name : String)
  | operate (op : Operator)
  | setVariable (name : String)
  /-- `restart` is where the code of the arguments begins. -/
  | call (name : String) (argc restart : Nat)
  | callMethod (object name : String) (argc restart : Nat)
  | jumpUnless (target : Nat)
  | stop
  | jump (target : Nat)
  | callBuiltin (function : Builtin) (argc : Nat)
  | nop
  | wait (all : Bool) (names : List String)
  | pushResult
  | expectStack (count : Nat)
  | ret (hasValue : Bool)
  | pushProperty (name : String)
  | invert

namespace Op

def name : Op → String
  | pushValue _ => "PUSH_VALUE"
  | pushVariable _ => "PUSH_VARIABLE"
  | operate _ => "MATH_OPERATOR"
  | setVariable _ => "SET_VARIABLE"
  | call .. => "FUNCTION_CALL"
  | callMethod .. => "OBJECT_FUNCTION_CALL"
  | jumpUnless _ => "IF_NOT_JMP"
  | stop => "STOP"
  | jump _ => "JMP"
  | callBuiltin .. => "INTERNAL_FUNCTION_CALL"
  | nop => "NOP"
  | wait .. => "WAIT_FOR_SIGNAL"
  | pushResult => "PUSH_FUNCTION_RESULT"
  | expectStack _ => "ASSERT_STACK_COUNT"
  | ret _ => "RET"
  | pushProperty _ => "PUSH_OBJECT_ACCESS"
  | invert => "INVERT"

def targets : Op → List Nat
  | call _ _ restart => [restart]
  | callMethod _ _ _ restart => [restart]
  | jumpUnless target => [target]
  | jump target => [target]
  | _ => []

def same : Op → Op → Bool
  | pushValue a, pushValue b => a.same b
  | pushVariable a, pushVariable b => a == b
  | operate a, operate b => a == b
  | setVariable a, setVariable b => a == b
  | call a m i, call b n j => a == b && m == n && i == j
  | callMethod o a m i, callMethod p b n j => o == p && a == b && m == n && i == j
  | jumpUnless i, jumpUnless j => i == j
  | stop, stop => true
  | jump i, jump j => i == j
  | callBuiltin f m, callBuiltin g n => f == g && m == n
  | nop, nop => true
  | wait a xs, wait b ys => a == b && xs == ys
  | pushResult, pushResult => true
  | expectStack m, expectStack n => m == n
  | ret a, ret b => a == b
  | pushProperty a, pushProperty b => a == b
  | invert, invert => true
  | _, _ => false

end Op

structure Instruction where
  op : Op
  pos : Option SourcePos

namespace Instruction

instance : Inhabited Instruction := ⟨⟨.nop, none⟩⟩

def same (a b : Instruction) : Bool := a.op.same b.op && a.pos == b.pos

end Instruction

end DurableScript
