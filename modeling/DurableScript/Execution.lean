import DurableScript.Interrupt
import DurableScript.Program
import DurableScript.Signal
import DurableScript.Value.Equality

namespace DurableScript

/-- One call: its variables, its operands with the top first, the result of the last call made from
it, and where its caller goes on. -/
structure Frame where
  vars : Table Value
  stack : List Value
  result : Value
  returnTo : Option Nat

namespace Frame

def empty : Frame := ⟨[], [], .null, none⟩

instance : Inhabited Frame := ⟨empty⟩

def get? (frame : Frame) (name : String) : Option Value := Table.find? name frame.vars

def set (frame : Frame) (name : String) (value : Value) : Frame :=
  { frame with vars := Table.insert name value frame.vars }

def push (frame : Frame) (value : Value) : Frame := { frame with stack := value :: frame.stack }

def same (objects : Objects) (left right : Frame) : Bool :=
  (left.vars.length == right.vars.length &&
      Value.strictEqFields objects left.vars right.vars) &&
    Value.strictEqItems objects left.stack right.stack &&
    Value.strictEq objects left.result right.result &&
    left.returnTo == right.returnTo

end Frame

/-- The global frame lies under the calls, of which the innermost comes first. -/
structure Execution where
  program : Program
  globals : Frame
  calls : List Frame
  pc : Nat
  steps : Nat
  lastInterrupt : Option InterruptKind

namespace Execution

def start (program : Program) : Execution := ⟨program, .empty, [], 0, 0, none⟩

def empty : Execution := start .empty

instance : Inhabited Execution := ⟨empty⟩

def frames (execution : Execution) : List Frame := execution.globals :: execution.calls.reverse

def ofFrames? (program : Program) (frames : List Frame) (pc steps : Nat)
    (lastInterrupt : Option InterruptKind) : Option Execution :=
  match frames with
  | [] => none
  | globals :: calls =>
    if pc ≤ program.size then some ⟨program, globals, calls.reverse, pc, steps, lastInterrupt⟩
    else none

def frame (execution : Execution) : Frame :=
  match execution.calls with
  | [] => execution.globals
  | call :: _ => call

def modifyFrame (execution : Execution) (f : Frame → Frame) : Execution :=
  match execution.calls with
  | [] => { execution with globals := f execution.globals }
  | call :: rest => { execution with calls := f call :: rest }

def depth (execution : Execution) : Nat := execution.calls.length + 1

def isFinished (execution : Execution) : Bool := execution.program.size ≤ execution.pc

def instruction? (execution : Execution) : Option Instruction :=
  execution.program.code[execution.pc]?

def pendingWait? (execution : Execution) : Option WaitRequirement :=
  match execution.instruction? with
  | some ⟨.wait all names, _⟩ => some ⟨all, names⟩
  | _ => none

def lookup? (execution : Execution) (name : String) : Option Value :=
  (execution.frame.get? name).or (execution.globals.get? name)

def setLocal (execution : Execution) (name : String) (value : Value) : Execution :=
  execution.modifyFrame fun frame => frame.set name value

def setGlobal (execution : Execution) (name : String) (value : Value) : Execution :=
  { execution with globals := execution.globals.set name value }

/-- A known global is written through; any other name belongs to the running frame. -/
def assign (execution : Execution) (name : String) (value : Value) : Execution :=
  if Table.contains name execution.globals.vars then execution.setGlobal name value
  else execution.setLocal name value

def sameFrames (objects : Objects) : List Frame → List Frame → Bool
  | [], [] => true
  | a :: as, b :: bs => a.same objects b && sameFrames objects as bs
  | _, _ => false

def same (objects : Objects) (left right : Execution) : Bool :=
  left.program.same right.program && sameFrames objects left.frames right.frames &&
    left.pc == right.pc && left.steps == right.steps && left.lastInterrupt == right.lastInterrupt

end Execution

end DurableScript
