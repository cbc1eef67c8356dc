import DurableScript.Execution
import DurableScript.Snapshot.Envelope
import DurableScript.Snapshot.Tagged

namespace DurableScript

namespace Op

def code : Op → Nat
  | pushValue _ => 1
  | pushVariable _ => 2
  | operate _ => 3
  | setVariable _ => 4
  | call .. => 5
  | callMethod .. => 6
  | jumpUnless _ => 7
  | stop => 8
  | jump _ => 9
  | callBuiltin .. => 10
  | nop => 11
  | wait .. => 12
  | pushResult => 13
  | expectStack _ => 14
  | ret _ => 15
  | pushProperty _ => 16
  | invert => 19

def indexValue (n : Nat) : Value := .int (Int64.ofNat n)

def operands : Op → List Value
  | pushValue literal => [literal.value]
  | pushVariable name => [.str name]
  | operate op => [.str op.symbol]
  | setVariable name => [.str name]
  | call name argc restart => [.str name, indexValue argc, indexValue restart]
  | callMethod object name argc restart =>
    [.str object, .str name, indexValue argc, indexValue restart]
  | jumpUnless target => [indexValue target]
  | jump target => [indexValue target]
  | callBuiltin function argc => [.str function.name, indexValue argc]
  | wait all names => .bool all :: names.map .str
  | expectStack count => [indexValue count]
  | ret hasValue => [.bool hasValue]
  | pushProperty name => [.str name]
  | _ => []

end Op

namespace Snapshot

def version : Nat := 1

def writeVariables (objects : Objects) : Table Value → Except FormatError (Table Json)
  | [] => .ok []
  | (name, value) :: rest => do
    let json ← value.toJson objects
    let others ← writeVariables objects rest
    return (name, json) :: others

def writeFrame (objects : Objects) (frame : Frame) : Except FormatError FrameForm := do
  let vars ← writeVariables objects frame.vars
  let stack ← Value.itemForms objects frame.stack.reverse
  let result ← frame.result.toJson objects
  return ⟨.obj vars, .arr stack, result, frame.returnTo⟩

def writeInstruction (objects : Objects) (instruction : Instruction) :
    Except FormatError InstructionForm := do
  let operands ← Value.itemForms objects instruction.op.operands
  return ⟨instruction.op.code, .arr operands, instruction.pos⟩

def writeExecution (objects : Objects) (execution : Execution) : Except FormatError Envelope := do
  let frames ← execution.frames.mapM (writeFrame objects)
  let instructions ← execution.program.code.toList.mapM (writeInstruction objects)
  let index ← (Op.indexValue execution.pc).toJson objects
  let procedures :=
    Json.obj (execution.program.procedures.map fun (name, entry) => (name, .ofNat entry))
  return ⟨version, frames, instructions, procedures, index, execution.steps,
    execution.lastInterrupt.map InterruptKind.code⟩

end Snapshot

def Execution.snapshot (objects : Objects) (execution : Execution) : Except FormatError String :=
  (Snapshot.writeExecution objects execution).map fun envelope => envelope.json.text

end DurableScript
