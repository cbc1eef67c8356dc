import DurableScript.Bytes
import DurableScript.FormatError
import DurableScript.Program

namespace DurableScript

namespace Literal

def bytes : Literal → List UInt8
  | null => Bytes.number 0
  | bool b => Bytes.number 1 ++ Bytes.bool b
  | int n => Bytes.number 2 ++ Bytes.signed n
  | double bits => Bytes.number 3 ++ Bytes.word bits
  | str s => Bytes.number 4 ++ Bytes.text s

def readBytes : Bytes.Reader Literal := do
  match ← Bytes.readSmall with
  | 0 => return null
  | 1 => return bool (← Bytes.readBool)
  | 2 => return int (← Bytes.readSigned)
  | 3 => return double (← Bytes.readWord)
  | 4 => return str (← Bytes.readText)
  | _ => failure

end Literal

def Operator.bytes (op : Operator) : List UInt8 := Bytes.number (Operator.all.idxOf op)

def Operator.readBytes : Bytes.Reader Operator := do
  match Operator.all[← Bytes.readSmall]? with
  | some op => return op
  | none => failure

def Builtin.bytes (function : Builtin) : List UInt8 := Bytes.number (Builtin.all.idxOf function)

def Builtin.readBytes : Bytes.Reader Builtin := do
  match Builtin.all[← Bytes.readSmall]? with
  | some function => return function
  | none => failure

namespace Op

def bytes : Op → List UInt8
  | pushValue literal => Bytes.number 0 ++ literal.bytes
  | pushVariable name => Bytes.number 1 ++ Bytes.text name
  | operate op => Bytes.number 2 ++ op.bytes
  | setVariable name => Bytes.number 3 ++ Bytes.text name
  | call name argc restart =>
    Bytes.number 4 ++ Bytes.text name ++ Bytes.number argc ++ Bytes.number restart
  | callMethod object name argc restart =>
    Bytes.number 5 ++ Bytes.text object ++ Bytes.text name ++ Bytes.number argc ++
      Bytes.number restart
  | jumpUnless target => Bytes.number 6 ++ Bytes.number target
  | stop => Bytes.number 7
  | jump target => Bytes.number 8 ++ Bytes.number target
  | callBuiltin function argc => Bytes.number 9 ++ function.bytes ++ Bytes.number argc
  | nop => Bytes.number 10
  | wait all names => Bytes.number 11 ++ Bytes.bool all ++ Bytes.sequence Bytes.text names
  | pushResult => Bytes.number 12
  | expectStack count => Bytes.number 13 ++ Bytes.number count
  | ret hasValue => Bytes.number 14 ++ Bytes.bool hasValue
  | pushProperty name => Bytes.number 15 ++ Bytes.text name
  | invert => Bytes.number 16

def readBytes : Bytes.Reader Op := do
  match ← Bytes.readSmall with
  | 0 => return pushValue (← Literal.readBytes)
  | 1 => return pushVariable (← Bytes.readText)
  | 2 => return operate (← Operator.readBytes)
  | 3 => return setVariable (← Bytes.readText)
  | 4 => return call (← Bytes.readText) (← Bytes.readNumber) (← Bytes.readNumber)
  | 5 =>
    return callMethod (← Bytes.readText) (← Bytes.readText) (← Bytes.readNumber)
      (← Bytes.readNumber)
  | 6 => return jumpUnless (← Bytes.readNumber)
  | 7 => return stop
  | 8 => return jump (← Bytes.readNumber)
  | 9 => return callBuiltin (← Builtin.readBytes) (← Bytes.readNumber)
  | 10 => return nop
  | 11 => return wait (← Bytes.readBool) (← Bytes.readSequence Bytes.readText)
  | 12 => return pushResult
  | 13 => return expectStack (← Bytes.readNumber)
  | 14 => return ret (← Bytes.readBool)
  | 15 => return pushProperty (← Bytes.readText)
  | 16 => return invert
  | _ => failure

end Op

def SourcePos.bytes (pos : SourcePos) : List UInt8 :=
  Bytes.number pos.line.toNat ++ Bytes.number pos.column.toNat ++ Bytes.number pos.width.toNat

def SourcePos.readBytes : Bytes.Reader SourcePos := do
  let line ← Bytes.readSmall
  let column ← Bytes.readSmall
  let width ← Bytes.readSmall
  return ⟨line.toUInt32, column.toUInt32, width.toUInt32⟩

def Instruction.bytes (instruction : Instruction) : List UInt8 :=
  instruction.op.bytes ++ Bytes.option SourcePos.bytes instruction.pos

def Instruction.readBytes : Bytes.Reader Instruction := do
  let op ← Op.readBytes
  let pos ← Bytes.readOption SourcePos.readBytes
  return ⟨op, pos⟩

namespace Program

def entryBytes (procedure : String × Nat) : List UInt8 :=
  Bytes.text procedure.1 ++ Bytes.number procedure.2

def readEntry : Bytes.Reader (String × Nat) := do
  let name ← Bytes.readText
  let entry ← Bytes.readNumber
  return (name, entry)

def toBytes (program : Program) : List UInt8 :=
  Bytes.sequence Instruction.bytes program.code.toList ++
    Bytes.sequence entryBytes program.procedures

def readBytes : Bytes.Reader Program := do
  let code ← Bytes.readSequence Instruction.readBytes
  let procedures ← Bytes.readSequence readEntry
  return ⟨code.toArray, Table.ofPairs procedures⟩

def checked (program : Program) : Except FormatError Program :=
  match program.firstInvalid? with
  | none => .ok program
  | some (index, target) => .error (.malformedInstruction index (.wildTarget target))

def ofBytes (bytes : List UInt8) : Except FormatError Program :=
  match readBytes bytes with
  | none => .error .binary
  | some (program, _) => program.checked

end Program

end DurableScript
