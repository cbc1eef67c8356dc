import DurableScript.Execution
import DurableScript.Program.Binary
import DurableScript.Snapshot.Envelope
import DurableScript.Snapshot.Restore
import DurableScript.Snapshot.Write

namespace DurableScript

namespace Snapshot

abbrev Operands := StateT (List Value) (Except FormatError)

namespace Operands

def next (index : Nat) (kind : OperandKind) : Operands Value
  | [] => .error (.malformedInstruction index (.missingOperand kind))
  | value :: rest => .ok (value, rest)

def wrong {α : Type} (index : Nat) (kind : OperandKind) (found : Value) : Operands α :=
  throw (.malformedInstruction index (.wrongOperand kind found.typeName))

def string (index : Nat) : Operands String := do
  match ← next index .string with
  | .str s => return s
  | other => wrong index .string other

def count (index : Nat) : Operands Nat := do
  match ← next index .index with
  | .int n => if 0 ≤ n.toInt then return n.toInt.toNat else wrong index .index (.int n)
  | other => wrong index .index other

def bool (index : Nat) : Operands Bool := do
  match ← next index .bool with
  | .bool b => return b
  | other => wrong index .bool other

def literal (index : Nat) : Operands Literal := do
  match ← next index .literal with
  | .null => return .null
  | .bool b => return .bool b
  | .int n => return .int n
  | .float x => return .float x
  | .str s => return .str s
  | other => wrong index .literal other

def strings (index : Nat) (values : List Value) :
    Except FormatError (List String × List Value) := do
  let names ← values.mapM fun value =>
    match value with
    | .str s => .ok s
    | other => .error (.malformedInstruction index (.wrongOperand .string other.typeName))
  return (names, [])

def operator (index : Nat) : Operands Operator := do
  let symbol ← string index
  match Operator.ofSymbol? symbol with
  | some op => return op
  | none => throw (.unknownOperator index symbol)

def builtin (index : Nat) : Operands Builtin := do
  let name ← string index
  match Builtin.ofName? name with
  | some function => return function
  | none => throw (.malformedInstruction index (.unknownBuiltin name))

end Operands

open Operands in
def readOp (index code : Nat) : Operands Op := do
  match code with
  | 1 => return .pushValue (← literal index)
  | 2 => return .pushVariable (← string index)
  | 3 => return .operate (← operator index)
  | 4 => return .setVariable (← string index)
  | 5 => return .call (← string index) (← count index) (← count index)
  | 6 => return .callMethod (← string index) (← string index) (← count index) (← count index)
  | 7 => return .jumpUnless (← count index)
  | 8 => return .stop
  | 9 => return .jump (← count index)
  | 10 => return .callBuiltin (← builtin index) (← count index)
  | 11 => return .nop
  | 12 => return .wait (← bool index) (← strings index)
  | 13 => return .pushResult
  | 14 => return .expectStack (← count index)
  | 15 => return .ret (← bool index)
  | 16 => return .pushProperty (← string index)
  | 19 => return .invert
  | other => throw (.unknownInstruction index other)

def readOperands (index : Nat) : Value → Except FormatError (List Value)
  | .list values => .ok values
  | .null => .ok []
  | _ => .error (.malformedInstruction index .operandsNotList)

def readProcedures : Json → Except FormatError (Table Nat)
  | .obj members =>
    members.mapM fun (name, entry) =>
      match entry.word? with
      | some n => .ok (name, n)
      | none => .error (.malformedExecution (.entryNotIndex name))
  | .arr [] => .ok []
  | _ => .error (.malformedExecution .proceduresNotObject)

def untagName (name : String) : String :=
  match name.toList with
  | 's' :: ':' :: rest => String.ofList rest
  | _ => name

section

variable (sources : Sources) (source : Nat)

def restoreJson (json : Json) : Restoring Value := (Tagged.ofJson json).restore sources source

def restoreInstruction (index : Nat) (form : InstructionForm) : Restoring Instruction := do
  let decoded ← restoreJson sources source form.operands
  let operands ← Restoring.ofExcept (readOperands index decoded)
  let (op, _) ← Restoring.ofExcept ((readOp index form.code).run operands)
  return ⟨op, form.pos⟩

def restoreCode (index : Nat) : List InstructionForm → Restoring (List Instruction)
  | [] => return []
  | form :: rest => do
    let instruction ← restoreInstruction sources source index form
    let others ← restoreCode (index + 1) rest
    return instruction :: others

def restoreVariables (done : Table Value) : List (String × Json) → Restoring (Table Value)
  | [] => return done
  | (name, json) :: rest => do
    let value ← restoreJson sources source json
    restoreVariables (Table.insert (untagName name) value done) rest

def restoreFrame (form : FrameForm) : Restoring Frame := do
  let vars ←
    match form.vars with
    | .obj members => restoreVariables sources source [] members
    | .arr [] => pure []
    | _ => throw (.malformedExecution .variablesNotObject)
  let stack ← restoreJson sources source form.stack
  match stack with
  | .list items =>
    let result ← restoreJson sources source form.result
    return ⟨vars, items.reverse, result, form.returnTo⟩
  | _ => throw (.malformedExecution .stackNotList)

def restoreFrames : List FrameForm → Restoring (List Frame)
  | [] => return []
  | form :: rest => do
    let frame ← restoreFrame sources source form
    let others ← restoreFrames rest
    return frame :: others

def restoreIndex (json : Json) : Restoring Nat := do
  let value ← restoreJson sources source json
  let shown := ExecutionFault.wrongIndex (value.describe (← get))
  match value with
  | .int n => if 0 ≤ n.toInt then return n.toInt.toNat else throw (.malformedExecution shown)
  | _ => throw (.malformedExecution shown)

def readInterrupt : Option Nat → Except FormatError (Option InterruptKind)
  | none => .ok none
  | some code =>
    match InterruptKind.ofCode? code with
    | some kind => .ok (some kind)
    | none => .error (.malformedExecution (.unknownInterrupt code))

def restoreExecution (envelope : Envelope) : Restoring Execution := do
  if envelope.version ≠ version then throw (.version envelope.version)
  let code ← restoreCode sources source 0 envelope.instructions
  let procedures ← Restoring.ofExcept (readProcedures envelope.procedures)
  let program ← Restoring.ofExcept (Program.checked ⟨code.toArray, procedures⟩)
  let frames ← restoreFrames sources source envelope.frames
  let index ← restoreIndex sources source envelope.index
  let lastInterrupt ← Restoring.ofExcept (readInterrupt envelope.lastInterrupt)
  if frames.isEmpty then throw (.malformedExecution .noFrames)
  match Execution.ofFrames? program frames index envelope.steps lastInterrupt with
  | some execution => return execution
  | none => throw (.malformedExecution (.indexPastEnd index program.size))

end

end Snapshot

def Execution.ofSnapshot (sources : Sources) (text : String) : Restoring Execution := do
  let (source, objects) := (← get).addSource sources.resolvers
  set objects
  match (Document.parse? text.toList).bind Snapshot.readEnvelope with
  | none => throw .json
  | some envelope => Snapshot.restoreExecution sources source envelope

end DurableScript
