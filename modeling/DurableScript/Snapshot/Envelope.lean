import DurableScript.Json.Document
import DurableScript.Position

namespace DurableScript

open scoped Power

namespace Snapshot

structure FrameForm where
  vars : Json
  stack : Json
  result : Json
  returnTo : Option Nat

structure InstructionForm where
  code : Nat
  operands : Json
  pos : Option SourcePos

structure Envelope where
  version : Nat
  frames : List FrameForm
  instructions : List InstructionForm
  procedures : Json
  index : Json
  steps : Nat
  lastInterrupt : Option Nat

def posJson (pos : SourcePos) : Json :=
  .obj [("l", .ofNat pos.line.toNat), ("p", .ofNat pos.column.toNat),
    ("w", .ofNat pos.width.toNat)]

def FrameForm.json (form : FrameForm) : Json :=
  .obj [("v", form.vars), ("s", form.stack), ("r", form.result),
    ("p", .ofOption .ofNat form.returnTo)]

def InstructionForm.json (form : InstructionForm) : Json :=
  .obj [("o", .ofNat form.code), ("a", form.operands), ("t", .ofOption posJson form.pos)]

def Envelope.json (envelope : Envelope) : Json :=
  .obj [("v", .ofNat envelope.version), ("s", .arr (envelope.frames.map FrameForm.json)),
    ("ic", .obj [("i", .arr (envelope.instructions.map InstructionForm.json)),
      ("p", envelope.procedures)]),
    ("i", envelope.index), ("c", .ofNat envelope.steps),
    ("l", .ofOption .ofNat envelope.lastInterrupt)]

def word? : Document → Option Nat := Document.natBelow? (2 ^ (64 : Nat))

def smallWord? (document : Document) : Option UInt32 :=
  (document.natBelow? (2 ^ (32 : Nat))).map UInt32.ofNat

def readPos (document : Document) : Option SourcePos := do
  match ← document.parts? ["l", "p", "w"] with
  | [some line, some column, width] =>
    return ⟨← smallWord? line, ← smallWord? column, ← Document.withDefault? 0 smallWord? width⟩
  | _ => none

/-- Frames lie three levels deep in the document. -/
def readFrame (document : Document) : Option FrameForm := do
  match ← document.parts? ["v", "s", "r", "p"] with
  | [some vars, some stack, result, returnTo] =>
    let value := Document.toJson? (Json.maxLevels - 3)
    return ⟨← value vars, ← value stack, ← Document.withDefault? .null value result,
      ← Document.optional? word? returnTo⟩
  | _ => none

/-- Instructions lie four levels deep in the document. -/
def readInstruction (document : Document) : Option InstructionForm := do
  match ← document.parts? ["o", "a", "t"] with
  | [some code, some operands, pos] =>
    return ⟨← word? code, ← operands.toJson? (Json.maxLevels - 4), ← Document.optional? readPos pos⟩
  | _ => none

def readProgram (document : Document) : Option (List InstructionForm × Json) := do
  match ← document.parts? ["i", "p"] with
  | [some instructions, some procedures] =>
    return (← instructions.each? readInstruction, ← procedures.toJson? (Json.maxLevels - 2))
  | _ => none

def readEnvelope (document : Document) : Option Envelope := do
  match ← document.parts? ["v", "s", "ic", "i", "c", "l"] with
  | [some version, some frames, some program, some index, steps, lastInterrupt] =>
    let version ← word? version
    let frames ← frames.each? readFrame
    let (instructions, procedures) ← readProgram program
    return ⟨version, frames, instructions, procedures, ← index.toJson? (Json.maxLevels - 1),
      ← Document.withDefault? 0 word? steps, ← Document.optional? word? lastInterrupt⟩
  | _ => none

end Snapshot

end DurableScript
