import DurableScript.Instruction
import DurableScript.Table

namespace DurableScript

structure Program where
  code : Array Instruction
  procedures : Table Nat

namespace Program

def empty : Program := ⟨#[], []⟩

instance : Inhabited Program := ⟨empty⟩

def size (program : Program) : Nat := program.code.size

def entry? (program : Program) (name : String) : Option Nat :=
  Table.find? name program.procedures

def firstWildJump (size : Nat) (index : Nat) : List Instruction → Option (Nat × Nat)
  | [] => none
  | instruction :: rest =>
    match instruction.op.targets.find? fun target => size < target with
    | some target => some (index, target)
    | none => firstWildJump size (index + 1) rest

def firstWildEntry (size : Nat) : Table Nat → Option (Nat × Nat)
  | [] => none
  | (_, entry) :: rest => if size ≤ entry then some (entry, entry) else firstWildEntry size rest

def firstInvalid? (program : Program) : Option (Nat × Nat) :=
  (firstWildJump program.size 0 program.code.toList).or
    (firstWildEntry program.size program.procedures)

def sameCode : List Instruction → List Instruction → Bool
  | [], [] => true
  | a :: as, b :: bs => a.same b && sameCode as bs
  | _, _ => false

def same (left right : Program) : Bool :=
  sameCode left.code.toList right.code.toList &&
    left.procedures.length == right.procedures.length &&
    left.procedures.all fun (name, entry) => right.entry? name == some entry

end Program

end DurableScript
