import DurableScript.Position

namespace DurableScript

inductive RunFault where
  | variableNotFound (name : String)
  | functionNotFound (name : String)
  | objectNotFound (name : String)
  | methodNotFound (name : String) (typeName : String)
  | propertyNotFound (name : String)
  | stackCount (expected actual : Nat)
  | cycleLimit (limit : Nat)
  | callDepth (limit : Nat)
  | referenceNotFound (id : String)
  | typeMismatch (message : String)
  | divisionByZero
  | stackUnderflow
  | jumpOutOfRange (target size : Nat)
  | host (message : String)
  | noProgram
  deriving DecidableEq

namespace RunFault

def message : RunFault → String
  | variableNotFound name => "variable not found: " ++ name
  | functionNotFound name => "function not found: " ++ name
  | objectNotFound name => "object not found: " ++ name
  | methodNotFound name typeName => "object function not found: " ++ name ++ " on " ++ typeName
  | propertyNotFound name => "property not found: " ++ name
  | stackCount expected actual =>
    "expected stack count: " ++ toString expected ++ ", actual: " ++ toString actual
  | cycleLimit limit => "max cycles reached (" ++ toString limit ++ ")"
  | callDepth limit => "max call depth exceeded (" ++ toString limit ++ ")"
  | referenceNotFound id => "reference not found: " ++ id
  | typeMismatch text => "type error: " ++ text
  | divisionByZero => "division by zero"
  | stackUnderflow => "stack underflow"
  | jumpOutOfRange target size =>
    "jump target " ++ toString target ++ " out of range (program has " ++ toString size ++
      " instructions)"
  | host text => text
  | noProgram => "no program loaded"

end RunFault

structure RunError where
  fault : RunFault
  pos : Option SourcePos
  deriving DecidableEq

namespace RunError

def ofFault (fault : RunFault) : RunError := ⟨fault, none⟩

def message (e : RunError) : String :=
  "runtime error: " ++ e.fault.message ++ SourcePos.suffix e.pos

def locate (e : RunError) (pos : Option SourcePos) : RunError :=
  match e.fault, e.pos with
  | .noProgram, _ => e
  | _, some _ => e
  | _, none => { e with pos := pos }

end RunError

end DurableScript
