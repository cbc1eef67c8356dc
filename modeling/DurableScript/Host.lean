import DurableScript.Execution
import DurableScript.RunError
import DurableScript.Signal

namespace DurableScript

inductive PauseReason where
  | hostRequest
  | stop
  | returned
  | wait
  deriving DecidableEq

structure Status where
  running : Bool
  reason : Option PauseReason
  waitingFor : Option WaitRequirement
  extra : Option Value

namespace Status

def idle : Status := ⟨false, none, none, none⟩

def started : Status := ⟨true, none, none, none⟩

end Status

structure CallContext where
  execution : Execution
  signals : List String
  status : Status

structure World (H : Type) where
  objects : Objects
  host : H

inductive HostWrite where
  | toFrame (name : String) (value : Value)
  | toGlobals (name : String) (value : Value)

namespace HostWrite

def run (execution : Execution) : HostWrite → Execution
  | toFrame name value => execution.setLocal name value
  | toGlobals name value => execution.setGlobal name value

end HostWrite

inductive Answer where
  | value (result : Value)
  | before (extra : Option Value)
  | after (result : Value) (extra : Option Value)

/-- The writes take effect in their order, also when the call fails. -/
structure Reply where
  writes : List HostWrite
  outcome : Except RunError Answer

structure FunctionProvider (H : Type) where
  supports : String → Bool
  invoke : CallContext → String → List Value → World H → Reply × World H

structure MethodProvider (H : Type) where
  supports : String → String → Bool
  invoke : CallContext → Value → String → List Value → World H → Reply × World H

end DurableScript
