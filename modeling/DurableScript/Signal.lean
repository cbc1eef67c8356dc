namespace DurableScript

structure WaitRequirement where
  all : Bool
  names : List String
  deriving DecidableEq

namespace WaitRequirement

def isMet (wait : WaitRequirement) (signals : List String) : Bool :=
  if wait.all then wait.names.all (signals.contains ·) else wait.names.any (signals.contains ·)

end WaitRequirement

end DurableScript
