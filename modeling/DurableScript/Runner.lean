import DurableScript.Machine

namespace DurableScript

structure Runner (H : Type) where
  execution : Execution
  loaded : Bool
  functions : List (FunctionProvider H)
  methods : List (MethodProvider H)
  signals : List String
  status : Status
  limits : Limits

namespace Runner

variable {H : Type}

def ofLimits (limits : Limits) : Runner H := ⟨.empty, false, [], [], [], .idle, limits⟩

def addFunctions (runner : Runner H) (provider : FunctionProvider H) : Runner H :=
  { runner with functions := runner.functions ++ [provider] }

def addMethods (runner : Runner H) (provider : MethodProvider H) : Runner H :=
  { runner with methods := runner.methods ++ [provider] }

/-- Gives the execution a program. An execution that was resumed stays where it is, which must be
inside the new program. -/
def load (runner : Runner H) (program : Program) : Except RunError (Runner H) :=
  if program.size < runner.execution.pc then
    .error (.ofFault (.jumpOutOfRange runner.execution.pc program.size))
  else
    .ok { runner with execution := { runner.execution with program := program }, loaded := true }

def loadGlobals (runner : Runner H) (vars : List (String × Value)) : Runner H :=
  let execution := vars.foldl (fun execution (name, value) => execution.setGlobal name value)
    runner.execution
  { runner with execution := execution }

def loadSignals (runner : Runner H) (signals : List String) : Runner H :=
  { runner with signals := signals }

def reset (runner : Runner H) : Runner H :=
  { runner with execution := .empty, loaded := false, signals := [], status := .idle }

def take (runner : Runner H) : Execution × Runner H :=
  (runner.execution, { runner with execution := .empty, loaded := false })

def context (runner : Runner H) : CallContext := ⟨runner.execution, runner.signals, runner.status⟩

def setting (runner : Runner H) : Setting H :=
  ⟨runner.functions, runner.methods, runner.signals, runner.limits⟩

def machine (runner : Runner H) (world : World H) : Machine H :=
  ⟨runner.execution, .started, world⟩

def absorb (runner : Runner H) (outcome : Outcome H) : Runner H × World H :=
  let machine := outcome.machine
  let status :=
    if outcome.error?.isSome then { machine.status with running := false } else machine.status
  ({ runner with execution := machine.execution, status := status }, machine.world)

def run (fuel : Nat) (runner : Runner H) (world : World H) :
    Option (Option RunError × Runner H × World H) :=
  if runner.loaded then
    (Machine.runFor runner.setting fuel (runner.machine world)).map fun outcome =>
      (outcome.error?, runner.absorb outcome)
  else some (some (.ofFault .noProgram), runner, world)

def resume (fuel : Nat) (runner : Runner H) (world : World H) (execution : Option Execution) :
    Option (Option RunError × Runner H × World H) :=
  match execution with
  | none => run fuel runner world
  | some execution => run fuel { runner with execution := execution, loaded := true } world

def popValue (runner : Runner H) : Value × Runner H :=
  match runner.execution.frame.stack with
  | [] => (.null, runner)
  | value :: rest =>
    let execution := runner.execution.modifyFrame fun frame => { frame with stack := rest }
    (value, { runner with execution })

def runExpression (fuel : Nat) (runner : Runner H) (world : World H) :
    Option (Except RunError Value × Runner H × World H) :=
  (run fuel runner world).map fun (error?, runner, world) =>
    match error? with
    | some error => (.error error, runner, world)
    | none =>
      let (value, runner) := runner.popValue
      (.ok value, runner, world)

end Runner

end DurableScript
