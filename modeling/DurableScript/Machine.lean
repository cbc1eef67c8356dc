import DurableScript.Builtin
import DurableScript.Host
import DurableScript.Limits
import DurableScript.Value.Arithmetic

/-!
Execution, one instruction at a time. An instruction that fails leaves behind what it did before it
failed.
-/

namespace DurableScript

structure Setting (H : Type) where
  functions : List (FunctionProvider H)
  methods : List (MethodProvider H)
  signals : List String
  limits : Limits

structure Machine (H : Type) where
  execution : Execution
  status : Status
  world : World H

inductive Outcome (H : Type) where
  | ok (machine : Machine H)
  | fail (error : RunError) (machine : Machine H)

namespace Outcome

variable {H : Type}

def machine : Outcome H → Machine H
  | ok machine => machine
  | fail _ machine => machine

def error? : Outcome H → Option RunError
  | ok _ => none
  | fail error _ => some error

def atPos (pos : Option SourcePos) : Outcome H → Outcome H
  | ok machine => ok machine
  | fail error machine => fail (error.locate pos) machine

end Outcome

namespace Machine

variable {H : Type}

def failWith (machine : Machine H) (fault : RunFault) : Outcome H :=
  .fail (.ofFault fault) machine

def modifyFrame (machine : Machine H) (f : Frame → Frame) : Machine H :=
  { machine with execution := machine.execution.modifyFrame f }

def stack (machine : Machine H) : List Value := machine.execution.frame.stack

def setStack (machine : Machine H) (stack : List Value) : Machine H :=
  machine.modifyFrame fun frame => { frame with stack := stack }

def push (machine : Machine H) (value : Value) : Machine H :=
  machine.modifyFrame fun frame => frame.push value

def setResult (machine : Machine H) (value : Value) : Machine H :=
  machine.modifyFrame fun frame => { frame with result := value }

def goTo (machine : Machine H) (index : Nat) : Machine H :=
  { machine with execution := { machine.execution with pc := index } }

def advance (machine : Machine H) : Machine H := machine.goTo (machine.execution.pc + 1)

def jump (machine : Machine H) (target : Nat) : Outcome H :=
  let size := machine.execution.program.size
  if size < target then machine.failWith (.jumpOutOfRange target size)
  else .ok (machine.goTo target)

def pause (machine : Machine H) (reason : PauseReason) : Machine H :=
  { machine with status := { machine.status with running := false, reason := some reason } }

def popThen (machine : Machine H) (next : Value → Machine H → Outcome H) : Outcome H :=
  match machine.stack with
  | [] => machine.failWith .stackUnderflow
  | value :: rest => next value (machine.setStack rest)

/-- Takes the arguments of a call, the first from the top, and goes on with them. When there are too
few, all are gone. -/
def popArgsThen (machine : Machine H) (argc : Nat) (next : List Value → Machine H → Outcome H) :
    Outcome H :=
  if machine.stack.length < argc then (machine.setStack []).failWith .stackUnderflow
  else next (machine.stack.take argc) (machine.setStack (machine.stack.drop argc))

def resolve (machine : Machine H) (ref : ObjectRef Value) :
    Except RunFault (HostObject Value × Machine H) :=
  match machine.world.objects.resolve ref with
  | .ok (object, objects) =>
    .ok (object, { machine with world := { machine.world with objects := objects } })
  | .error id => .error (.referenceNotFound id)

def readVariable (machine : Machine H) (name : String) : Except RunFault (Value × Machine H) :=
  match machine.execution.lookup? name with
  | none => .error (.variableNotFound name)
  | some (.object ref) =>
    (machine.resolve ref).map fun (_, machine) => (.object ref, machine)
  | some value => .ok (value, machine)

def propertyIn (fields : Table Value) (name : String) : Except RunFault Value :=
  match Table.find? name fields with
  | some value => .ok value
  | none => .error (.propertyNotFound name)

def property (machine : Machine H) (name : String) : Value → Except RunFault Value × Machine H
  | .record fields => (propertyIn fields name, machine)
  | .object ref =>
    match machine.resolve ref with
    | .ok (object, machine) => (propertyIn object.properties name, machine)
    | .error fault => (.error fault, machine)
  | other => (.error (.typeMismatch ("property access on non-object " ++ other.typeName)), machine)

def callProcedure (setting : Setting H) (machine : Machine H) (entry argc : Nat) : Outcome H :=
  let tooDeep :=
    match setting.limits.maxCallDepth with
    | some limit => if limit < machine.execution.depth then some limit else none
    | none => none
  match tooDeep with
  | some limit => machine.failWith (.callDepth limit)
  | none =>
    machine.popArgsThen argc fun args machine =>
      let frame : Frame := ⟨[], args.reverse, .null, some (machine.execution.pc + 1)⟩
      let execution := machine.execution
      jump { machine with execution := { execution with calls := frame :: execution.calls } } entry

def context (setting : Setting H) (machine : Machine H) : CallContext :=
  ⟨machine.execution, setting.signals, machine.status⟩

/-- Takes over what a provider did, and its answer. A call that has not taken effect is made again
from its arguments on. -/
def conclude (machine : Machine H) (restart : Nat) (reply : Reply) (world : World H) : Outcome H :=
  let execution := reply.writes.foldl HostWrite.run machine.execution
  let machine := { machine with execution := execution, world := world }
  let interrupted (kind : InterruptKind) (extra : Option Value) (machine : Machine H) :
      Machine H :=
    let marked : Machine H :=
      { machine with
        execution := { machine.execution with lastInterrupt := some kind }
        status := { machine.status with extra := extra } }
    marked.pause .hostRequest
  match reply.outcome with
  | .error error => .fail error machine
  | .ok (.value result) => .ok (machine.setResult result).advance
  | .ok (.after result extra) => .ok (interrupted .after extra (machine.setResult result).advance)
  | .ok (.before extra) =>
    match machine.jump restart with
    | .ok machine => .ok (interrupted .before extra machine)
    | failed => failed

def callFunction (setting : Setting H) (machine : Machine H) (name : String) (argc restart : Nat) :
    Outcome H :=
  match setting.functions.find? fun provider => provider.supports name with
  | none => machine.failWith (.functionNotFound name)
  | some provider =>
    machine.popArgsThen argc fun args machine =>
      let (reply, world) := provider.invoke (machine.context setting) name args machine.world
      machine.conclude restart reply world

def receiver (machine : Machine H) (name : String) :
    Except RunFault (Value × String × Machine H) :=
  match machine.readVariable name with
  | .error (.variableNotFound _) => .error (.objectNotFound name)
  | .error fault => .error fault
  | .ok (.record fields, machine) => .ok (.record fields, "record", machine)
  | .ok (.object ref, machine) =>
    (machine.resolve ref).map fun (object, machine) => (.object ref, object.typeName, machine)
  | .ok _ => .error (.objectNotFound name)

def callMethod (setting : Setting H) (machine : Machine H) (object name : String)
    (argc restart : Nat) : Outcome H :=
  match machine.receiver object with
  | .error fault => machine.failWith fault
  | .ok (value, typeName, machine) =>
    match setting.methods.find? fun provider => provider.supports typeName name with
    | none => machine.failWith (.methodNotFound name typeName)
    | some provider =>
      machine.popArgsThen argc fun args machine =>
        let (reply, world) :=
          provider.invoke (machine.context setting) value name args machine.world
        machine.conclude restart reply world

def setCallerResult (execution : Execution) (value : Value) : Execution :=
  match execution.calls with
  | call :: caller :: rest =>
    { execution with calls := call :: { caller with result := value } :: rest }
  | _ => { execution with globals := { execution.globals with result := value } }

def leave (machine : Machine H) (value : Value) : Outcome H :=
  let execution := setCallerResult machine.execution value
  let size := execution.program.size
  match execution.calls with
  | call :: rest =>
    jump { machine with execution := { execution with calls := rest } } (call.returnTo.getD size)
  | [] => .ok (({ machine with execution := execution } : Machine H).goTo size |>.pause .returned)

def execute (setting : Setting H) (machine : Machine H) : Op → Outcome H
  | .pushValue literal => .ok (machine.push literal.value).advance
  | .pushVariable name =>
    match machine.readVariable name with
    | .ok (value, machine) => .ok (machine.push value).advance
    | .error fault => machine.failWith fault
  | .operate op =>
    machine.popThen fun right machine =>
      machine.popThen fun left machine =>
        match Value.apply machine.world.objects op left right with
        | .ok value => .ok (machine.push value).advance
        | .error fault => machine.failWith fault
  | .setVariable name =>
    machine.popThen fun value machine =>
      .ok ({ machine with execution := machine.execution.assign name value } : Machine H).advance
  | .call name argc restart =>
    match machine.execution.program.entry? name with
    | some entry => callProcedure setting machine entry argc
    | none => callFunction setting machine name argc restart
  | .callMethod object name argc restart => callMethod setting machine object name argc restart
  | .jumpUnless target =>
    machine.popThen fun condition machine =>
      if condition.truthy then .ok machine.advance else machine.jump target
  | .stop => .ok (machine.advance.pause .stop)
  | .jump target => machine.jump target
  | .callBuiltin function argc =>
    machine.popArgsThen argc fun args machine =>
      match function.run args setting.signals with
      | .ok value => .ok (machine.push value).advance
      | .error fault => machine.failWith fault
  | .nop => .ok machine.advance
  | .wait all names =>
    let wait : WaitRequirement := ⟨all, names⟩
    if wait.isMet setting.signals then .ok machine.advance
    else
      .ok (pause { machine with status := { machine.status with waitingFor := some wait } } .wait)
  | .pushResult => .ok (machine.push machine.execution.frame.result).advance
  | .expectStack count =>
    let actual := machine.stack.length
    if actual = count then .ok machine.advance else machine.failWith (.stackCount count actual)
  | .ret true => machine.popThen fun value machine => machine.leave value
  | .ret false => machine.leave .null
  | .pushProperty name =>
    machine.popThen fun object machine =>
      match machine.property name object with
      | (.ok value, machine) => .ok (machine.push value).advance
      | (.error fault, machine) => machine.failWith fault
  | .invert => machine.popThen fun value machine => .ok (machine.push (.bool !value.truthy)).advance

def clearMarks (machine : Machine H) : Machine H :=
  { machine with
    execution := { machine.execution with lastInterrupt := none }
    status := { machine.status with waitingFor := none } }

def countStep (machine : Machine H) : Machine H :=
  { machine with execution := { machine.execution with steps := machine.execution.steps + 1 } }

def limitReached? (setting : Setting H) (machine : Machine H) : Option Nat :=
  match setting.limits.maxCycles with
  | some limit => if limit ≤ machine.execution.steps then some limit else none
  | none => none

/-- Whether the limit stops a machine after a step: one that has paused or reached the end has no
need of another. -/
def checkLimit (setting : Setting H) (machine : Machine H) (pos : Option SourcePos) : Outcome H :=
  match machine.limitReached? setting with
  | some limit =>
    if machine.status.running && !machine.execution.isFinished then
      .fail ⟨.cycleLimit limit, pos⟩ machine
    else .ok machine
  | none => .ok machine

/-- One step: the instruction is executed and counted, within the limits. A wait that is not met
does not count. -/
def step (setting : Setting H) (machine : Machine H) (instruction : Instruction) : Outcome H :=
  match machine.limitReached? setting with
  | some limit => .fail ⟨.cycleLimit limit, instruction.pos⟩ machine
  | none =>
    match (execute setting machine.clearMarks instruction.op).atPos instruction.pos with
    | .fail error machine => .fail error machine
    | .ok machine =>
      if machine.status.waitingFor.isSome then .ok machine
      else machine.countStep.checkLimit setting instruction.pos

def next? (machine : Machine H) : Option Instruction :=
  if machine.status.running then machine.execution.instruction? else none

def settle (machine : Machine H) : Machine H :=
  if machine.execution.isFinished then
    { machine with status := { machine.status with running := false, waitingFor := none } }
  else machine

def runFor (setting : Setting H) : Nat → Machine H → Option (Outcome H)
  | fuel, machine =>
    match machine.next? with
    | none => some (.ok machine.settle)
    | some instruction =>
      match fuel with
      | 0 => none
      | fuel + 1 =>
        match machine.step setting instruction with
        | .ok machine => runFor setting fuel machine
        | failed => some failed

end Machine

end DurableScript
