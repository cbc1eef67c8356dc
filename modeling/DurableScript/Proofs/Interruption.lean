import DurableScript.Proofs.Evaluation
import DurableScript.Proofs.Faults
import DurableScript.Proofs.Outline
import DurableScript.Proofs.Stops

/-!
Hosts that interrupt a script after some of their answers: step by step such a script goes the way
of the one that is not interrupted, and pauses on it.
-/

namespace DurableScript

/-- Which of the host's calls, by their number, pause the script once they are answered, and what is
attached to the interrupt. -/
abbrev Schedule := Nat → Option (Option Value)

def Schedule.never : Schedule := fun _ => none

def Answer.interrupt : Option (Option Value) → Answer → Answer
  | some extra, value result => after result extra
  | _, answer => answer

def Reply.interrupt (pause? : Option (Option Value)) (reply : Reply) : Reply :=
  { reply with outcome := reply.outcome.map (Answer.interrupt pause?) }

theorem Reply.interrupt_none (reply : Reply) : reply.interrupt none = reply := by
  obtain ⟨writes, error | answer⟩ := reply <;> rfl

variable {H : Type}

def Schedule.answer (schedule : Schedule) (call : HostCall) (world : World (H × List HostCall))
    (answer : World H → Reply × World H) : Reply × World (H × List HostCall) :=
  let found := answer ⟨world.objects, world.host.1⟩
  let calls := world.host.2
  (found.1.interrupt (schedule calls.length), ⟨found.2.objects, found.2.host, calls ++ [call]⟩)

def FunctionProvider.scheduled (schedule : Schedule) (provider : FunctionProvider H) :
    FunctionProvider (H × List HostCall) where
  supports := provider.supports
  invoke context name args world :=
    schedule.answer ⟨none, name, args⟩ world (provider.invoke context name args)

def MethodProvider.scheduled (schedule : Schedule) (provider : MethodProvider H) :
    MethodProvider (H × List HostCall) where
  supports := provider.supports
  invoke context object name args world :=
    schedule.answer ⟨some object, name, args⟩ world (provider.invoke context object name args)

def Setting.scheduled (schedule : Schedule) (setting : Setting H) :
    Setting (H × List HostCall) where
  functions := setting.functions.map (·.scheduled schedule)
  methods := setting.methods.map (·.scheduled schedule)
  signals := setting.signals
  limits := setting.limits

def Execution.onto (program : Program) (execution : Execution) : Execution :=
  { execution with program := program }

def CallContext.onto (program : Program) (context : CallContext) : CallContext :=
  { context with execution := context.execution.onto program }

/-- The host answers the same whichever of the two programs it is that runs. -/
structure Setting.CannotTell (setting : Setting H) (program other : Program) : Prop where
  functions : ∀ provider ∈ setting.functions, ∀ context name args world,
    context.execution.program = program →
      provider.invoke (context.onto other) name args world =
        provider.invoke context name args world
  methods : ∀ provider ∈ setting.methods, ∀ context object name args world,
    context.execution.program = program →
      provider.invoke (context.onto other) object name args world =
        provider.invoke context object name args world

namespace Execution

variable (program : Program) (execution : Execution)

theorem onto_modifyFrame (f : Frame → Frame) :
    (execution.onto program).modifyFrame f = (execution.modifyFrame f).onto program := by
  obtain ⟨_, _, calls, _, _, _⟩ := execution
  cases calls <;> rfl

theorem onto_assign (name : String) (value : Value) :
    (execution.onto program).assign name value = (execution.assign name value).onto program := by
  have hglobals : (execution.onto program).globals = execution.globals := rfl
  unfold assign
  rw [hglobals]
  split
  · rfl
  · exact onto_modifyFrame ..

theorem onto_write (write : HostWrite) :
    write.run (execution.onto program) = (write.run execution).onto program := by
  cases write with
  | toFrame name value => exact onto_modifyFrame program execution fun frame => frame.set name value
  | toGlobals name value => rfl

theorem onto_writes (writes : List HostWrite) :
    writes.foldl HostWrite.run (execution.onto program) =
      (writes.foldl HostWrite.run execution).onto program := by
  induction writes generalizing execution with
  | nil => rfl
  | cons write rest ih => rw [List.foldl_cons, List.foldl_cons, onto_write, ih]

end Execution

namespace Machine

def onto (program : Program) (machine : Machine H) : Machine H :=
  { machine with execution := machine.execution.onto program }

variable (program : Program) (machine : Machine H)

@[simp] theorem onto_world : (machine.onto program).world = machine.world := rfl

@[simp] theorem onto_stack : (machine.onto program).stack = machine.stack := rfl

theorem onto_modifyFrame (f : Frame → Frame) :
    (machine.onto program).modifyFrame f = (machine.modifyFrame f).onto program := by
  simp [modifyFrame, onto, Execution.onto_modifyFrame]

theorem onto_push (value : Value) :
    (machine.onto program).push value = (machine.push value).onto program := onto_modifyFrame ..

theorem onto_setStack (stack : List Value) :
    (machine.onto program).setStack stack = (machine.setStack stack).onto program :=
  onto_modifyFrame ..

theorem onto_setResult (value : Value) :
    (machine.onto program).setResult value = (machine.setResult value).onto program :=
  onto_modifyFrame ..

def written (writes : List HostWrite) (world : World H) : Machine H :=
  ⟨writes.foldl HostWrite.run machine.execution, machine.status, world⟩

theorem onto_written (writes : List HostWrite) (world : World H) :
    (machine.onto program).written writes world = (machine.written writes world).onto program := by
  simp [written, onto, Execution.onto_writes]

def interrupted (kind : InterruptKind) (extra : Option Value) : Machine H :=
  pause ⟨{ machine.execution with lastInterrupt := some kind },
    { machine.status with extra := extra }, machine.world⟩ .hostRequest

theorem conclude_eq (restart : Nat) (reply : Reply) (world : World H) :
    machine.conclude restart reply world =
      match reply.outcome with
      | .error error => .fail error (machine.written reply.writes world)
      | .ok (.value result) => .ok ((machine.written reply.writes world).setResult result).advance
      | .ok (.after result extra) =>
        .ok (((machine.written reply.writes world).setResult result).advance.interrupted .after
          extra)
      | .ok (.before extra) =>
        match (machine.written reply.writes world).jump restart with
        | .ok next => .ok (next.interrupted .before extra)
        | failed => failed := rfl

theorem onto_setCallerResult (execution : Execution) (value : Value) :
    setCallerResult (execution.onto program) value =
      (setCallerResult execution value).onto program := by
  obtain ⟨_, _, calls, _, _, _⟩ := execution
  match calls with
  | [] => rfl
  | [_] => rfl
  | _ :: _ :: _ => rfl

theorem program_setCallerResult (execution : Execution) (value : Value) :
    (setCallerResult execution value).program = execution.program := by
  unfold setCallerResult
  split <;> rfl

theorem onto_resolve (ref : ObjectRef Value) : (machine.onto program).resolve ref =
      (machine.resolve ref).map fun (object, next) => (object, next.onto program) := by
  have hworld : (machine.onto program).world = machine.world := rfl
  unfold resolve
  rw [hworld]
  cases machine.world.objects.resolve ref <;> rfl

theorem onto_readVariable (name : String) : (machine.onto program).readVariable name =
      (machine.readVariable name).map fun (value, next) => (value, next.onto program) := by
  have hlookup : (machine.onto program).execution.lookup? name = machine.execution.lookup? name :=
    rfl
  unfold readVariable
  rw [hlookup]
  split
  · rfl
  · rw [onto_resolve]
    cases machine.resolve _ <;> rfl
  · rfl

theorem onto_receiver (name : String) :
    (machine.onto program).receiver name = (machine.receiver name).map
      fun (value, typeName, next) => (value, typeName, next.onto program) := by
  unfold receiver
  rw [onto_readVariable]
  cases machine.readVariable name with
  | error fault => cases fault <;> rfl
  | ok found =>
    obtain ⟨value, next⟩ := found
    cases value with
    | object ref =>
      simp only [Except.map, onto_resolve]
      cases next.resolve ref <;> rfl
    | _ => rfl

theorem onto_property (name : String) (value : Value) : (machine.onto program).property name value =
      ((machine.property name value).1, (machine.property name value).2.onto program) := by
  cases value with
  | object ref =>
    simp only [property, onto_resolve]
    cases machine.resolve ref <;> rfl
  | _ => rfl

end Machine

namespace Outcome

def onto (program : Program) : Outcome H → Outcome H
  | ok machine => ok (machine.onto program)
  | fail error machine => fail error (machine.onto program)

/-- The second outcome is the first one on another program, save that it may have paused where the
first goes on. -/
inductive Parallel (program : Program) : Outcome H → Outcome H → Prop where
  | along {outcome : Outcome H} :
      (outcome.machine.status.running = true → outcome.machine.status = .started) →
      Parallel program outcome (outcome.onto program)
  | paused {machine : Machine H} {mark : Option InterruptKind} {status : Status} :
      machine.status = .started → status.running = false → status.waitingFor = none →
      Parallel program (.ok machine)
        (.ok ⟨{ machine.execution.onto program with lastInterrupt := mark }, status,
          machine.world⟩)

theorem Parallel.program_eq {program : Program} {outcome other : Outcome H}
    (h : Parallel program outcome other) : other.machine.execution.program = program := by
  cases h with
  | along => cases outcome <;> rfl
  | paused => rfl

theorem Parallel.ok {program : Program} {machine : Machine H} (hs : machine.status = .started) :
    Parallel program (.ok machine) (.ok (machine.onto program)) := .along fun _ => hs

theorem Parallel.fail {program : Program} {machine : Machine H} (hs : machine.status = .started)
    (error : RunError) :
    Parallel program (.fail error machine) (.fail error (machine.onto program)) := .along fun _ => hs

end Outcome

namespace Machine

variable {machine : Machine H} {setting : Setting H}

open Outcome (Parallel)

section Parallel

variable {program : Program} {machine : Machine H} (hs : machine.status = .started)

include hs

theorem parallel_popThen {next next' : Value → Machine H → Outcome H}
    (h : ∀ value rest, Parallel program (next value (machine.setStack rest))
      (next' value ((machine.setStack rest).onto program))) :
    Parallel program (machine.popThen next) ((machine.onto program).popThen next') := by
  have hstack : (machine.onto program).stack = machine.stack := rfl
  unfold popThen
  rw [hstack]
  split
  · exact .fail hs _
  · next value rest _ =>
    rw [onto_setStack]
    exact h value rest

theorem parallel_popArgsThen {next next' : List Value → Machine H → Outcome H} {argc : Nat}
    (h : ∀ args rest, Parallel program (next args (machine.setStack rest))
      (next' args ((machine.setStack rest).onto program))) :
    Parallel program (machine.popArgsThen argc next)
      ((machine.onto program).popArgsThen argc next') := by
  have hstack : (machine.onto program).stack = machine.stack := rfl
  unfold popArgsThen
  rw [hstack, onto_setStack, onto_setStack]
  split
  · have hs' : (machine.setStack []).status = .started := hs
    exact .fail hs' _
  · exact h _ _

theorem parallel_jump (hsize : program.size = machine.execution.program.size) (target : Nat) :
    Parallel program (machine.jump target) ((machine.onto program).jump target) := by
  have hsize' : (machine.onto program).execution.program.size = machine.execution.program.size :=
    hsize
  unfold jump
  simp only [hsize']
  split
  · exact .fail hs _
  · exact .ok hs

variable (hsize : program.size = machine.execution.program.size)

include hsize

theorem parallel_callProcedure {setting setting' : Setting H}
    (hlimits : setting'.limits = setting.limits) (entry argc : Nat) :
    Parallel program (callProcedure setting machine entry argc)
      (callProcedure setting' (machine.onto program) entry argc) := by
  have hdepth : (machine.onto program).execution.depth = machine.execution.depth := rfl
  unfold callProcedure
  simp only [hlimits, hdepth]
  split
  · exact .fail hs _
  · refine parallel_popArgsThen hs fun args rest => ?_
    apply parallel_jump
    · exact hs
    · rw [hsize]
      exact congrArg Program.size (setStack_program machine rest).symm

theorem parallel_leave (value : Value) :
    Parallel program (machine.leave value) ((machine.onto program).leave value) := by
  have hcaller : setCallerResult (machine.onto program).execution value =
      (setCallerResult machine.execution value).onto program := onto_setCallerResult ..
  have hsize' : program.size = (setCallerResult machine.execution value).program.size := by
    rw [hsize, program_setCallerResult]
  unfold leave
  simp only [hcaller]
  generalize setCallerResult machine.execution value = execution at hsize' ⊢
  obtain ⟨original, globals, calls, pc, steps, mark⟩ := execution
  simp only [Execution.onto, hsize']
  cases calls with
  | nil =>
    exact .along nofun
  | cons call rest =>
    apply parallel_jump
    · exact hs
    · exact hsize'

theorem parallel_conclude (restart : Nat) (reply : Reply) (pause? : Option (Option Value))
    (world : World H) :
    Parallel program (machine.conclude restart reply world)
      ((machine.onto program).conclude restart (reply.interrupt pause?) world) := by
  obtain ⟨writes, outcome⟩ := reply
  have hsize' : program.size = (machine.written writes world).execution.program.size := by
    rw [hsize]
    exact congrArg Program.size (Execution.alike_writes machine.execution writes).program.symm
  have hs' : (machine.written writes world).status = .started := hs
  simp only [conclude_eq, Reply.interrupt, onto_written]
  generalize machine.written writes world = written at hsize' hs' ⊢
  cases outcome with
  | error error => exact .fail hs' error
  | ok answer =>
    cases answer with
    | value result =>
      have hresult : (written.setResult result).advance.status = .started := hs'
      cases pause? with
      | none =>
        simp only [Except.map, Answer.interrupt, onto_setResult]
        exact .ok hresult
      | some extra =>
        simp only [Except.map, Answer.interrupt, onto_setResult]
        exact .paused hresult rfl (congrArg Status.waitingFor hresult)
    | after result extra =>
      simp only [Except.map, Answer.interrupt, onto_setResult]
      exact .along nofun
    | before extra =>
      have hsame : (written.onto program).execution.program.size =
          written.execution.program.size := hsize'
      simp only [Except.map, Answer.interrupt, jump, hsame]
      split_ifs
      · exact .fail hs' _
      · exact .along nofun

end Parallel

section Host

variable {setting : Setting H} (schedule : Schedule) {program : Program}
  {machine : Machine (H × List HostCall)} (hs : machine.status = .started)
  (hsize : program.size = machine.execution.program.size)

include hs hsize

theorem parallel_answer (restart : Nat) (call : HostCall) {answer answer' : World H → Reply × World H}
    (h : ∀ world, answer' world = answer world) :
    let found := Schedule.never.answer call machine.world answer
    let found' := schedule.answer call machine.world answer'
    Parallel program (machine.conclude restart found.1 found.2)
      ((machine.onto program).conclude restart found'.1 found'.2) := by
  simp only [Schedule.answer, Schedule.never, h, Reply.interrupt_none]
  exact parallel_conclude hs hsize restart _ _ _

variable (htell : setting.CannotTell machine.execution.program program)

include htell

theorem parallel_callFunction (name : String) (argc restart : Nat) :
    Parallel program (callFunction (setting.scheduled .never) machine name argc restart)
      (callFunction (setting.scheduled schedule) (machine.onto program) name argc restart) := by
  have hfind (schedule : Schedule) :
      (setting.scheduled schedule).functions.find? (fun provider => provider.supports name) =
        (setting.functions.find? fun provider => provider.supports name).map
          (·.scheduled schedule) := List.find?_map ..
  unfold callFunction
  rw [hfind, hfind]
  cases hfound : setting.functions.find? fun provider => provider.supports name with
  | none => exact .fail hs _
  | some provider =>
    refine parallel_popArgsThen hs fun args rest => ?_
    have hprogram := setStack_program machine rest
    have hs' : (machine.setStack rest).status = .started := hs
    have hsize' : program.size = (machine.setStack rest).execution.program.size := by
      rw [hsize, hprogram]
    exact parallel_answer schedule hs' hsize' restart ⟨none, name, args⟩ fun world =>
      htell.functions provider (List.mem_of_find?_eq_some hfound)
        ((machine.setStack rest).context (setting.scheduled .never)) name args world hprogram

theorem parallel_callMethod (object name : String) (argc restart : Nat) :
    Parallel program (callMethod (setting.scheduled .never) machine object name argc restart)
      (callMethod (setting.scheduled schedule) (machine.onto program) object name argc restart) := by
  unfold callMethod
  rw [onto_receiver]
  cases hreceiver : machine.receiver object with
  | error fault => exact .fail hs _
  | ok found =>
    obtain ⟨value, typeName, next⟩ := found
    have hsame := sameRun_receiver hreceiver
    have hs' : next.status = .started := hsame.status.trans hs
    have hfind (schedule : Schedule) : (setting.scheduled schedule).methods.find?
        (fun provider => provider.supports typeName name) =
          (setting.methods.find? fun provider => provider.supports typeName name).map
            (·.scheduled schedule) := List.find?_map ..
    simp only [Except.map]
    rw [hfind, hfind]
    cases hfound : setting.methods.find? fun provider => provider.supports typeName name with
    | none => exact .fail hs' _
    | some provider =>
      refine parallel_popArgsThen hs' fun args rest => ?_
      have hprogram : (next.setStack rest).execution.program = machine.execution.program := by
        rw [setStack_program, hsame.execution]
      have hs'' : (next.setStack rest).status = .started := hs'
      have hsize' : program.size = (next.setStack rest).execution.program.size := by
        rw [hsize, hprogram]
      exact parallel_answer schedule hs'' hsize' restart ⟨some value, name, args⟩ fun world =>
        htell.methods provider (List.mem_of_find?_eq_some hfound)
          ((next.setStack rest).context (setting.scheduled .never)) value name args world hprogram

end Host

section Step

variable {setting : Setting H} (schedule : Schedule) {program : Program}
  {machine : Machine (H × List HostCall)} (hs : machine.status = .started)
  (hstops : machine.execution.program.WithStops program)
  (htell : setting.CannotTell machine.execution.program program)

include hs hstops htell

theorem parallel_execute_same (op : Op) :
    Parallel program (execute (setting.scheduled .never) machine op)
      (execute (setting.scheduled schedule) (machine.onto program) op) := by
  have hsize := hstops.size_eq
  have hs' (rest : List Value) : (machine.setStack rest).status = .started := hs
  have hsize' (rest : List Value) :
      program.size = (machine.setStack rest).execution.program.size := by
    rw [hsize, setStack_program]
  cases op with
  | pushValue literal | pushResult =>
    simp only [execute, onto_push]
    exact .ok hs
  | pushVariable name =>
    simp only [execute, onto_readVariable]
    cases hr : machine.readVariable name with
    | error fault => exact .fail hs _
    | ok found =>
      have hread : found.2.status = .started := (sameRun_readVariable hr).status.trans hs
      simp only [Except.map, onto_push]
      exact .ok hread
  | operate op =>
    simp only [execute]
    refine parallel_popThen hs fun right rest => ?_
    refine parallel_popThen (hs' rest) fun left rest => ?_
    simp only [setStack_setStack, onto_push, onto_world, setStack_world]
    cases Value.apply machine.world.objects op left right with
    | ok value => exact .ok (hs' rest)
    | error fault => exact .fail (hs' rest) _
  | setVariable name =>
    simp only [execute]
    refine parallel_popThen hs fun value rest => ?_
    let assigned : Machine (H × List HostCall) :=
      ⟨(machine.setStack rest).execution.assign name value, machine.status, machine.world⟩
    have hassigned : (assigned.advance).status = .started := hs
    have honto : ((machine.setStack rest).onto program).execution.assign name value =
        assigned.execution.onto program := Execution.onto_assign ..
    rw [honto]
    exact .ok hassigned
  | call name argc restart =>
    have hentry : (machine.onto program).execution.program.entry? name =
        machine.execution.program.entry? name := hstops.entry?_eq name
    simp only [execute, hentry]
    split
    · exact parallel_callProcedure hs hsize rfl _ argc
    · exact parallel_callFunction schedule hs hsize htell name argc restart
  | callMethod object name argc restart =>
    exact parallel_callMethod schedule hs hsize htell object name argc restart
  | jumpUnless target =>
    simp only [execute]
    refine parallel_popThen hs fun condition rest => ?_
    split
    · exact .ok (hs' rest)
    · exact parallel_jump (hs' rest) (hsize' rest) target
  | stop => exact .along nofun
  | jump target => exact parallel_jump hs hsize target
  | callBuiltin function argc =>
    simp only [execute]
    refine parallel_popArgsThen hs fun args rest => ?_
    simp only [onto_push]
    have hsignals : (setting.scheduled schedule).signals = setting.signals := rfl
    have hsignals' : (setting.scheduled .never).signals = setting.signals := rfl
    rw [hsignals, hsignals']
    cases function.run args setting.signals with
    | ok value => exact .ok (hs' rest)
    | error fault => exact .fail (hs' rest) _
  | nop => exact .ok hs
  | wait all names =>
    have hsignals : (setting.scheduled schedule).signals = setting.signals := rfl
    have hsignals' : (setting.scheduled .never).signals = setting.signals := rfl
    simp only [execute, hsignals, hsignals']
    split
    · exact .ok hs
    · exact .along nofun
  | expectStack count =>
    show Parallel program (if machine.stack.length = count then _ else _)
      (if machine.stack.length = count then _ else _)
    split_ifs
    · exact .ok hs
    · exact .fail hs _
  | ret hasValue =>
    cases hasValue with
    | false => exact parallel_leave hs hsize .null
    | true =>
      simp only [execute]
      exact parallel_popThen hs fun value rest => parallel_leave (hs' rest) (hsize' rest) value
  | pushProperty name =>
    simp only [execute]
    refine parallel_popThen hs fun object rest => ?_
    simp only [onto_property]
    have hsame := sameRun_property (machine.setStack rest) name object
    have hfound : ((machine.setStack rest).property name object).2.status = .started :=
      hsame.status.trans hs
    cases hproperty : (machine.setStack rest).property name object with
    | mk result found =>
      rw [hproperty] at hfound
      cases result with
      | ok value =>
        simp only [onto_push]
        exact .ok hfound
      | error fault => exact .fail hfound _
  | invert =>
    simp only [execute]
    refine parallel_popThen hs fun value rest => ?_
    rw [onto_push]
    exact .ok (hs' rest)

theorem parallel_execute {instruction other : Instruction} (hi : instruction.WithStop other) :
    Parallel program (execute (setting.scheduled .never) machine instruction.op)
      (execute (setting.scheduled schedule) (machine.onto program) other.op) := by
  cases hi with
  | same => exact parallel_execute_same schedule hs hstops htell instruction.op
  | stop =>
    have hs' : machine.advance.status = .started := hs
    exact .paused hs' rfl (congrArg Status.waitingFor hs)

end Step

def finishStep (machine : Machine H) : Machine H :=
  if machine.status.waitingFor.isSome then machine else machine.countStep

theorem finishStep_of_none (h : machine.status.waitingFor = none) :
    machine.finishStep = machine.countStep := by simp [finishStep, h]

theorem step_eq (hlimit : setting.limits.maxCycles = none) (machine : Machine H)
    (instruction : Instruction) :
    machine.step setting instruction =
      match (execute setting machine.clearMarks instruction.op).atPos instruction.pos with
      | .ok next => .ok next.finishStep
      | failed => failed := by
  have hnever (machine : Machine H) : machine.limitReached? setting = none := by
    simp [limitReached?, hlimit]
  simp only [step, hnever, checkLimit]
  cases (execute setting machine.clearMarks instruction.op).atPos instruction.pos with
  | fail error failed => rfl
  | ok next =>
    simp only [finishStep]
    split_ifs <;> rfl

/-- How a step comes out: the limit on steps stops it before or after its instruction, or the
instruction fails, or it is done. -/
inductive StepOutcome (setting : Setting H) (machine : Machine H) (instruction : Instruction) :
    Outcome H → Prop where
  | reached {limit : Nat} : machine.limitReached? setting = some limit →
      StepOutcome setting machine instruction (.fail ⟨.cycleLimit limit, instruction.pos⟩ machine)
  | fails {error : RunError} {failed : Machine H} : machine.limitReached? setting = none →
      execute setting machine.clearMarks instruction.op = .fail error failed →
      StepOutcome setting machine instruction (.fail (error.locate instruction.pos) failed)
  | spends {limit : Nat} {done : Machine H} :
      execute setting machine.clearMarks instruction.op = .ok done →
      done.status.waitingFor = none →
      StepOutcome setting machine instruction
        (.fail ⟨.cycleLimit limit, instruction.pos⟩ done.countStep)
  | ends {done : Machine H} : execute setting machine.clearMarks instruction.op = .ok done →
      StepOutcome setting machine instruction (.ok done.finishStep)

theorem stepOutcome (setting : Setting H) (machine : Machine H) (instruction : Instruction) :
    StepOutcome setting machine instruction (machine.step setting instruction) := by
  unfold step
  split
  · next hreached => exact .reached hreached
  · next hlimit =>
    cases hx : execute setting machine.clearMarks instruction.op with
    | fail error failed => exact .fails hlimit hx
    | ok done =>
      have hends := StepOutcome.ends hx
      cases hwaiting : done.status.waitingFor with
      | some wait => simpa [finishStep, Outcome.atPos, hwaiting] using hends
      | none =>
        rw [finishStep_of_none hwaiting] at hends
        simp only [Outcome.atPos, hwaiting, Option.isSome_none, Bool.false_eq_true, if_false,
          checkLimit]
        split
        · split
          · exact .spends hx hwaiting
          · exact hends
        · exact hends

theorem ok_cases {next : Machine H} {instruction : Instruction}
    (h : machine.step setting instruction = .ok next) :
    ∃ done, execute setting machine.clearMarks instruction.op = .ok done ∧ next = done.finishStep := by
  have houtcome := stepOutcome setting machine instruction
  rw [h] at houtcome
  cases houtcome with
  | ends hx => exact ⟨_, hx, rfl⟩

theorem exists_machine_step (h : machine.limitReached? setting = none) (instruction : Instruction) :
    ∃ steps, (machine.step setting instruction).machine =
      { (execute setting machine.clearMarks instruction.op).machine with
        execution := { (execute setting machine.clearMarks instruction.op).machine.execution with
          steps := steps } } := by
  have houtcome := stepOutcome setting machine instruction
  generalize machine.step setting instruction = outcome at houtcome ⊢
  cases houtcome with
  | reached hreached => cases h.symm.trans hreached
  | fails _ hx | spends hx =>
    rw [hx]
    exact ⟨_, rfl⟩
  | ends hx =>
    rw [hx, finishStep]
    split <;> exact ⟨_, rfl⟩

theorem machine_step (setting : Setting H) (machine : Machine H) (instruction : Instruction) :
    (machine.step setting instruction).machine = machine ∨ ∃ steps,
      (machine.step setting instruction).machine =
        { (execute setting machine.clearMarks instruction.op).machine with
          execution := { (execute setting machine.clearMarks instruction.op).machine.execution with
            steps := steps } } := by
  cases hlimit : machine.limitReached? setting with
  | none => exact .inr (exists_machine_step hlimit instruction)
  | some limit =>
    rw [step, hlimit]
    exact .inl rfl

/-- Both machines run, and they differ in their programs and in the traces of the last pause. -/
structure Twins (program : Program) (machine other : Machine H) : Prop where
  started : machine.status = .started
  started' : other.status = .started
  execution : ∃ mark, other.execution =
    { machine.execution.onto program with lastInterrupt := mark }
  world : other.world = machine.world

theorem Twins.clearMarks_eq {program : Program} {other : Machine H}
    (h : Twins program machine other) : other.clearMarks = machine.clearMarks.onto program := by
  obtain ⟨mark, hx⟩ := h.execution
  simp [clearMarks, onto, h.started, h.started', hx, h.world, Execution.onto]

theorem Twins.parallel_step {program : Program} {machine other : Machine (H × List HostCall)}
    (h : Twins program machine other) (schedule : Schedule)
    (hlimit : setting.limits.maxCycles = none)
    (hstops : machine.execution.program.WithStops program)
    (htell : setting.CannotTell machine.execution.program program)
    {instruction instruction' : Instruction} (hi : instruction.WithStop instruction') :
    Parallel program (machine.step (setting.scheduled .never) instruction)
      (other.step (setting.scheduled schedule) instruction') := by
  have hs : machine.clearMarks.status = .started := by
    simp [clearMarks, h.started, Status.started]
  have hpos : instruction'.pos = instruction.pos := by cases hi <;> rfl
  have hlimit' (schedule : Schedule) : (setting.scheduled schedule).limits.maxCycles = none :=
    hlimit
  have hexecute := parallel_execute schedule hs hstops htell hi
  rw [step_eq (hlimit' _), step_eq (hlimit' _), h.clearMarks_eq, hpos]
  generalize execute _ machine.clearMarks instruction.op = outcome at hexecute ⊢
  generalize execute _ (machine.clearMarks.onto program) instruction'.op = outcome' at hexecute ⊢
  cases hexecute with
  | along hrunning =>
    cases outcome with
    | fail error failed => exact .along hrunning
    | ok next =>
      have honto : (next.onto program).finishStep = next.finishStep.onto program := by
        show (if next.status.waitingFor.isSome then _ else _) = _
        unfold finishStep
        split_ifs <;> rfl
      have hstatus : next.finishStep.status = next.status := by
        unfold finishStep
        split_ifs <;> rfl
      simp only [Outcome.onto, Outcome.atPos, honto]
      exact .along (hstatus ▸ hrunning)
  | @paused next mark status hstarted hstopped hwait =>
    have hcounted : next.countStep.status = .started := hstarted
    simp only [Outcome.atPos]
    rw [finishStep_of_none (congrArg Status.waitingFor hstarted), finishStep_of_none hwait]
    exact .paused hcounted hstopped hwait

end Machine

end DurableScript
