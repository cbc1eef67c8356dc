import DurableScript.Proofs.Interruption
import Mathlib.Data.List.Forall2

namespace DurableScript

/-- What a provider is asked for. The arguments still lie on the stack of the caller. -/
structure Request (H : Type) where
  receiver : Option Value
  name : String
  argc : Nat
  restart : Nat
  answer : CallContext → List Value → World H → Reply × World H

structure Call extends HostCall where
  objects : Objects

def Execution.dropOperands (count : Nat) (execution : Execution) : Execution :=
  execution.modifyFrame fun frame => { frame with stack := frame.stack.drop count }

@[simp] theorem Execution.dropOperands_zero (execution : Execution) :
    execution.dropOperands 0 = execution := by
  obtain ⟨_, _, calls, _, _, _⟩ := execution
  cases calls <;> rfl

theorem Execution.stack_dropOperands (execution : Execution) (count : Nat) :
    (execution.dropOperands count).frame.stack = execution.frame.stack.drop count := by
  rw [dropOperands, frame_modifyFrame]

namespace Machine

variable {H : Type} {setting : Setting H} {machine found : Machine H} {request : Request H}
  {op : Op} {name object : String} {argc restart : Nat}

/-- The request that an instruction makes, and the machine that makes it: the receiver of a method
has been looked up by then. -/
def request? (setting : Setting H) (machine : Machine H) : Op → Option (Request H × Machine H)
  | .call name argc restart =>
    match machine.execution.program.entry? name with
    | some _ => none
    | none =>
      (setting.functions.find? fun provider => provider.supports name).map fun provider =>
        (⟨none, name, argc, restart, (provider.invoke · name)⟩, machine)
  | .callMethod object name argc restart =>
    match machine.receiver object with
    | .error _ => none
    | .ok (value, typeName, found) =>
      (setting.methods.find? fun provider => provider.supports typeName name).map fun provider =>
        (⟨some value, name, argc, restart, (provider.invoke · value name)⟩, found)
  | _ => none

/-- A function is asked for in the name of no procedure, and a method of what its receiver is. -/
inductive Requests (setting : Setting H) (machine : Machine H) : Op → Request H → Machine H → Prop where
  | function {name : String} {argc restart : Nat} {provider : FunctionProvider H} :
      machine.execution.program.entry? name = none →
      setting.functions.find? (fun provider => provider.supports name) = some provider →
      Requests setting machine (.call name argc restart)
        ⟨none, name, argc, restart, (provider.invoke · name)⟩ machine
  | method {object name typeName : String} {argc restart : Nat} {value : Value}
      {provider : MethodProvider H} {found : Machine H} :
      machine.receiver object = .ok (value, typeName, found) →
      setting.methods.find? (fun provider => provider.supports typeName name) = some provider →
      Requests setting machine (.callMethod object name argc restart)
        ⟨some value, name, argc, restart, (provider.invoke · value name)⟩ found

def asking (machine : Machine H) (request : Request H) : Machine H :=
  { machine with execution := machine.execution.dropOperands request.argc }

def reply (setting : Setting H) (machine : Machine H) (request : Request H) : Reply × World H :=
  request.answer ((machine.asking request).context setting) (machine.stack.take request.argc)
    machine.world

theorem setStack_drop (machine : Machine H) (count : Nat) :
    machine.setStack (machine.stack.drop count) =
      { machine with execution := machine.execution.dropOperands count } := by
  obtain ⟨⟨_, _, calls, _, _, _⟩, _, _⟩ := machine
  cases calls <;> rfl

section

variable (h : machine.request? setting op = some (request, found))
include h

theorem request?_cases : Requests setting machine op request found := by
  unfold request? at h
  split at h
  · split at h
    · cases h
    · next hentry =>
      obtain ⟨provider, hfind, h⟩ := Option.map_eq_some_iff.1 h
      cases h
      exact .function hentry hfind
  · split at h
    · cases h
    · next hr =>
      obtain ⟨provider, hfind, h⟩ := Option.map_eq_some_iff.1 h
      cases h
      exact .method hr hfind
  · cases h

theorem sameRun_request? : machine.SameRun found := by
  cases request?_cases h with
  | function => exact ⟨rfl, rfl⟩
  | method hr => exact sameRun_receiver hr

theorem stack_of_request? : found.stack = machine.stack := (sameRun_request? h).stack_eq

theorem restart_mem_targets : request.restart ∈ op.targets := by
  cases request?_cases h with
  | function | method => exact List.mem_singleton_self _

end

def call? (setting : Setting H) (machine : Machine H) (op : Op) : Option Call :=
  match machine.limitReached? setting, machine.clearMarks.request? setting op with
  | none, some (request, found) =>
    if found.stack.length < request.argc then none
    else some ⟨⟨request.receiver, request.name, found.stack.take request.argc⟩, found.world.objects⟩
  | _, _ => none

theorem limitReached?_eq_none (h : setting.limits.maxCycles = none) (machine : Machine H) :
    machine.limitReached? setting = none := by simp [limitReached?, h]

def calls (setting : Setting H) : Nat → Machine H → List Call
  | 0, _ => []
  | fuel + 1, machine =>
    match machine.next? with
    | none => []
    | some instruction =>
      (machine.call? setting instruction.op).toList ++
        match machine.step setting instruction with
        | .ok next => calls setting fuel next
        | .fail _ _ => []

theorem Lockstep.calls {H' : Type} {setting' : Setting H'} {P Q : Machine H → Machine H' → Prop}
    (h : Lockstep setting setting' P Q) {T : Call → Call → Prop}
    (hcall : ∀ {machine other}, P machine other → ∀ op,
      Option.Rel T (machine.call? setting op) (other.call? setting' op))
    {other : Machine H'} (hrelated : P machine other) (fuel : Nat) :
    List.Forall₂ T (machine.calls setting fuel) (other.calls setting' fuel) := by
  induction fuel generalizing machine other with
  | zero => exact .nil
  | succ fuel ih =>
    unfold Machine.calls
    rw [h.next? hrelated]
    split
    · exact .nil
    · next instruction hnext =>
      have hstep := h.step hrelated hnext
      have hfirst := hcall hrelated instruction.op
      generalize machine.call? setting instruction.op = call at hfirst ⊢
      generalize other.call? setting' instruction.op = call' at hfirst ⊢
      generalize machine.step setting instruction = outcome at hstep ⊢
      generalize other.step setting' instruction = outcome' at hstep ⊢
      refine List.rel_append ?_ ?_
      · cases hfirst with
        | none => exact .nil
        | some hcalls => exact .cons hcalls .nil
      · cases hstep with
        | ok hnext => exact ih hnext
        | fail error hfailed => exact .nil

theorem execute_of_request? (h : machine.request? setting op = some (request, found)) :
    execute setting machine op =
      if found.stack.length < request.argc then (found.setStack []).failWith .stackUnderflow
      else (found.asking request).conclude request.restart (found.reply setting request).1
        (found.reply setting request).2 := by
  cases request?_cases h with
  | function hentry hfind =>
    simp only [execute, callFunction, hentry, hfind, popArgsThen, setStack_drop]
    rfl
  | method hr hfind =>
    simp only [execute, callMethod, hr, hfind, popArgsThen, setStack_drop]
    rfl

theorem execute_call_of_request?_eq_none
    (h : machine.request? setting (.call name argc restart) = none) :
    execute setting machine (.call name argc restart) =
      match machine.execution.program.entry? name with
      | some entry => callProcedure setting machine entry argc
      | none => machine.failWith (.functionNotFound name) := by
  unfold request? at h
  rw [execute]
  cases hentry : machine.execution.program.entry? name with
  | some entry => rfl
  | none =>
    simp only [hentry] at h
    simp only [callFunction, Option.map_eq_none_iff.1 h]

theorem execute_callMethod_of_request?_eq_none
    (h : machine.request? setting (.callMethod object name argc restart) = none) :
    ∃ fault found, execute setting machine (.callMethod object name argc restart) =
      failWith found fault ∧ machine.SameRun found ∧ fault.isOperational = true := by
  unfold request? at h
  rw [execute, callMethod]
  cases hr : machine.receiver object with
  | error fault =>
    exact ⟨fault, machine, rfl, ⟨rfl, rfl⟩, operational_receiver machine object fault hr⟩
  | ok receiver =>
    obtain ⟨value, typeName, found⟩ := receiver
    simp only [hr] at h
    simp only [Option.map_eq_none_iff.1 h]
    exact ⟨_, found, rfl, sameRun_receiver hr, rfl⟩

end Machine

end DurableScript
