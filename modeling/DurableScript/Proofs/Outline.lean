import DurableScript.Proofs.Procedures
import DurableScript.Proofs.Runs

namespace DurableScript

namespace Execution

section ModifyFrame

variable (execution : Execution) (f g : Frame → Frame)

@[simp] theorem frame_modifyFrame : (execution.modifyFrame f).frame = f execution.frame := by
  obtain ⟨_, _, calls, _, _, _⟩ := execution
  cases calls <;> rfl

@[simp] theorem modifyFrame_modifyFrame :
    (execution.modifyFrame f).modifyFrame g = execution.modifyFrame (fun frame => g (f frame)) := by
  obtain ⟨_, _, calls, _, _, _⟩ := execution
  cases calls <;> rfl

@[simp] theorem program_modifyFrame : (execution.modifyFrame f).program = execution.program := by
  obtain ⟨_, _, calls, _, _, _⟩ := execution
  cases calls <;> rfl

@[simp] theorem pc_modifyFrame : (execution.modifyFrame f).pc = execution.pc := by
  obtain ⟨_, _, calls, _, _, _⟩ := execution
  cases calls <;> rfl

end ModifyFrame

def bottom (execution : Execution) : Nat := execution.globals.stack.length

def outline (execution : Execution) : List (Nat × Option Nat) :=
  execution.calls.map fun call => (call.stack.length, call.returnTo)

structure Alike (execution other : Execution) : Prop where
  program : execution.program = other.program
  pc : execution.pc = other.pc
  bottom : execution.bottom = other.bottom
  outline : execution.outline = other.outline

namespace Alike

theorem refl (execution : Execution) : execution.Alike execution := ⟨rfl, rfl, rfl, rfl⟩

theorem trans {a b c : Execution} (h : a.Alike b) (h' : b.Alike c) : a.Alike c :=
  ⟨h.program.trans h'.program, h.pc.trans h'.pc, h.bottom.trans h'.bottom,
    h.outline.trans h'.outline⟩

end Alike

theorem alike_modifyFrame (execution : Execution) {f : Frame → Frame}
    (hstack : ∀ frame, (f frame).stack = frame.stack)
    (hreturn : ∀ frame, (f frame).returnTo = frame.returnTo) :
    (execution.modifyFrame f).Alike execution := by
  unfold modifyFrame
  split
  · exact ⟨rfl, rfl, by simp [bottom, hstack], rfl⟩
  · next call rest hcalls =>
    exact ⟨rfl, rfl, rfl, by simp [outline, hcalls, hstack, hreturn]⟩

theorem alike_setLocal (execution : Execution) (name : String) (value : Value) :
    (execution.setLocal name value).Alike execution :=
  alike_modifyFrame execution (fun _ => rfl) (fun _ => rfl)

theorem alike_setGlobal (execution : Execution) (name : String) (value : Value) :
    (execution.setGlobal name value).Alike execution := ⟨rfl, rfl, rfl, rfl⟩

theorem alike_assign (execution : Execution) (name : String) (value : Value) :
    (execution.assign name value).Alike execution := by
  unfold assign
  split
  · exact alike_setGlobal execution name value
  · exact alike_setLocal execution name value

theorem alike_write (execution : Execution) (write : HostWrite) :
    (write.run execution).Alike execution := by
  cases write with
  | toFrame name value => exact alike_setLocal execution name value
  | toGlobals name value => exact alike_setGlobal execution name value

theorem alike_writes (execution : Execution) (writes : List HostWrite) :
    (writes.foldl HostWrite.run execution).Alike execution := by
  induction writes generalizing execution with
  | nil => exact .refl execution
  | cons write rest ih => exact (ih (write.run execution)).trans (alike_write execution write)

section Operands

variable (execution : Execution)

theorem stack_setLocal (name : String) (value : Value) :
    (execution.setLocal name value).frame.stack = execution.frame.stack := by
  rw [setLocal, frame_modifyFrame]
  rfl

theorem stack_setGlobal (name : String) (value : Value) :
    (execution.setGlobal name value).frame.stack = execution.frame.stack := by
  obtain ⟨_, _, calls, _, _, _⟩ := execution
  cases calls <;> rfl

theorem stack_assign (name : String) (value : Value) :
    (execution.assign name value).frame.stack = execution.frame.stack := by
  unfold assign
  split
  · exact stack_setGlobal execution name value
  · exact stack_setLocal execution name value

theorem stack_writes (writes : List HostWrite) :
    (writes.foldl HostWrite.run execution).frame.stack = execution.frame.stack := by
  induction writes generalizing execution with
  | nil => rfl
  | cons write rest ih =>
    rw [List.foldl_cons, ih]
    cases write with
    | toFrame name value => exact stack_setLocal execution name value
    | toGlobals name value => exact stack_setGlobal execution name value

end Operands

theorem foldl_setGlobal (vars : List (String × Value)) (execution : Execution) :
    vars.foldl (fun execution (name, value) => execution.setGlobal name value) execution =
      { execution with globals := { execution.globals with
          vars := Table.insertAll execution.globals.vars vars } } := by
  induction vars generalizing execution with
  | nil => rfl
  | cons entry rest ih =>
    rw [List.foldl_cons, ih]
    rfl

theorem alike_setGlobals (execution : Execution) (vars : List (String × Value)) :
    (vars.foldl (fun execution (name, value) => execution.setGlobal name value) execution).Alike
      execution := by
  rw [foldl_setGlobal]
  exact ⟨rfl, rfl, rfl, rfl⟩

end Execution

/-- The frames of an outline lie one upon another as the shapes ask: the running frame has the given
shape, and each caller that of the place it returns to. -/
def Nested (shape : Nat → Shape) (size bottom : Nat) : List (Nat × Option Nat) → Shape → Prop
  | [], current => bottom = current.operands ∧ current.place = .top
  | (count, returnTo) :: callers, current =>
    count = current.operands ∧ current.place ≠ .top ∧
      ∃ index, returnTo = some index ∧ index ≤ size ∧ Nested shape size bottom callers (shape index)

namespace Execution

def Nested (shape : Nat → Shape) (execution : Execution) (current : Shape) : Prop :=
  DurableScript.Nested shape execution.program.size execution.bottom execution.outline current

variable {shape : Nat → Shape} {execution other : Execution} {current : Shape}

theorem Nested.of_alike (h : execution.Nested shape current) (ha : other.Alike execution) :
    other.Nested shape current := by
  unfold Nested
  rw [ha.program, ha.bottom, ha.outline]
  exact h

theorem Nested.length_stack (h : execution.Nested shape current) :
    execution.frame.stack.length = current.operands := by
  unfold Nested outline at h
  unfold frame
  split
  · next hcalls =>
    rw [hcalls] at h
    exact h.1
  · next call rest hcalls =>
    rw [hcalls] at h
    exact h.1

theorem Nested.reshape (h : execution.Nested shape current) {next : Shape}
    (hoperands : current.operands = next.operands)
    (hplace : next.place = .top ↔ current.place = .top) : execution.Nested shape next := by
  unfold Nested at h ⊢
  cases houtline : execution.outline with
  | nil =>
    rw [houtline] at h
    exact ⟨h.1.trans hoperands, hplace.2 h.2⟩
  | cons call callers =>
    rw [houtline] at h
    exact ⟨h.1.trans hoperands, mt hplace.1 h.2.1, h.2.2⟩

end Execution

namespace Machine

variable {H : Type}

variable (machine : Machine H) (value : Value) (stack other : List Value)

theorem push_eq_setStack : machine.push value = machine.setStack (value :: machine.stack) := by
  obtain ⟨⟨_, _, calls, _, _, _⟩, _, _⟩ := machine
  cases calls <;> rfl

@[simp] theorem stack_setStack : (machine.setStack stack).stack = stack := by
  simp [setStack, modifyFrame, Machine.stack]

@[simp] theorem setStack_setStack :
    (machine.setStack stack).setStack other = machine.setStack other := by
  simp [setStack, modifyFrame]

@[simp] theorem setStack_world : (machine.setStack stack).world = machine.world := rfl

@[simp] theorem setStack_status : (machine.setStack stack).status = machine.status := rfl

@[simp] theorem setStack_program :
    (machine.setStack stack).execution.program = machine.execution.program := by
  simp [setStack, modifyFrame]

@[simp] theorem setStack_pc : (machine.setStack stack).execution.pc = machine.execution.pc := by
  simp [setStack, modifyFrame]

end Machine

def freshMachine {H : Type} (program : Program) (vars : Table Value) (world : World H) :
    Machine H :=
  ⟨{ Execution.start program with globals := { Frame.empty with vars } }, .started, world⟩

theorem Runner.exists_load {H : Type} {runner : Runner H} (h : runner.execution = .empty)
    (program : Program) (globals : List (String × Value)) :
    ∃ loaded, runner.load program = .ok loaded ∧ (loaded.loadGlobals globals).loaded = true ∧
      (loaded.loadGlobals globals).setting = runner.setting ∧
      ∀ world, (loaded.loadGlobals globals).machine world =
        freshMachine program (Table.ofPairs globals) world := by
  refine ⟨_, if_neg (by simp [h, Execution.empty, Execution.start]), rfl, rfl, fun world => ?_⟩
  rw [Runner.machine, Runner.loadGlobals, Execution.foldl_setGlobal, h]
  rfl

end DurableScript
