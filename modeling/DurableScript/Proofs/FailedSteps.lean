import DurableScript.Proofs.Polling
import DurableScript.Proofs.StackDiscipline

namespace DurableScript

namespace Outcome

def Spares {H : Type} (P : Execution → Prop) : Outcome H → Prop
  | ok _ => True
  | fail _ failed => P failed.execution

end Outcome

namespace Machine

variable {H : Type} {setting : Setting H} {machine : Machine H} {op : Op}

/-- How many operands are gone when the instruction fails: the arguments of a call, once a provider is
asked. -/
def taken (setting : Setting H) (machine : Machine H) (op : Op) : Nat :=
  (machine.request? setting op).elim op.spent fun asked => asked.1.argc

def writes (setting : Setting H) (machine : Machine H) (op : Op) : List HostWrite :=
  (machine.request? setting op).elim [] fun asked => (asked.2.reply setting asked.1).1.writes

theorem spares_execute (setting : Setting H) (h : machine.Ready op) :
    (execute setting machine op).Spares (· = (machine.writes setting op).foldl HostWrite.run
      (machine.execution.dropOperands (machine.taken setting op))) := by
  cases hx : execute setting machine op with
  | ok next => trivial
  | fail error failed =>
    obtain ⟨request, found, hr, -, -, rfl⟩ | ⟨hr, htaken, -⟩ := h.fail_cases hx
    · rw [writes, taken, hr, Outcome.Spares, written, asking, (sameRun_request? hr).execution]
      rfl
    · rw [writes, taken, hr]
      exact htaken

variable {program : Program} {shape : Nat → Shape} {table : Table Procedure}

theorem Kept.ready (hc : Compiled program shape table) (hk : machine.Kept program shape table)
    {instruction : Instruction} (hn : machine.next? = some instruction) :
    machine.Ready instruction.op := by
  have hi := instruction?_of_next? hn
  obtain hs | ⟨-, expected, actual, he⟩ | ⟨hr, -⟩ := hk
  · exact ready_of_settled hc hs hi
  · obtain ⟨pos, hexpects⟩ := he.instruction
    obtain rfl : instruction = ⟨.expectStack expected, pos⟩ :=
      Option.some.inj (hi.symm.trans hexpects)
    exact ⟨Nat.zero_le _, nofun, nofun, nofun⟩
  · rw [running_of_next? hn] at hr
    cases hr

end Machine

def Setting.uncounted {H : Type} (setting : Setting H) : Setting H :=
  { setting with limits := { setting.limits with maxCycles := none } }

namespace Machine

variable {H : Type} {setting : Setting H} {machine done : Machine H} {instruction : Instruction}

theorem execute_uncounted (machine : Machine H) (op : Op) :
    execute setting.uncounted machine op = execute setting machine op := by
  cases op <;> rfl

theorem step_uncounted (hx : execute setting machine.clearMarks instruction.op = .ok done)
    (hwaiting : done.status.waitingFor = none) :
    machine.step setting.uncounted instruction = .ok done.countStep := by
  rw [step_eq rfl, execute_uncounted, hx]
  simp only [Outcome.atPos, finishStep_of_none hwaiting]

end Machine

def Op.straight : Op → Bool
  | jump _ | ret _ | expectStack _ => false
  | _ => true

theorem Op.straight_of_computes {op : Op} (h : op.computes = true) : op.straight = true := by
  cases op <;> first | rfl | cases h

namespace Execution

variable {program : Program} {shape : Nat → Shape} {table : Table Procedure}
  {execution other : Execution}

/-- The execution can be taken up: its frames have the shapes that its place asks for, it stands at
the entry of a procedure, or it has ended. -/
def Resting (program : Program) (shape : Nat → Shape) (table : Table Procedure)
    (execution : Execution) : Prop :=
  execution.Settled program shape ∨
    (∃ expected actual, execution.Entering program shape table expected actual) ∨
    execution.Ended program

theorem Nested.returnTo_frame {current : Shape} (h : execution.Nested shape current)
    (hplace : current.place ≠ .top) : some execution.frame.returnTo = execution.returns.head? := by
  unfold Nested outline at h
  unfold frame returns
  cases hcalls : execution.calls with
  | nil =>
    rw [hcalls] at h
    exact absurd h.2 hplace
  | cons call rest => rfl

theorem Ended.instruction?_eq_none (h : execution.Ended program) : execution.instruction? = none := by
  rw [instruction?, h.runs, h.pc]
  exact Array.getElem?_eq_none (Nat.le_refl _)

theorem Resting.settled_of_straight {instruction : Instruction}
    (h : execution.Resting program shape table) (hi : execution.instruction? = some instruction)
    (hop : instruction.op.straight = true) : execution.Settled program shape := by
  obtain hs | ⟨expected, actual, he⟩ | he := h
  · exact hs
  · obtain ⟨pos, hexpect⟩ := he.instruction
    obtain rfl := Option.some.inj (hi.symm.trans hexpect)
    cases hop
  · cases hi.symm.trans he.instruction?_eq_none

theorem Entering.of_alike {expected actual : Nat}
    (h : execution.Entering program shape table expected actual) (ha : other.Alike execution) :
    other.Entering program shape table expected actual := by
  obtain ⟨hruns, hcalled, hinstruction, hnested⟩ := h
  have hreturn : other.frame.returnTo = execution.frame.returnTo := by
    rw [← Option.some_inj, (hnested.of_alike ha).returnTo_frame nofun, ha.samePlace.returns,
      hnested.returnTo_frame nofun]
  refine ⟨ha.program.trans hruns, ?_, ?_, hnested.of_alike ha⟩
  · unfold CalledWith
    rw [hreturn, ha.program, ha.pc]
    exact hcalled
  · rw [instruction?, ha.program, ha.pc]
    exact hinstruction

theorem Ended.of_alike (h : execution.Ended program) (ha : other.Alike execution) :
    other.Ended program := by
  obtain ⟨hruns, hpc, hcalls, hstack⟩ := h
  refine ⟨ha.program.trans hruns, ha.pc.trans hpc, ?_, ?_⟩
  · have houtline := ha.outline
    rw [outline, outline, hcalls] at houtline
    exact List.map_eq_nil_iff.1 houtline
  · have hbottom := ha.bottom
    rw [bottom, bottom, hstack] at hbottom
    exact List.length_eq_zero_iff.1 hbottom

theorem Resting.runs (h : execution.Resting program shape table) : execution.program = program := by
  obtain hs | ⟨expected, actual, he⟩ | he := h
  · exact hs.runs
  · exact he.runs
  · exact he.runs

theorem Resting.of_alike (h : execution.Resting program shape table) (ha : other.Alike execution) :
    other.Resting program shape table := by
  obtain hs | ⟨expected, actual, he⟩ | he := h
  · exact .inl (hs.of_alike ha)
  · exact .inr (.inl ⟨expected, actual, he.of_alike ha⟩)
  · exact .inr (.inr (he.of_alike ha))

end Execution

namespace Machine

variable {H : Type} {setting : Setting H} {machine last : Machine H} {program : Program}
  {shape : Nat → Shape} {table : Table Procedure}

theorem Kept.resting (h : machine.Kept program shape table) :
    machine.execution.Resting program shape table := by
  obtain hs | ⟨-, expected, actual, he⟩ | ⟨-, -, he⟩ := h
  · exact .inl hs
  · exact .inr (.inl ⟨expected, actual, he⟩)
  · exact .inr (.inr he)

theorem Kept.clearMarks (h : machine.Kept program shape table) :
    machine.clearMarks.Kept program shape table := by
  obtain hs | ⟨hr, expected, actual, he⟩ | ⟨hr, hreason, he⟩ := h
  · exact .inl (hs.mark none)
  · exact .inr (.inl ⟨hr, expected, actual, he.runs, he.calledWith, he.instruction, he.nested⟩)
  · exact .inr (.inr ⟨hr, hreason, he.runs, he.pc, he.calls, he.stack⟩)

theorem Reaches.kept_of_resting {execution : Execution} {world : World H}
    (h : Reaches setting ⟨execution, .started, world⟩ machine) (hc : Compiled program shape table)
    (hrest : execution.Resting program shape table) :
    machine.Kept program shape table ∨ machine.execution.Ended program := by
  obtain hs | ⟨expected, actual, he⟩ | he := hrest
  · exact .inl (h.kept hc (.inl hs))
  · exact .inl (h.kept hc (.inr (.inl ⟨rfl, expected, actual, he⟩)))
  · cases h with
    | refl => exact .inr he
    | step hn =>
      have hn : execution.instruction? = some _ := hn
      rw [he.instruction?_eq_none] at hn
      cases hn

theorem Reaches.kept_of_next? {execution : Execution} {world : World H}
    (h : Reaches setting ⟨execution, .started, world⟩ machine) (hc : Compiled program shape table)
    (hrest : execution.Resting program shape table) {instruction : Instruction}
    (hn : machine.next? = some instruction) : machine.Kept program shape table := by
  refine (h.kept_of_resting hc hrest).resolve_right fun he => ?_
  cases he.instruction?_eq_none.symm.trans (instruction?_of_next? hn)

def lost (setting : Setting H) (machine : Machine H) (instruction : Instruction) : Nat :=
  match machine.limitReached? setting, execute setting machine.clearMarks instruction.op with
  | none, .fail _ _ => machine.clearMarks.taken setting instruction.op
  | _, _ => 0

variable {instruction : Instruction} {error : RunError} {failed : Machine H}

theorem execution_of_fail (hready : machine.clearMarks.Ready instruction.op)
    (h : machine.step setting instruction = .fail error failed) :
    (∃ limit, error.fault = .cycleLimit limit ∧ machine.lost setting instruction = 0 ∧
      (failed = machine ∨ machine.step setting.uncounted instruction = .ok failed)) ∨
    failed.execution = (machine.clearMarks.writes setting instruction.op).foldl HostWrite.run
        (machine.execution.unmarked.dropOperands (machine.lost setting instruction)) ∧
      machine.lost setting instruction = machine.clearMarks.taken setting instruction.op := by
  have houtcome := stepOutcome setting machine instruction
  rw [h] at houtcome
  cases houtcome with
  | @reached limit hlimit =>
    refine .inl ⟨limit, rfl, ?_, .inl rfl⟩
    simp only [lost, hlimit]
  | @spends limit done hx hwaiting =>
    refine .inl ⟨limit, rfl, ?_, .inr (step_uncounted hx hwaiting)⟩
    rw [lost, hx]
    cases machine.limitReached? setting <;> rfl
  | fails hlimit hx =>
    have hlost : machine.lost setting instruction =
        machine.clearMarks.taken setting instruction.op := by
      simp only [lost, hlimit, hx]
    have hspares := spares_execute setting hready
    rw [hx] at hspares
    rw [hlost]
    exact .inr ⟨hspares, rfl⟩

theorem Kept.resting_of_fail (hc : Compiled program shape table)
    (hk : machine.Kept program shape table) (hn : machine.next? = some instruction)
    (h : machine.step setting instruction = .fail error failed)
    (hlost : machine.lost setting instruction = 0) :
    failed.execution.Resting program shape table := by
  have hready : machine.clearMarks.Ready instruction.op := hk.clearMarks.ready hc hn
  obtain ⟨limit, -, -, rfl | hdone⟩ | ⟨hx, -⟩ := execution_of_fail hready h
  · exact hk.resting
  · have hstep : (machine.step setting.uncounted instruction).Meets _ _ := meets_step hc hk hn
    rw [hdone] at hstep
    exact Kept.resting hstep
  · rw [hlost, Execution.dropOperands_zero] at hx
    rw [hx]
    exact hk.clearMarks.resting.of_alike (Execution.alike_writes _ _)

end Machine

/-- What a host makes of an execution: it writes variables, runs and resumes it, each time with any
providers, signals and limits. Where a run fails, no operands are lost. -/
inductive Retried (origin : Execution) : Execution → Prop where
  | origin : Retried origin origin
  | write {execution : Execution} (write : HostWrite) :
      Retried origin execution → Retried origin (write.run execution)
  | resume {H : Type} {fuel : Nat} {runner next : Runner H} {world world' : World H}
      {execution? : Option Execution} {execution : Execution} : Retried origin execution →
      runner.Resumes execution? execution →
      runner.resume fuel world execution? = some (none, next, world') →
      Retried origin next.execution
  | fail {H : Type} {setting : Setting H} {world : World H} {machine failed : Machine H}
      {execution : Execution} {instruction : Instruction} {error : RunError} :
      Retried origin execution → Machine.Reaches setting ⟨execution, .started, world⟩ machine →
      machine.next? = some instruction → machine.step setting instruction = .fail error failed →
      machine.lost setting instruction = 0 → Retried origin failed.execution

theorem Retried.resting {program : Program} {shape : Nat → Shape} {table : Table Procedure}
    {origin execution : Execution} (h : Retried origin execution)
    (hc : Compiled program shape table) (horigin : origin.Resting program shape table) :
    execution.Resting program shape table := by
  induction h with
  | origin => exact horigin
  | write write _ ih => exact ih.of_alike (Execution.alike_write _ write)
  | resume _ hresumes hrun ih =>
    rw [hresumes.resume_eq] at hrun
    obtain ⟨paused, hr, -, hx, -⟩ := Runner.reaches_of_run hrun
    rw [hx]
    obtain hk | he := hr.kept_of_resting hc ih
    · exact hk.resting
    · exact .inr (.inr he)
  | fail _ hr hn hs hlost ih => exact (hr.kept_of_next? hc ih hn).resting_of_fail hc hn hs hlost

theorem Program.exists_compiled {tree : Node} {before : List Node} {program : Program}
    (h : tree.compile before = .ok program ∨ tree.compileExpression before = .ok program) :
    ∃ shape table, Compiled program shape table ∧ shape 0 = ⟨0, .top⟩ := by
  obtain h | h := h
  · obtain ⟨code, entries, hlowers, rfl⟩ := Lowers.of_compile h
    exact ⟨_, _, hlowers.compiled, hlowers.program_stands.empty⟩
  · obtain ⟨code, entries, value, hlowers, hvalue, rfl⟩ := Lowers.of_compileExpression h
    exact ⟨_, _, hvalue.compiled hlowers⟩

theorem Execution.stack_asked (execution : Execution) (count : Nat) (writes : List HostWrite) :
    (writes.foldl HostWrite.run (execution.unmarked.dropOperands count)).frame.stack =
      execution.frame.stack.drop count := by
  rw [stack_writes, stack_dropOperands]
  rfl

theorem Execution.samePlace_asked (execution : Execution) (count : Nat) (writes : List HostWrite) :
    (writes.foldl HostWrite.run (execution.unmarked.dropOperands count)).SamePlace execution :=
  ((stays_dropOperands _ _).trans (stays_writes _ writes)).samePlace.trans ⟨rfl, rfl, rfl⟩

theorem Machine.taken_le_needs {H : Type} (setting : Setting H) (machine : Machine H) (op : Op) :
    machine.taken setting op ≤ op.needs := by
  unfold taken
  cases hr : machine.request? setting op with
  | some asked => exact Nat.le_of_eq (argc_eq_needs hr)
  | none =>
    rw [Option.elim]
    cases op <;> simp [Op.spent, Op.needs]

theorem Runner.Resumes.exists_fail {H : Type} {fuel : Nat} {runner next : Runner H}
    {world world' : World H} {execution? : Option Execution} {execution : Execution}
    {error : RunError} (h : runner.Resumes execution? execution)
    (hrun : runner.resume fuel world execution? = some (some error, next, world')) :
    ∃ machine instruction failed,
      Machine.Reaches runner.setting ⟨execution, .started, world⟩ machine ∧
      machine.next? = some instruction ∧
      machine.step runner.setting instruction = .fail error failed ∧
      next.execution = failed.execution := by
  rw [h.resume_eq] at hrun
  obtain ⟨outcome, houtcome, hnext⟩ := Option.map_eq_some_iff.1 hrun
  cases outcome with
  | ok last => cases hnext
  | fail raised failed =>
    cases hnext
    obtain ⟨machine, instruction, hr, hn, hs⟩ := Machine.reaches_of_runFor_fail houtcome
    exact ⟨machine, instruction, failed, hr, hn, hs, rfl⟩

open Machine in
/-- A run of a compiled program that fails leaves behind the execution as it was before the
instruction that failed, but for the mark of the last interrupt, for what a provider has written, and
for the operands that were taken: two of an operator, one of a property access, the arguments of a
builtin function, and those of a call once a provider has been asked. The instruction can be tried
again with its operands just when none were taken. A run that fails by the limit on steps leaves
behind the execution before or after an instruction. -/
theorem failed_run_loses_taken_operands {tree : Node} {before : List Node} {program : Program}
    (hcompile : tree.compile before = .ok program ∨ tree.compileExpression before = .ok program)
    {execution : Execution} (hretried : Retried (.start program) execution) {H : Type} {fuel : Nat}
    {runner next : Runner H} {world world' : World H} {execution? : Option Execution}
    {error : RunError} (hresumes : runner.Resumes execution? execution)
    (hrun : runner.resume fuel world execution? = some (some error, next, world')) :
    ∃ machine instruction, Reaches runner.setting ⟨execution, .started, world⟩ machine ∧
      machine.next? = some instruction ∧
      ((∃ limit, error.fault = .cycleLimit limit ∧ (next.execution = machine.execution ∨
          ∃ done, machine.step runner.setting.uncounted instruction = .ok done ∧
            next.execution = done.execution)) ∨
        ∃ count, count = machine.clearMarks.taken runner.setting instruction.op ∧
          next.execution = (machine.clearMarks.writes runner.setting instruction.op).foldl
            HostWrite.run (machine.execution.unmarked.dropOperands count) ∧
          next.execution.instruction? = some instruction ∧
          next.execution.frame.stack = machine.stack.drop count ∧
          (next.execution.frame.stack = machine.stack ↔ count = 0) ∧
          (count = 0 → Retried (.start program) next.execution)) := by
  obtain ⟨shape, table, hc, hstart⟩ := Program.exists_compiled hcompile
  obtain ⟨machine, instruction, failed, hr, hn, hs, hnext⟩ := hresumes.exists_fail hrun
  have hrest := hretried.resting hc (.inl (Execution.settled_start hstart))
  have hk := hr.kept_of_next? hc hrest hn
  have hready : machine.clearMarks.Ready instruction.op := hk.clearMarks.ready hc hn
  refine ⟨machine, instruction, hr, hn, ?_⟩
  obtain ⟨limit, hfault, -, rfl | hdone⟩ | ⟨hx, hlost⟩ := execution_of_fail hready hs
  · exact .inl ⟨limit, hfault, .inl hnext⟩
  · exact .inl ⟨limit, hfault, .inr ⟨failed, hdone, hnext⟩⟩
  · rw [← hnext, hlost] at hx
    have hstack : next.execution.frame.stack =
        machine.stack.drop (machine.clearMarks.taken runner.setting instruction.op) :=
      hx ▸ Execution.stack_asked _ _ _
    have hle : machine.clearMarks.taken runner.setting instruction.op ≤ machine.stack.length :=
      (taken_le_needs _ _ _).trans hready.operands
    have hplace : next.execution.SamePlace machine.execution := hx ▸ Execution.samePlace_asked _ _ _
    refine .inr ⟨_, rfl, hx, ?_, hstack, ?_, ?_⟩
    · rw [Execution.instruction?, hplace.program, hplace.pc]
      exact instruction?_of_next? hn
    · rw [hstack]
      constructor
      · intro hdrop
        have hlength := congrArg List.length hdrop
        rw [List.length_drop] at hlength
        omega
      · intro hzero
        rw [hzero, List.drop_zero]
    · intro hzero
      rw [hnext]
      exact .fail hretried hr hn hs (hlost.trans hzero)

def askWithArgument : Node := .root [.assign "r" (.call "ask" [.int 7 none] none) none] none

def askWithArgumentProgram : Program := (askWithArgument.compile []).toOption.getD .empty

def down : FunctionProvider Unit where
  supports := (· == "ask")
  invoke _ _ _ world := (⟨[], .error ⟨.host "down", none⟩⟩, world)

theorem failed_run_loses_taken_operands_unanswered :
    askWithArgument.compile [] = .ok askWithArgumentProgram ∧
      Retried (.start askWithArgumentProgram) (.start askWithArgumentProgram) ∧
      ∃ (runner next : Runner Unit), runner.Resumes none (.start askWithArgumentProgram) ∧
        runner.resume 5 ⟨.empty, ()⟩ none =
          some (some ⟨.functionNotFound "ask", none⟩, next, ⟨.empty, ()⟩) ∧
        next.execution.frame.stack = [.int 7] ∧
          Retried (.start askWithArgumentProgram) next.execution := by
  have hcompile : askWithArgument.compile [] = .ok askWithArgumentProgram := rfl
  refine ⟨hcompile, .origin, ⟨.start askWithArgumentProgram, true, [], [], [], .idle, .unlimited⟩, _,
    ⟨rfl, rfl⟩, rfl, rfl, ?_⟩
  obtain ⟨machine, instruction, -, -, ⟨_, hfault, -⟩ | ⟨count, hcount, -, hi, -, -, hretried⟩⟩ :=
    failed_run_loses_taken_operands (.inl hcompile) .origin
      (show Runner.Resumes ⟨.start askWithArgumentProgram, true, [], [], [], .idle, .unlimited⟩ none _
        from ⟨rfl, rfl⟩)
      (show Runner.resume 5 _ (⟨.empty, ()⟩ : World Unit) none = _ from rfl)
  · cases hfault
  · obtain rfl : instruction = ⟨.call "ask" 1 0, none⟩ := Option.some.inj (hi.symm.trans rfl)
    refine hretried (hcount.trans ?_)
    rw [Machine.taken, Machine.request?]
    cases machine.clearMarks.execution.program.entry? "ask" <;> rfl

/-- The argument of a call that the host does not answer is lost, and asking again lacks it also when
the host is up. -/
theorem failed_call_loses_argument : ∃ (machine : Machine Unit) (runner next last : Runner Unit),
      askWithArgument.compile [] = .ok askWithArgumentProgram ∧
      runner.Resumes none (.start askWithArgumentProgram) ∧
      Machine.Reaches runner.setting ⟨.start askWithArgumentProgram, .started, ⟨.empty, ()⟩⟩
        machine ∧
      machine.next? = some ⟨.call "ask" 1 0, none⟩ ∧ machine.stack = [.int 7] ∧
      runner.resume 5 ⟨.empty, ()⟩ none = some (some ⟨.host "down", none⟩, next, ⟨.empty, ()⟩) ∧
      next.execution.instruction? = some ⟨.call "ask" 1 0, none⟩ ∧
      next.execution.frame.stack = [] ∧
      Runner.resume 5 { next with functions := [echo] } ⟨.empty, ()⟩ none =
        some (some ⟨.stackUnderflow, none⟩, last, ⟨.empty, ()⟩) :=
  ⟨_, ⟨.start askWithArgumentProgram, true, [down], [], [], .idle, .unlimited⟩, _, _, rfl,
    ⟨rfl, rfl⟩, .step rfl rfl .refl, rfl, rfl, rfl, rfl, rfl, rfl⟩

end DurableScript
