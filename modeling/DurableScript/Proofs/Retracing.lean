import DurableScript.Proofs.Mirroring
import DurableScript.Proofs.Rewinding

namespace DurableScript

namespace Machine

variable {H H' : Type} {setting : Setting H} {setting' : Setting H'} {machine next last : Machine H}
  {again : Machine H'} {world : World H'} {instruction : Instruction} {name : String} {value : Value}

def Steady (machine : Machine H) : Prop :=
  ∀ pos op left right rest, machine.next? = some ⟨.operate op, pos⟩ →
    machine.stack = right :: left :: rest → Value.Steady machine.world.objects left right op

/-- The second machine does what the first one does, in a world that knows all objects which the first
one has looked up. -/
abbrev Retraces (world : World H') : Machine H → Machine H' → Prop :=
  Mirrors Eq fun earlier other => other = world ∧ earlier.objects.Precedes world.objects

namespace Retraces

section

variable (h : Retraces world machine again)
include h

theorem execution_eq :
    again.execution = { machine.execution with steps := again.execution.steps } := h.execution.eq

theorem stack_eq : again.stack = machine.stack := by
  rw [stack, h.execution_eq]
  rfl

theorem lookup?_eq (name : String) :
    again.execution.lookup? name = machine.execution.lookup? name := by
  rw [h.execution_eq]
  rfl

theorem of_sameRun (hrun : machine.SameRun next)
    (hknown : next.world.objects.Precedes world.objects) : Retraces world next again :=
  ⟨hrun.execution ▸ h.execution, hrun.status ▸ h.status, h.world.1, hknown⟩

theorem push (value : Value) :
    Retraces world (machine.push value).advance (again.push value).advance :=
  (Mirrors.push h (Value.matches_self value fun _ _ => rfl)).advance

theorem resolve {ref : ObjectRef Value} {object : HostObject Value}
    (hresolve : machine.resolve ref = .ok (object, next))
    (hknown : next.world.objects.Precedes world.objects) :
    again.resolve ref = .ok (object, again) := by
  obtain ⟨objects, hfound, rfl⟩ := resolve_eq_ok hresolve
  obtain ⟨_, _, _⟩ := again
  obtain rfl := h.world.1
  simp only [Machine.resolve, Objects.Precedes.resolve_again hknown hfound]

theorem readVariable (hread : machine.readVariable name = .ok (value, next))
    (hknown : next.world.objects.Precedes world.objects) :
    again.readVariable name = .ok (value, again) := by
  obtain ⟨hlookup, hcase⟩ := readVariable_eq_ok hread
  unfold Machine.readVariable
  rw [h.lookup?_eq, hlookup]
  obtain ⟨ref, object, rfl, hresolve⟩ | ⟨hobject, -⟩ := hcase
  · simp only [h.resolve hresolve hknown]
    rfl
  · cases value with
    | object ref => exact absurd rfl (hobject ref)
    | _ => rfl

theorem receiver {typeName : String}
    (hreceiver : machine.receiver name = .ok (value, typeName, next))
    (hknown : next.world.objects.Precedes world.objects) :
    again.receiver name = .ok (value, typeName, again) := by
  obtain ⟨read, hread, hcase⟩ := receiver_eq_ok hreceiver
  unfold Machine.receiver
  obtain ⟨fields, rfl, rfl, rfl⟩ | ⟨ref, object, rfl, hresolve, rfl⟩ := hcase
  · simp only [h.readVariable hread hknown]
  · have hread' : read.world.objects.Precedes world.objects :=
      (precedes_resolve hresolve).objects.trans hknown
    have hagain : Retraces world read again := h.of_sameRun (sameRun_readVariable hread) hread'
    simp only [h.readVariable hread hread', hagain.resolve hresolve hknown]
    rfl

theorem property {object : Value} (hproperty : machine.property name object = (.ok value, next))
    (hknown : next.world.objects.Precedes world.objects) :
    again.property name object = (.ok value, again) := by
  obtain ⟨fields, rfl, hvalue, -⟩ | ⟨ref, found, rfl, hresolve, hvalue⟩ := property_eq_ok hproperty
  · rw [Machine.property, hvalue]
  · rw [Machine.property, h.resolve hresolve hknown]
    simp only [hvalue]

theorem popThen {f : Value → Machine H → Outcome H} {g : Value → Machine H' → Outcome H'}
    (hx : machine.popThen f = .ok next)
    (hfg : ∀ value rest, machine.stack = value :: rest →
      Retraces world (machine.setStack rest) (again.setStack rest) →
      f value (machine.setStack rest) = .ok next →
      ∃ next', g value (again.setStack rest) = .ok next' ∧ Retraces world next next') :
    ∃ next', again.popThen g = .ok next' ∧ Retraces world next next' := by
  obtain ⟨value, rest, hstack, hf⟩ := popThen_eq_ok hx
  have hrest : Retraces world (machine.setStack rest) (again.setStack rest) :=
    Mirrors.setStack h (List.forall₂_same.2 fun value _ => Value.matches_self value fun _ _ => rfl)
  obtain ⟨next', hg, hnext⟩ := hfg value rest hstack hrest hf
  refine ⟨next', ?_, hnext⟩
  rw [Machine.popThen, h.stack_eq, hstack]
  exact hg

theorem execute {op : Op} (hsignals : setting'.signals = setting.signals) (hop : op.computes = true)
    (hcall : op.call? = none)
    (hsteady : ∀ operator left right rest, op = .operate operator →
      machine.stack = right :: left :: rest → Value.Steady machine.world.objects left right operator)
    (hx : execute setting machine op = .ok next)
    (hknown : next.world.objects.Precedes world.objects) :
    ∃ next', Machine.execute setting' again op = .ok next' ∧ Retraces world next next' := by
  cases op with
  | pushValue literal =>
    cases hx
    exact ⟨_, rfl, h.push literal.value⟩
  | pushVariable name =>
    rw [Machine.execute] at hx
    split at hx
    · next value found hread =>
      cases hx
      refine ⟨(again.push value).advance, ?_, ?_⟩
      · rw [Machine.execute, h.readVariable hread hknown]
      · exact (h.of_sameRun (sameRun_readVariable hread) hknown).push value
    · cases hx
  | operate operator =>
    rw [Machine.execute] at hx ⊢
    refine h.popThen hx fun right rest hright h hx => ?_
    refine h.popThen hx fun left rest' hleft h hx => ?_
    rw [stack_setStack] at hleft
    rw [hleft] at hright
    have happly := Value.apply_eq_of_precedes h.world.2 (hsteady operator left right rest' rfl hright)
    have hworld : ((again.setStack rest).setStack rest').world = world := h.world.1
    rw [hworld, happly]
    split at hx
    · next value _ =>
      cases hx
      exact ⟨_, rfl, h.push value⟩
    · cases hx
  | callBuiltin function argc =>
    rw [Machine.execute] at hx ⊢
    have hargs : ¬ machine.stack.length < argc := fun hlt => by
      rw [popArgsThen, if_pos hlt] at hx
      cases hx
    have hx := popArgsThen_eq_ok hx
    have hdrop : Retraces world (machine.setStack (machine.stack.drop argc))
        (again.setStack (machine.stack.drop argc)) :=
      Mirrors.setStack h (List.forall₂_same.2 fun value _ => Value.matches_self value fun _ _ => rfl)
    rw [popArgsThen, h.stack_eq, if_neg hargs, hsignals]
    split at hx
    · next value _ =>
      cases hx
      exact ⟨_, rfl, hdrop.push value⟩
    · cases hx
  | pushResult =>
    cases hx
    refine ⟨_, rfl, ?_⟩
    rw [h.execution_eq]
    exact h.push machine.execution.frame.result
  | pushProperty name =>
    rw [Machine.execute] at hx ⊢
    refine h.popThen hx fun object rest hstack h hx => ?_
    split at hx
    · next value found hproperty =>
      cases hx
      have hrun := sameRun_property (machine.setStack rest) name object
      rw [hproperty] at hrun
      rw [h.property hproperty hknown]
      exact ⟨_, rfl, (h.of_sameRun hrun hknown).push value⟩
    · cases hx
  | invert =>
    rw [Machine.execute] at hx ⊢
    refine h.popThen hx fun value rest hstack h hx => ?_
    cases hx
    exact ⟨_, rfl, h.push _⟩
  | call | callMethod => cases hcall
  | _ => cases hop

end

theorem step (h : Retraces world machine.clearMarks again.clearMarks)
    (hlimit : setting'.limits.maxCycles = none) (hsignals : setting'.signals = setting.signals)
    (hop : instruction.op.computes = true) (hcall : instruction.op.call? = none)
    (hn : machine.next? = some instruction) (hsteady : machine.Steady)
    (hs : machine.step setting instruction = .ok next)
    (hknown : next.world.objects.Precedes world.objects) :
    ∃ next', again.step setting' instruction = .ok next' ∧ Retraces world next next' := by
  obtain ⟨done, hx, rfl⟩ := ok_cases hs
  have hfinish {machine : Machine H} {again : Machine H'} (h : Retraces world machine again) :
      Retraces world machine.finishStep again.finishStep := by
    unfold finishStep
    rw [h.status.waitingFor]
    split
    · exact h
    · exact h.countStep
  have hworld : done.finishStep.world = done.world := by
    unfold finishStep
    split <;> rfl
  rw [hworld] at hknown
  have hoperands (operator : Operator) (left right : Value) (rest : List Value)
      (hoperate : instruction.op = .operate operator) (hstack : machine.stack = right :: left :: rest) :
      Value.Steady machine.world.objects left right operator := by
    obtain ⟨op, pos⟩ := instruction
    obtain rfl := hoperate
    exact hsteady pos operator left right rest hn hstack
  obtain ⟨done', hx', hdone⟩ := h.execute hsignals hop hcall hoperands hx hknown
  refine ⟨done'.finishStep, ?_, hfinish hdone⟩
  rw [step_eq hlimit, hx']
  rfl

end Retraces

end Machine

def Execution.restacked (stack : List Value) (execution : Execution) : Execution :=
  execution.modifyFrame fun frame => { frame with stack := stack }

theorem Execution.restacked_self (execution : Execution) :
    execution.restacked execution.frame.stack = execution := by
  obtain ⟨_, _, calls, _, _, _⟩ := execution
  cases calls <;> rfl

theorem Execution.dropOperands_restacked (execution : Execution) (stack : List Value)
    (count pc steps : Nat) (mark : Option InterruptKind) :
    ({ execution.restacked stack with pc := pc, steps := steps, lastInterrupt := mark } :
        Execution).dropOperands count =
      { execution.restacked (stack.drop count) with
        pc := pc, steps := steps, lastInterrupt := mark } := by
  obtain ⟨_, _, calls, _, _, _⟩ := execution
  cases calls <;> rfl

theorem Execution.abreast_restacked (execution : Execution) (stack : List Value) :
    (execution.restacked stack).Abreast execution :=
  (stays_modifyFrame execution (f := fun frame => { frame with stack := stack }) fun _ => rfl).abreast

theorem Execution.stack_restacked (stack : List Value) (execution : Execution) :
    (execution.restacked stack).frame.stack = stack := by
  rw [restacked, frame_modifyFrame]

def Program.Plain (program : Program) (start count : Nat) : Prop :=
  ∀ index, start ≤ index → index < start + count → ∃ instruction,
    program.code[index]? = some instruction ∧ instruction.op.computes = true ∧
      instruction.op.call? = none

theorem Program.Plain.tail {program : Program} {start count : Nat}
    (h : program.Plain start (count + 1)) : program.Plain (start + 1) count :=
  fun index hle hlt => h index (Nat.le_of_succ_le hle) (by omega)

namespace Machine

variable {H H' : Type} {setting : Setting H} {setting' : Setting H'} {machine next last : Machine H}
  {again : Machine H'} {world : World H'} {instruction : Instruction} {count : Nat}

theorem plain_of_next? (h : machine.execution.program.Plain machine.execution.pc (count + 1))
    (hn : machine.next? = some instruction) :
    instruction.op.computes = true ∧ instruction.op.call? = none := by
  obtain ⟨found, hat, hplain⟩ := h machine.execution.pc (Nat.le_refl _) (by omega)
  have hi : machine.execution.program.code[machine.execution.pc]? = some instruction :=
    instruction?_of_next? hn
  cases hat.symm.trans hi
  exact hplain

theorem step_of_computes (hop : instruction.op.computes = true) (hcall : instruction.op.call? = none)
    (hs : machine.step setting instruction = .ok next) :
    ∃ value, next.execution = { machine.execution.restacked
          (value :: machine.stack.drop instruction.op.needs) with
        pc := machine.execution.pc + 1
        steps := machine.execution.steps + 1
        lastInterrupt := none } ∧
      next.status = machine.clearMarks.status ∧ machine.world.Precedes next.world := by
  obtain ⟨done, hx, rfl⟩ := ok_cases hs
  obtain ⟨taken, value, rfl, htaken, hstatus, hworld⟩ := exists_push_of_computes hop hcall hx
  have hwaiting : (taken.push value).advance.status.waitingFor = none := by
    show taken.status.waitingFor = none
    rw [hstatus]
    rfl
  rw [finishStep_of_none hwaiting]
  refine ⟨value, ?_, hstatus, hworld⟩
  obtain ⟨⟨_, _, calls, _, _, _⟩, _, _⟩ := machine
  obtain ⟨_, _, _⟩ := taken
  obtain rfl := htaken
  cases calls <;> rfl

def stepped (setting : Setting H) : Nat → Machine H → Option (Machine H)
  | 0, machine => some machine
  | count + 1, machine =>
    machine.next?.bind fun instruction =>
      match machine.step setting instruction with
      | .ok next => stepped setting count next
      | .fail _ _ => none

theorem stepped_succ_eq_some : machine.stepped setting (count + 1) = some last ↔
    ∃ instruction next, machine.next? = some instruction ∧
      machine.step setting instruction = .ok next ∧ next.stepped setting count = some last := by
  rw [stepped, Option.bind_eq_some_iff]
  refine exists_congr fun instruction => ?_
  cases machine.step setting instruction with
  | ok next => simp
  | fail error failed => simp

theorem stepped_add (first second : Nat) (machine : Machine H) :
    machine.stepped setting (first + second) =
      (machine.stepped setting first).bind (stepped setting second) := by
  induction first generalizing machine with
  | zero => rw [Nat.zero_add, stepped, Option.bind_some]
  | succ first ih =>
    rw [Nat.succ_add, stepped, stepped, Option.bind_assoc]
    congr 1
    funext instruction
    cases machine.step setting instruction with
    | ok next => exact ih next
    | fail error failed => rfl

theorem stepped_trans {first second : Nat} (h : machine.stepped setting first = some next)
    (h' : next.stepped setting second = some last) :
    machine.stepped setting (first + second) = some last := by
  rw [stepped_add, h]
  exact h'

theorem exists_next?_of_stepped (h : machine.stepped setting count = some last)
    (hn : last.next? = some instruction) : ∃ first, machine.next? = some first := by
  cases count with
  | zero =>
    cases h
    exact ⟨instruction, hn⟩
  | succ count =>
    obtain ⟨first, next, hfirst, -⟩ := stepped_succ_eq_some.1 h
    exact ⟨first, hfirst⟩

theorem plain_of_step (h : machine.execution.program.Plain machine.execution.pc (count + 1))
    (hn : machine.next? = some instruction) (hs : machine.step setting instruction = .ok next) :
    next.execution.program.Plain next.execution.pc count := by
  obtain ⟨hop, hcall⟩ := plain_of_next? h hn
  obtain ⟨value, hnext, -⟩ := step_of_computes hop hcall hs
  have hprogram : next.execution.program = machine.execution.program := by
    rw [hnext]
    exact (machine.execution.abreast_restacked _).program
  rw [hprogram, hnext]
  exact h.tail

theorem stepped_of_plain (hplain : machine.execution.program.Plain machine.execution.pc count)
    (hs : machine.stepped setting count = some last) :
    machine.world.Precedes last.world ∧ ∃ stack, last.execution = { machine.execution.restacked stack with
      pc := machine.execution.pc + count
      steps := last.execution.steps
      lastInterrupt := last.execution.lastInterrupt } := by
  induction count generalizing machine with
  | zero =>
    cases hs
    refine ⟨.refl _, last.stack, ?_⟩
    rw [stack, Execution.restacked_self]
    rfl
  | succ count ih =>
    obtain ⟨instruction, next, hn, hstep, hrest⟩ := stepped_succ_eq_some.1 hs
    obtain ⟨hop, hcall⟩ := plain_of_next? hplain hn
    obtain ⟨value, hnext, -, hworld⟩ := step_of_computes hop hcall hstep
    obtain ⟨hlater, stack, hlast⟩ := ih (plain_of_step hplain hn hstep) hrest
    refine ⟨hworld.trans hlater, stack, ?_⟩
    rw [hlast, hnext]
    obtain ⟨⟨_, _, calls, pc, _, _⟩, _, _⟩ := machine
    have hpc : pc + 1 + count = pc + (count + 1) := by omega
    cases calls <;> simp only [Execution.restacked, Execution.modifyFrame, hpc]

theorem Retraces.stepped (hlimit : setting'.limits.maxCycles = none)
    (hsignals : setting'.signals = setting.signals)
    (hplain : machine.execution.program.Plain machine.execution.pc count)
    (hsteady : ∀ fewer last, fewer < count → machine.stepped setting fewer = some last → last.Steady)
    (h : Retraces world machine.clearMarks again.clearMarks)
    (hs : machine.stepped setting count = some last)
    (hknown : last.world.objects.Precedes world.objects) :
    ∃ last', again.stepped setting' count = some last' ∧
      Retraces world last.clearMarks last'.clearMarks := by
  induction count generalizing machine again with
  | zero =>
    cases hs
    exact ⟨again, rfl, h⟩
  | succ count ih =>
    obtain ⟨instruction, next, hn, hstep, hrest⟩ := stepped_succ_eq_some.1 hs
    obtain ⟨hop, hcall⟩ := plain_of_next? hplain hn
    have htail := plain_of_step hplain hn hstep
    have hknown' : next.world.objects.Precedes world.objects :=
      (stepped_of_plain htail hrest).1.objects.trans hknown
    obtain ⟨next', hstep', hnext⟩ :=
      h.step hlimit hsignals hop hcall hn (hsteady 0 machine (Nat.succ_pos _) rfl) hstep hknown'
    have hn' : again.next? = some instruction := h.next?_eq.trans hn
    obtain ⟨last', hrest', hlast⟩ := ih htail
      (fun fewer last hlt hlast => hsteady (fewer + 1) last (Nat.succ_lt_succ hlt)
        (stepped_succ_eq_some.2 ⟨instruction, next, hn, hstep, hlast⟩)) hnext.clearMarks hrest
    exact ⟨last', stepped_succ_eq_some.2 ⟨instruction, next', hn', hstep', hrest'⟩, hlast⟩

section Arguments

variable {program : Program} {shape : Nat → Shape} {table : Table Procedure} {call argc restart : Nat}
  (hc : Compiled program shape table) (hl : program.WellLaid)
  (hcall : program.callAt? call = some (argc, restart))
  (hplain : program.Plain restart (call - restart))

include hc hl hcall hplain

theorem suffix_of_stepped {base : List Value} (hbase : base.length = (shape restart).operands)
    (hkept : machine.Kept program shape table) (hle : restart ≤ machine.execution.pc)
    (hcount : machine.execution.pc + count = call) (hsuffix : base <:+ machine.stack)
    (hs : machine.stepped setting count = some last) :
    last.Kept program shape table ∧ base <:+ last.stack := by
  induction count generalizing machine with
  | zero =>
    cases hs
    exact ⟨hkept, hsuffix⟩
  | succ count ih =>
    obtain ⟨instruction, next, hn, hstep, hrest⟩ := stepped_succ_eq_some.1 hs
    have hresting := hkept.resting
    have hi := instruction?_of_next? hn
    obtain ⟨found, hat, hop, habove, -⟩ := hl.exists_argument hc hcall hle (by omega)
    obtain ⟨found', hat', -, hplain'⟩ := hplain machine.execution.pc hle (by omega)
    obtain ⟨rfl, rfl⟩ : instruction = found ∧ instruction = found' := by
      rw [Execution.instruction?, hresting.runs] at hi
      exact ⟨Option.some.inj (hi.symm.trans hat), Option.some.inj (hi.symm.trans hat')⟩
    have hlength : machine.stack.length = (shape machine.execution.pc).operands :=
      (hresting.settled_of_straight hi (Op.straight_of_computes hop)).nested.length_stack
    obtain ⟨value, hnext, -⟩ := step_of_computes hop hplain' hstep
    have hmeets : (machine.step setting instruction).Meets _ _ := meets_step hc hkept hn
    rw [hstep] at hmeets
    have hpc : next.execution.pc = machine.execution.pc + 1 := by rw [hnext]
    have hstack : next.stack = value :: machine.stack.drop instruction.op.needs := by
      rw [stack, hnext]
      exact Execution.stack_restacked _ machine.execution
    refine ih hmeets (by omega) (by omega) ?_ hrest
    rw [hstack]
    exact (suffix_drop hsuffix (by omega)).trans (List.suffix_cons _ _)

omit hplain in
theorem length_stack_of_argument (hkept : machine.Kept program shape table)
    (hn : machine.next? = some instruction) (hle : restart ≤ machine.execution.pc)
    (hle' : machine.execution.pc ≤ call) :
    machine.stack.length = (shape machine.execution.pc).operands := by
  have hi := instruction?_of_next? hn
  have hat : program.code[machine.execution.pc]? = some instruction := by
    rw [← hi, Execution.instruction?, hkept.resting.runs]
  have hop : instruction.op.computes = true := by
    obtain heq | hlt := Nat.eq_or_lt_of_le hle'
    · rw [heq] at hat
      obtain ⟨found, hfound, hcalls⟩ := Program.exists_callAt? hcall
      obtain rfl := Option.some.inj (hat.symm.trans hfound)
      exact Op.computes_of_call? hcalls
    · obtain ⟨found, hfound, hop, -⟩ := hl.exists_argument hc hcall hle hlt
      obtain rfl := Option.some.inj (hat.symm.trans hfound)
      exact hop
  exact (hkept.resting.settled_of_straight hi (Op.straight_of_computes hop)).nested.length_stack

theorem drop_arguments (hkept : machine.Kept program shape table)
    (hpc : machine.execution.pc = restart) (hs : machine.stepped setting (call - restart) = some last)
    (hn : last.next? = some instruction) : last.stack.drop argc = machine.stack := by
  have hle := hl.restart_le hcall
  have hbegin : machine.stack.length = (shape restart).operands := by
    obtain ⟨first, hfirst⟩ := exists_next?_of_stepped hs hn
    rw [← hpc]
    exact length_stack_of_argument hc hl hcall hkept hfirst (by omega) (by omega)
  obtain ⟨hlast, hsuffix⟩ := suffix_of_stepped hc hl hcall hplain hbegin hkept (by omega) (by omega)
    (List.suffix_refl _) hs
  have hat : last.execution.pc = call := by
    have hplain' : machine.execution.program.Plain machine.execution.pc (call - restart) := by
      rw [hkept.resting.runs, hpc]
      exact hplain
    obtain ⟨-, stack, hexecution⟩ := stepped_of_plain hplain' hs
    rw [hexecution]
    show machine.execution.pc + (call - restart) = call
    omega
  have hend := length_stack_of_argument hc hl hcall hlast hn (by omega) (by omega)
  rw [hat, hc.operands_callAt? hcall] at hend
  have hcount : last.stack.length - machine.stack.length = argc := by omega
  rw [← hcount]
  exact (List.suffix_iff_eq_drop.1 hsuffix).symm

end Arguments

end Machine

end DurableScript
