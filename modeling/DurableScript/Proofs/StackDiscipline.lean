import DurableScript.Proofs.Containment

/-!
The operand stack of a compiled program always has the shape that its place in the code asks for.
-/

namespace DurableScript

/-- Providers do not report the faults by which a machine says that it has lost track. -/
structure Setting.Honest {H : Type} (setting : Setting H) : Prop where
  functions : ∀ provider ∈ setting.functions, ∀ context name args world error,
    (provider.invoke context name args world).1.outcome = .error error →
      error.fault.isStructural = false
  methods : ∀ provider ∈ setting.methods, ∀ context object name args world error,
    (provider.invoke context object name args world).1.outcome = .error error →
      error.fault.isStructural = false

namespace Execution

structure Settled (program : Program) (shape : Nat → Shape) (execution : Execution) : Prop where
  runs : execution.program = program
  bounded : execution.pc ≤ program.size
  nested : execution.Nested shape (shape execution.pc)

def CalledWith (table : Table Procedure) (execution : Execution) (expected actual : Nat) : Prop :=
  ∃ name procedure index restart pos, execution.frame.returnTo = some (index + 1) ∧
    execution.program.code[index]? = some ⟨.call name actual restart, pos⟩ ∧
    execution.program.entry? name = some execution.pc ∧
    Table.find? name table = some procedure ∧ procedure.params.length = expected

structure Entering (program : Program) (shape : Nat → Shape) (table : Table Procedure)
    (execution : Execution) (expected actual : Nat) : Prop where
  runs : execution.program = program
  calledWith : execution.CalledWith table expected actual
  instruction : ∃ pos, execution.instruction? = some ⟨.expectStack expected, pos⟩
  nested : execution.Nested shape ⟨actual, .entry⟩

structure Ended (program : Program) (execution : Execution) : Prop where
  runs : execution.program = program
  pc : execution.pc = program.size
  calls : execution.calls = []
  stack : execution.globals.stack = []

variable {program : Program} {shape : Nat → Shape} {table : Table Procedure}
  {execution other : Execution}

theorem Entering.place_entry {expected actual : Nat} (hc : Compiled program shape table)
    (h : execution.Entering program shape table expected actual) :
    (shape execution.pc).place = .entry := by
  obtain ⟨pos, hi⟩ := h.instruction
  rw [instruction?, h.runs] at hi
  have hfit : Op.Fits shape program.size execution.pc (.expectStack expected) := by
    simpa using hc.fits.get (Array.getElem?_toList.trans hi)
  exact congrArg Shape.place hfit.1

theorem Entering.lt_size {expected actual : Nat}
    (h : execution.Entering program shape table expected actual) :
    execution.pc < execution.program.size := by
  obtain ⟨pos, hi⟩ := h.instruction
  exact (Array.getElem?_eq_some_iff.1 hi).1

theorem Settled.of_alike (h : execution.Settled program shape) (ha : other.Alike execution) :
    other.Settled program shape :=
  ⟨ha.program.trans h.runs, ha.pc ▸ h.bounded, ha.pc ▸ h.nested.of_alike ha⟩

theorem Nested.of_stays {current next : Shape} (h : execution.Nested shape current)
    (hstays : execution.Stays other) (hlength : other.frame.stack.length = next.operands)
    (hplace : next.place = .top ↔ current.place = .top) : other.Nested shape next := by
  unfold Nested outline bottom at *
  unfold frame at hlength
  rw [hstays.program]
  cases hcalls : execution.calls with
  | nil =>
    rw [hcalls] at h
    rw [hstays.nil hcalls] at hlength ⊢
    exact ⟨hlength, hplace.2 h.2⟩
  | cons call rest =>
    rw [hcalls] at h
    obtain ⟨-, hne, hcallers⟩ := h
    obtain ⟨⟨call', hcalls', hreturn⟩, hglobals⟩ := hstays.cons call rest hcalls
    rw [hcalls'] at hlength ⊢
    rw [hglobals, List.map_cons, hreturn]
    exact ⟨hlength, mt hplace.1 hne, hcallers⟩

theorem Settled.of_nested (hruns : execution.program = program) {target : Nat}
    (ht : target ≤ program.size) (hnested : execution.Nested shape (shape target)) :
    Settled program shape { execution with pc := target } := ⟨hruns, ht, hnested⟩

theorem Settled.mark (h : execution.Settled program shape) (kind : Option InterruptKind) :
    Settled program shape { execution with lastInterrupt := kind } :=
  ⟨h.runs, h.bounded, h.nested⟩

theorem Settled.lt_size (h : execution.Settled program shape) {instruction : Instruction}
    (hi : execution.instruction? = some instruction) : execution.pc < program.size := by
  unfold instruction? at hi
  rw [h.runs] at hi
  exact (Array.getElem?_eq_some_iff.1 hi).1

end Execution

def Op.gives (op : Op) : Nat := (op.computes && op.call?.isNone).toNat

theorem Op.gives_of_call? {op : Op} {argc restart : Nat} (h : op.call? = some (argc, restart)) :
    op.gives = 0 := by
  rw [gives, computes_of_call? h, h]
  rfl

section Fitting

variable {shape : Nat → Shape} {size index : Nat} {op : Op} {program : Program}
  {table : Table Procedure}

section

variable (h : op.Fits shape size index)
include h

theorem Op.Fits.advance (hop : op.goesOn = true) :
    (shape index).operands + op.gives = (shape (index + 1)).operands + op.needs ∧
      ((shape (index + 1)).place = .top ↔ (shape index).place = .top) := by
  cases op with
  | pushValue | pushVariable | pushResult | stop | nop | wait =>
    rw [show shape (index + 1) = _ from h]
    exact ⟨rfl, Iff.rfl⟩
  | operate | callBuiltin =>
    obtain ⟨base, hhere, hnext⟩ := h
    rw [hhere, hnext]
    exact ⟨Nat.add_right_comm .., Iff.rfl⟩
  | setVariable =>
    rw [show shape index = _ from h]
    exact ⟨rfl, Iff.rfl⟩
  | call | callMethod | jumpUnless | pushProperty | invert =>
    rw [h.1]
    exact ⟨rfl, Iff.rfl⟩
  | expectStack =>
    rw [h.1, h.2]
    exact ⟨rfl, nofun, nofun⟩
  | jump | ret => cases hop

theorem Op.Fits.jump {target : Nat} (hjump : op.jump? = some target) :
    (shape index).operands = (shape target).operands + op.needs ∧
      (shape target).place = (shape index).place ∧ target ≤ size := by
  cases op with
  | jump =>
    cases hjump
    rw [h.1]
    exact ⟨rfl, rfl, h.2⟩
  | jumpUnless =>
    cases hjump
    rw [h.1, h.2.1]
    exact ⟨rfl, rfl, h.2.2⟩
  | _ => cases hjump

theorem Op.Fits.restart {argc restart : Nat} (hcall : op.call? = some (argc, restart)) :
    shape restart = shape (index + 1) ∧ restart ≤ size := by
  cases op with
  | call | callMethod =>
    cases hcall
    exact h.2
  | _ => cases hcall

theorem Op.Fits.needs_le : op.needs ≤ (shape index).operands := by
  cases op with
  | operate | callBuiltin =>
    obtain ⟨base, hhere, -⟩ := h
    rw [hhere]
    exact Nat.le_add_left ..
  | setVariable =>
    rw [show shape index = _ from h]
    exact Nat.le_add_left ..
  | call | callMethod | jumpUnless =>
    rw [h.1]
    exact Nat.le_add_left ..
  | pushProperty | invert => exact h.2
  | ret hasValue =>
    cases hasValue with
    | false => exact Nat.zero_le _
    | true => exact Nat.le_of_eq (show (shape index).operands = 1 from h).symm
  | _ => exact Nat.zero_le _

theorem Op.Fits.targets_le : ∀ target ∈ op.targets, target ≤ size := by
  cases op with
  | call | callMethod | jumpUnless => exact List.forall_mem_singleton.2 h.2.2
  | jump => exact List.forall_mem_singleton.2 h.2
  | _ => exact nofun

end

theorem Compiled.find?_procedure {name : String} {entry : Nat} (h : Compiled program shape table)
    (hentry : program.entry? name = some entry) :
    ∃ procedure, Table.find? name table = some procedure ∧
      Procedure.StandsAt program shape procedure entry := by
  have hlinked := h.linked name
  rw [show Table.find? name program.procedures = some entry from hentry] at hlinked
  cases hfind : Table.find? name table with
  | none =>
    rw [hfind] at hlinked
    cases hlinked
  | some procedure =>
    rw [hfind] at hlinked
    cases hlinked with
    | some hstands => exact ⟨procedure, rfl, hstands⟩

theorem Compiled.standsAt {name : String} {entry : Nat} (h : Compiled program shape table)
    (hentry : program.entry? name = some entry) :
    ∃ procedure, Procedure.StandsAt program shape procedure entry :=
  (h.find?_procedure hentry).imp fun _ h => h.2

theorem Execution.Nested.return_le {execution : Execution} {current : Shape} {target : Nat}
    {rest : List (Option Nat)} (h : execution.Nested shape current)
    (hreturns : execution.returns = some target :: rest) : target ≤ execution.program.size := by
  rw [Execution.returns_eq_map_outline] at hreturns
  unfold Execution.Nested at h
  cases houtline : execution.outline with
  | nil =>
    rw [houtline] at hreturns
    cases hreturns
  | cons call callers =>
    rw [houtline] at h hreturns
    obtain ⟨-, -, index, hindex, hle, -⟩ := h
    obtain ⟨rfl, -⟩ := Option.some.inj (hindex.symm.trans (List.cons.inj hreturns).1)
    exact hle

theorem Execution.Settled.fits {execution : Execution} {instruction : Instruction}
    (hs : execution.Settled program shape) (hc : Compiled program shape table)
    (hi : execution.instruction? = some instruction) :
    instruction.op.Fits shape program.size execution.pc := by
  have hget : program.code.toList[execution.pc]? = some instruction := by
    rw [← hi, Execution.instruction?, hs.runs, Array.getElem?_toList]
  simpa using hc.fits.get hget

end Fitting

namespace Outcome

variable {H : Type}

def Meets (good : Machine H → Prop) (bad : RunFault → Prop) : Outcome H → Prop
  | ok machine => good machine
  | fail error _ => bad error.fault

variable {good : Machine H → Prop} {bad : RunFault → Prop} {machine : Machine H}

theorem Meets.mono {outcome : Outcome H} {worse : RunFault → Prop} (h : outcome.Meets good bad)
    (hbad : ∀ fault, bad fault → worse fault) : outcome.Meets good worse := by
  cases outcome with
  | ok machine => exact h
  | fail error machine => exact hbad error.fault h

end Outcome

namespace Machine

variable {H : Type} {program : Program} {shape : Nat → Shape} {table : Table Procedure}
  {setting : Setting H} {machine : Machine H}

/-- The machine stands where the shapes want it, at the entry of a procedure, or at the end after a
return from the top level. -/
def Kept (program : Program) (shape : Nat → Shape) (table : Table Procedure)
    (machine : Machine H) : Prop :=
  machine.execution.Settled program shape ∨
    (machine.status.running = true ∧ ∃ expected actual,
      machine.execution.Entering program shape table expected actual) ∨
    (machine.status.running = false ∧ machine.status.reason = some .returned ∧
      machine.execution.Ended program)

variable {op : Op}

structure Ready (machine : Machine H) (op : Op) : Prop where
  operands : op.needs ≤ machine.stack.length
  targets : ∀ target ∈ op.targets, target ≤ machine.execution.program.size
  entry : ∀ name argc restart entry, op = .call name argc restart →
    machine.execution.program.entry? name = some entry → entry ≤ machine.execution.program.size
  returnTo : ∀ hasValue target rest, op = .ret hasValue →
    machine.execution.returns = some target :: rest → target ≤ machine.execution.program.size

theorem Asked.honest {request : Request H} {error : RunError} {said : Machine H}
    (h : Asked setting machine op request (.error error) said) (honest : setting.Honest) :
    error.fault.isStructural = false := by
  obtain ⟨found, hr, -, hsaid, -⟩ := h
  cases request?_cases hr with
  | function _ hfind =>
    exact honest.functions _ (List.mem_of_find?_eq_some hfind) _ _ _ _ error hsaid
  | method _ hfind =>
    exact honest.methods _ (List.mem_of_find?_eq_some hfind) _ _ _ _ _ error hsaid

theorem Ready.fail_cases {error : RunError} {failed : Machine H} (h : machine.Ready op)
    (hx : execute setting machine op = .fail error failed) :
    (∃ request, Asked setting machine op request (.error error) failed) ∨
    machine.request? setting op = none ∧
      failed.execution = machine.execution.dropOperands op.spent ∧
      (error.fault.isOperational = true ∨ (∃ limit, error.fault = .callDepth limit) ∨
        ∃ count, op = .expectStack count ∧ machine.stack.length ≠ count) := by
  have hsame : machine.execution = machine.execution.dropOperands 0 :=
    machine.execution.dropOperands_zero.symm
  have heffect := effect_execute setting machine op
  rw [hx] at heffect
  cases heffect with
  | refuses hasked => exact .inl ⟨_, hasked⟩
  | fails hr htaken hoperational => exact .inr ⟨hr, htaken.execution, .inl hoperational⟩
  | deepens hentry => exact .inr ⟨request?_eq_none_of_entry hentry, hsame, .inr (.inl ⟨_, rfl⟩)⟩
  | miscounts hne => exact .inr ⟨rfl, hsame, .inr (.inr ⟨_, rfl, hne⟩)⟩
  | lacks hlt => exact absurd h.operands (Nat.not_le.2 hlt)
  | misses hjump htaken hpast =>
    rw [htaken.stays.program] at hpast
    exact absurd (h.targets _ (Op.mem_targets_of_jump? hjump)) (Nat.not_le.2 hpast)
  | overruns hentry _ hpast => exact absurd (h.entry _ _ _ _ rfl hentry) (Nat.not_le.2 hpast)
  | strays hasked hpast =>
    rw [hasked.stays.program] at hpast
    exact absurd (h.targets _ hasked.restart_mem_targets) (Nat.not_le.2 hpast)
  | dangles value _ htaken hcalls hreturn hpast =>
    rw [htaken.stays.program] at hpast
    exact absurd (h.returnTo _ _ _ rfl (hreturn ▸ htaken.returns_eq hcalls)) (Nat.not_le.2 hpast)

section

variable (hc : Compiled program shape table)
include hc

theorem ready_of_settled {pos : Option SourcePos} (hs : machine.execution.Settled program shape)
    (hi : machine.execution.instruction? = some ⟨op, pos⟩) : machine.Ready op := by
  have hlen : machine.stack.length = (shape machine.execution.pc).operands := hs.nested.length_stack
  have hfit := hs.fits hc hi
  refine ⟨?_, ?_, ?_, ?_⟩
  · rw [hlen]
    exact hfit.needs_le
  · rw [hs.runs]
    exact hfit.targets_le
  · intro name argc restart entry _ hentry
    rw [hs.runs] at hentry ⊢
    obtain ⟨_, _, _, -, hcode, -⟩ := hc.standsAt hentry
    exact Nat.le_of_lt (Array.getElem?_eq_some_iff.1 hcode.1).1
  · intro _ target rest _ hreturns
    exact hs.runs ▸ hs.nested.return_le hreturns

theorem entering_of_call (hs : machine.execution.Settled program shape) {name : String}
    {argc restart entry : Nat}
    {pos : Option SourcePos}
    (hi : machine.execution.instruction? = some ⟨.call name argc restart, pos⟩)
    (hentry : machine.execution.program.entry? name = some entry) : ∃ expected actual,
      ((machine.entered argc).goTo entry).execution.Entering program shape table expected actual := by
  obtain ⟨hhere, -⟩ : Op.Fits shape program.size machine.execution.pc (.call name argc restart) :=
    hs.fits hc hi
  have hlen : machine.stack.length = (shape (machine.execution.pc + 1)).operands + argc :=
    hs.nested.length_stack.trans (congrArg Shape.operands hhere)
  have hstays := machine.execution.stays_dropOperands argc
  have hcaller : (machine.execution.dropOperands argc).Nested shape
      (shape (machine.execution.pc + 1)) := by
    refine hs.nested.of_stays hstays ?_ (by rw [hhere]; rfl)
    rw [Execution.stack_dropOperands, List.length_drop]
    exact Nat.sub_eq_of_eq_add hlen
  obtain ⟨procedure, hfind, _, _, -, hcode, -⟩ := hc.find?_procedure (hs.runs ▸ hentry)
  have hruns : (machine.entered argc).execution.program = machine.execution.program := hstays.program
  have hexpect := hcode.1
  rw [← hs.runs, ← hruns] at hexpect
  refine ⟨procedure.params.length, argc, hruns.trans hs.runs, ?_, ⟨procedure.pos, hexpect⟩, ?_⟩
  · refine ⟨name, procedure, machine.execution.pc, restart, pos, rfl, ?_, hruns ▸ hentry, hfind, rfl⟩
    exact hruns ▸ hi
  · refine ⟨?_, nofun, machine.execution.pc + 1, rfl, ?_, hcaller⟩
    · show (List.reverse (List.take argc machine.stack)).length = argc
      rw [List.length_reverse, List.length_take]
      omega
    · exact hruns.trans hs.runs ▸ hs.lt_size hi

theorem meets_execute (hs : machine.execution.Settled program shape)
    (hrunning : machine.status.running = true)
    {instruction : Instruction} (hi : machine.execution.instruction? = some instruction) :
    (execute setting machine instruction.op).Meets (Kept program shape table)
      (fun fault => setting.Honest → fault.isStructural = false) := by
  obtain ⟨op, pos⟩ := instruction
  have hlt := hs.lt_size hi
  have hready := ready_of_settled hc hs hi
  have hfit : op.Fits shape program.size machine.execution.pc := hs.fits hc hi
  have hneeds := hready.operands
  have hlen : machine.stack.length = (shape machine.execution.pc).operands := hs.nested.length_stack
  have hgoes {after : Machine H} {target : Nat} (hstays : machine.execution.Stays after.execution)
      (hle : target ≤ program.size) (hlength : after.stack.length = (shape target).operands)
      (hplace : (shape target).place = .top ↔ (shape machine.execution.pc).place = .top) :
      (after.goTo target).execution.Settled program shape :=
    .of_nested (hstays.program.trans hs.runs) hle (hs.nested.of_stays hstays hlength hplace)
  have hadvance {after : Machine H} (hop : op.goesOn = true)
      (hstays : machine.execution.Stays after.execution)
      (hlength : after.stack.length = machine.stack.length - op.needs + op.gives) :
      after.advance.execution.Settled program shape := by
    obtain ⟨hcount, hplace⟩ := hfit.advance hop
    rw [advance, hstays.pc]
    exact hgoes hstays hlt (by omega) hplace
  have hanswers {request : Request H} {outcome : Except RunError Answer} {said : Machine H}
      (hasked : Asked setting machine op request outcome said) (result : Value) :
      (said.setResult result).advance.execution.Settled program shape := by
    refine hadvance (Op.goesOn_of_call? hasked.call?) (hasked.stays.trans (stays_setResult _ result)) ?_
    rw [stack_setResult, hasked.stack_eq, List.length_drop, Op.gives_of_call? hasked.call?]
    rfl
  have hempties {hasValue : Bool} {taken : Machine H} (hop : op = .ret hasValue)
      (htaken : machine.Takes (Op.ret hasValue).needs taken) : taken.stack.length = 0 := by
    subst hop
    have hoperands : (shape machine.execution.pc).operands = hasValue.toNat := hfit
    rw [htaken.stack_eq, List.length_drop, hlen, hoperands]
    cases hasValue <;> rfl
  cases hx : execute setting machine op with
  | fail error failed =>
    intro honest
    obtain ⟨request, hasked⟩ | ⟨-, -, hoperational | ⟨limit, hlimit⟩ | ⟨count, rfl, hne⟩⟩ :=
      hready.fail_cases hx
    · exact hasked.honest honest
    · exact RunFault.isStructural_of_isOperational hoperational
    · rw [hlimit]
      rfl
    · exact absurd (hlen.trans (congrArg Shape.operands hfit.1)) hne
  | ok next =>
    cases effect_of_ok hx with
    | pushes value hop hcall htaken =>
      refine .inl (hadvance (Op.goesOn_of_computes hop) (htaken.stays.trans (stays_push _ value)) ?_)
      rw [push_eq_setStack, stack_setStack, List.length_cons, htaken.stack_eq, List.length_drop,
        Op.gives, hop, hcall]
      rfl
    | advances hcomputes hop htaken =>
      refine .inl (hadvance hop htaken.stays ?_)
      rw [htaken.stack_eq, List.length_drop, Op.gives, hcomputes]
      rfl
    | jumps hjump htaken =>
      obtain ⟨hcount, hplace, hle⟩ := hfit.jump hjump
      refine .inl (hgoes htaken.stays hle ?_ (by rw [hplace]))
      rw [htaken.stack_eq, List.length_drop]
      omega
    | @assigns name taken value htaken =>
      refine .inl (hadvance rfl (htaken.stays.trans (Execution.stays_assign _ _ value)) ?_)
      rw [stack, Execution.stack_assign]
      exact (congrArg List.length htaken.stack_eq).trans (List.length_drop ..)
    | stops => exact .inl (hadvance rfl (.of_eq rfl) rfl)
    | waits => exact .inl hs
    | @enters name argc restart entry hentry henough =>
      exact .inr (.inl ⟨hrunning, entering_of_call hc hs hi hentry⟩)
    | @returns hasValue taken call rest value _ htaken hcalls =>
      have hruns := htaken.stays.program.trans hs.runs
      have hnested : taken.execution.Nested shape ⟨0, (shape machine.execution.pc).place⟩ :=
        hs.nested.of_stays htaken.stays (hempties rfl htaken) Iff.rfl
      rw [Execution.Nested, Execution.outline, hcalls] at hnested
      obtain ⟨-, -, index, hreturn, hle, hcallers⟩ := hnested
      have hreturn : call.returnTo = some index := hreturn
      have hclosed : (taken.withCalls rest).execution.Nested shape (shape index) := hcallers
      have hstays := stays_setResult (taken.withCalls rest) value
      have hlength : ((taken.withCalls rest).setResult value).stack.length = (shape index).operands :=
        (congrArg List.length (stack_setResult _ value)).trans hclosed.length_stack
      rw [hreturn]
      exact .inl (.of_nested (hstays.program.trans hruns) (hruns ▸ hle)
        (hclosed.of_stays hstays hlength Iff.rfl))
    | @ends hasValue taken value _ htaken hcalls =>
      have hstays := stays_setResult taken value
      have hend := hstays.nil hcalls
      have hruns := hstays.program.trans (htaken.stays.program.trans hs.runs)
      have hstack : (taken.setResult value).stack = [] :=
        (stack_setResult taken value).trans (List.length_eq_zero_iff.1 (hempties rfl htaken))
      rw [stack, Execution.frame, hend] at hstack
      exact .inr (.inr ⟨rfl, rfl, hruns, htaken.stays.program ▸ hs.runs ▸ rfl, hend, hstack⟩)
    | answers result hasked => exact .inl (hanswers hasked result)
    | interrupts result hasked => exact .inl ((hanswers hasked result).mark (some .after))
    | repeats hasked =>
      obtain ⟨hrestart, hle⟩ := hfit.restart hasked.call?
      obtain ⟨hcount, hplace⟩ := hfit.advance (Op.goesOn_of_call? hasked.call?)
      rw [Op.gives_of_call? hasked.call?] at hcount
      refine .inl (.mark (hgoes hasked.stays hle ?_ (by rw [hrestart]; exact hplace)) _)
      rw [hrestart, hasked.stack_eq, List.length_drop]
      omega

theorem meets_expectStack {expected actual : Nat}
    (he : machine.execution.Entering program shape table expected actual) :
    (execute setting machine (.expectStack expected)).Meets (Kept program shape table)
      (fun fault => fault = .stackCount expected actual ∧ actual ≠ expected) := by
  have hlen : machine.stack.length = actual := he.nested.length_stack
  obtain ⟨pos, hi⟩ := he.instruction
  rw [Execution.instruction?, he.runs] at hi
  have hlt : machine.execution.pc < program.size := (Array.getElem?_eq_some_iff.1 hi).1
  have hfit : Op.Fits shape program.size machine.execution.pc (.expectStack expected) := by
    simpa using hc.fits.get (Array.getElem?_toList.trans hi)
  rw [execute]
  split
  · next h =>
    have hnested : machine.execution.Nested shape (shape (machine.execution.pc + 1)) := by
      refine he.nested.reshape ?_ ?_
      · rw [hfit.2, ← h, hlen]
      · rw [hfit.2]
        simp
    exact .inl (.of_nested he.runs hlt hnested)
  · next h => exact ⟨by rw [← hlen]; rfl, fun h' => h (hlen.trans h')⟩

end

theorem Kept.countStep (h : machine.Kept program shape table) :
    machine.countStep.Kept program shape table := by
  obtain hs | ⟨hr, expected, actual, he⟩ | ⟨hr, hreason, he⟩ := h
  · exact .inl ⟨hs.runs, hs.bounded, hs.nested⟩
  · exact .inr (.inl ⟨hr, expected, actual, he.runs, he.calledWith, he.instruction, he.nested⟩)
  · exact .inr (.inr ⟨hr, hreason, he.runs, he.pc, he.calls, he.stack⟩)

def Misused (setting : Setting H) (table : Table Procedure) (machine : Machine H)
    (fault : RunFault) : Prop :=
  setting.Honest → fault.isStructural = true → ∃ expected actual,
    fault = .stackCount expected actual ∧ actual ≠ expected ∧
      machine.execution.CalledWith table expected actual

theorem meets_step (hc : Compiled program shape table) (hk : machine.Kept program shape table)
    {instruction : Instruction} (hn : machine.next? = some instruction) :
    (machine.step setting instruction).Meets (Kept program shape table)
      (Misused setting table machine) := by
  have hi := instruction?_of_next? hn
  have hexecute : (execute setting machine.clearMarks instruction.op).Meets
      (Kept program shape table) (Misused setting table machine) := by
    obtain hs | ⟨-, expected, actual, he⟩ | ⟨hr, -⟩ := hk
    · have hs' : machine.clearMarks.execution.Settled program shape := hs.mark none
      refine (meets_execute hc hs' (running_of_next? hn) hi).mono fun fault h honest hstructural => ?_
      rw [h honest] at hstructural
      cases hstructural
    · have he' : machine.clearMarks.execution.Entering program shape table expected actual :=
        ⟨he.runs, he.calledWith, he.instruction, he.nested⟩
      obtain ⟨pos, hexpects⟩ := he.instruction
      obtain rfl : instruction = ⟨.expectStack expected, pos⟩ :=
        Option.some.inj (hi.symm.trans hexpects)
      refine (meets_expectStack hc he').mono fun fault h _ _ => ?_
      exact ⟨expected, actual, h.1, h.2, he.calledWith⟩
    · rw [running_of_next? hn] at hr
      cases hr
  have hlimit : ∀ limit, Misused setting table machine (.cycleLimit limit) := nofun
  have houtcome := stepOutcome setting machine instruction
  generalize machine.step setting instruction = outcome at houtcome ⊢
  cases houtcome with
  | reached | spends => exact hlimit _
  | fails _ hx =>
    rw [hx] at hexecute
    rwa [Outcome.Meets, RunError.fault_locate]
  | ends hx =>
    rw [hx] at hexecute
    rw [finishStep]
    split
    · exact hexecute
    · exact Kept.countStep hexecute

end Machine

/-- What a host makes of a program that it has loaded into a fresh execution: it writes variables,
runs and resumes, each time with any providers, signals and limits, as long as nothing fails. -/
inductive Session (program : Program) : Execution → Prop where
  | fresh : Session program (.start program)
  | write {execution : Execution} (write : HostWrite) :
      Session program execution → Session program (write.run execution)
  | run {H : Type} {fuel : Nat} {runner next : Runner H} {world world' : World H} :
      Session program runner.execution →
      Runner.run fuel runner world = some (none, next, world') → Session program next.execution
  | resume {H : Type} {fuel : Nat} {runner next : Runner H} {world world' : World H}
      {execution : Execution} : Session program execution →
      Runner.resume fuel runner world (some execution) = some (none, next, world') →
      Session program next.execution

section Sessions

variable {program : Program} {shape : Nat → Shape} {table : Table Procedure} {H : Type}

theorem Execution.settled_start (h : shape 0 = ⟨0, .top⟩) :
    (Execution.start program).Settled program shape :=
  ⟨rfl, Nat.zero_le _, (congrArg Shape.operands h).symm, congrArg Shape.place h⟩

theorem Machine.Reaches.kept {setting : Setting H} {machine last : Machine H}
    (h : Machine.Reaches setting machine last) (hc : Compiled program shape table)
    (hk : machine.Kept program shape table) : last.Kept program shape table := by
  refine h.preserves (fun {machine next instruction} hk hn hs => ?_) hk
  have hstep : (machine.step setting instruction).Meets _ _ := Machine.meets_step hc hk hn
  rw [hs] at hstep
  exact hstep

theorem Runner.reaches_of_run {fuel : Nat} {runner next : Runner H} {world world' : World H}
    (h : Runner.run fuel runner world = some (none, next, world')) : ∃ paused,
      Machine.Reaches runner.setting (runner.machine world) paused ∧ paused.next? = none ∧
        next.execution = paused.execution ∧ next.status.reason = paused.status.reason := by
  have hsettle (machine : Machine H) : machine.settle.execution = machine.execution ∧
      machine.settle.status.reason = machine.status.reason := by
    unfold Machine.settle
    split <;> exact ⟨rfl, rfl⟩
  unfold Runner.run at h
  split at h
  · obtain ⟨outcome, hrun, houtcome⟩ := Option.map_eq_some_iff.1 h
    cases outcome with
    | fail error failed => cases houtcome
    | ok last =>
      obtain ⟨paused, hr, hn, rfl⟩ := Machine.reaches_of_runFor_ok hrun
      cases houtcome
      exact ⟨paused, hr, hn, hsettle paused⟩
  · cases h

theorem Execution.Ended.settled {execution : Execution} (h : execution.Ended program)
    (hend : shape program.size = ⟨0, .top⟩) : execution.Settled program shape := by
  refine ⟨h.runs, Nat.le_of_eq h.pc, ?_⟩
  rw [h.pc, hend]
  unfold Execution.Nested Execution.outline Execution.bottom
  rw [h.calls, h.stack]
  exact ⟨rfl, rfl⟩

theorem Runner.settled_of_run (hc : Compiled program shape table)
    (hend : shape program.size = ⟨0, .top⟩) {fuel : Nat} {runner next : Runner H}
    {world world' : World H} (hs : runner.execution.Settled program shape)
    (h : Runner.run fuel runner world = some (none, next, world')) :
    next.execution.Settled program shape := by
  obtain ⟨paused, hr, hn, hx, -⟩ := Runner.reaches_of_run h
  rw [hx]
  obtain hs | ⟨hrunning, expected, actual, he⟩ | ⟨-, -, he⟩ := hr.kept hc (.inl hs)
  · exact hs
  · obtain ⟨pos, hi⟩ := he.instruction
    rw [Machine.next?, if_pos hrunning, hi] at hn
    cases hn
  · exact he.settled hend

theorem Session.settled (hc : Compiled program shape table) (hstart : shape 0 = ⟨0, .top⟩)
    (hend : shape program.size = ⟨0, .top⟩) {execution : Execution}
    (h : Session program execution) : execution.Settled program shape := by
  induction h with
  | fresh => exact Execution.settled_start hstart
  | write write _ ih => exact ih.of_alike (Execution.alike_write _ write)
  | run _ hr ih | resume _ hr ih => exact Runner.settled_of_run hc hend ih hr

theorem Execution.Settled.finished {execution : Execution} (h : execution.Settled program shape)
    {operands : Nat} (hend : shape program.size = ⟨operands, .top⟩)
    (hf : execution.isFinished = true) :
    execution.calls = [] ∧ execution.globals.stack.length = operands := by
  have hpc : execution.pc = program.size := by
    have hle : execution.program.size ≤ execution.pc := of_decide_eq_true hf
    rw [h.runs] at hle
    exact Nat.le_antisymm h.bounded hle
  have hnested := h.nested
  rw [hpc, hend] at hnested
  unfold Execution.Nested at hnested
  cases houtline : execution.outline with
  | nil =>
    rw [houtline] at hnested
    exact ⟨List.map_eq_nil_iff.1 houtline, hnested.1⟩
  | cons call callers =>
    rw [houtline] at hnested
    exact absurd rfl hnested.2.1

end Sessions

namespace Machine

variable {H : Type}

structure Orderly (setting : Setting H) (nodes : List Node) (machine : Machine H) : Prop where
  /-- The next step never lacks an operand and never jumps out of the code; it finds the wrong number
  of operands only when a call has passed the wrong number of arguments. -/
  safe : setting.Honest → ∀ instruction error failed, machine.next? = some instruction →
    machine.step setting instruction = .fail error failed →
      error.fault ≠ .stackUnderflow ∧ (∀ target size, error.fault ≠ .jumpOutOfRange target size) ∧
        ∀ expected actual, error.fault = .stackCount expected actual → actual ≠ expected ∧
          machine.execution.CalledWith (Node.procedureTable nodes) expected actual
  boundary : machine.execution.pc ∈ Node.boundariesIn 0 nodes → machine.stack = []
  finished : machine.execution.isFinished = true →
    machine.execution.calls = [] ∧ machine.execution.globals.stack = []

theorem orderly_of_kept {setting : Setting H} {nodes : List Node} {machine : Machine H}
    {code : List Instruction} {entries : List (String × Nat)}
    (h : Lowers (.many nodes) 0 code entries)
    (hk : machine.Kept ⟨code.toArray, Table.ofPairs entries⟩ (Node.programShape nodes)
      (Node.procedureTable nodes)) : machine.Orderly setting nodes := by
  have hc := h.compiled
  have hend : Node.programShape nodes code.length = ⟨0, .top⟩ := h.shape_end
  refine ⟨?_, ?_, ?_⟩
  · intro honest instruction error failed hn hs
    have hstep : (machine.step setting instruction).Meets _ _ := meets_step hc hk hn
    rw [hs] at hstep
    have hmisused := hstep honest
    refine ⟨?_, ?_, ?_⟩
    · intro hfault
      obtain ⟨expected, actual, h', -⟩ := hmisused (by rw [hfault]; rfl)
      rw [hfault] at h'
      cases h'
    · intro target size hfault
      obtain ⟨expected, actual, h', -⟩ := hmisused (by rw [hfault]; rfl)
      rw [hfault] at h'
      cases h'
    · intro expected actual hfault
      obtain ⟨expected, actual, h', hne, hcalled⟩ := hmisused (by rw [hfault]; rfl)
      rw [hfault] at h'
      cases h'
      exact ⟨hne, hcalled⟩
  · intro hb
    have hresting := h.program_stands.boundaries machine.execution.pc hb
    obtain hs | ⟨-, expected, actual, he⟩ | ⟨-, -, he⟩ := hk
    · exact List.length_eq_zero_iff.1 (hs.nested.length_stack.trans hresting.1)
    · exact absurd (he.place_entry hc) hresting.2
    · rw [stack, Execution.frame, he.calls]
      exact he.stack
  · intro hf
    obtain hs | ⟨-, expected, actual, he⟩ | ⟨-, -, he⟩ := hk
    · obtain ⟨hcalls, hstack⟩ := hs.finished hend hf
      exact ⟨hcalls, List.length_eq_zero_iff.1 hstack⟩
    · exact absurd (of_decide_eq_true hf) (Nat.not_le.2 he.lt_size)
    · exact ⟨he.calls, he.stack⟩

end Machine

open Machine in
/-- Compiled programs keep their operands in order, through any sequence of runs that do not fail. An
expression that is run to its end in one go leaves one value. -/
theorem operand_stack_discipline :
    (∀ {tree : Node} {before : List Node} {program : Program} {execution : Execution},
      tree.compile before = .ok program → Session program execution →
      ∀ {H : Type} (setting : Setting H) (world : World H) {machine : Machine H},
        Reaches setting ⟨execution, .started, world⟩ machine →
          machine.Orderly setting (before ++ tree.topLevel)) ∧
    (∀ {tree : Node} {before : List Node} {program : Program},
      tree.compileExpression before = .ok program →
      ∀ {H : Type} {fuel : Nat} {runner next : Runner H} {world world' : World H}
        {vars : List (String × Value)}, runner.execution = .start program →
        (runner.loadGlobals vars).run fuel world = some (none, next, world') →
        next.execution.isFinished = true → next.status.reason = none →
          next.execution.calls = [] ∧ ∃ value, next.execution.globals.stack = [value]) := by
  refine ⟨?_, ?_⟩
  · intro tree before program execution hcompile hsession H setting world machine hr
    obtain ⟨code, entries, h, rfl⟩ := Lowers.of_compile hcompile
    have hs := hsession.settled h.compiled h.program_stands.empty h.shape_end
    exact orderly_of_kept h (hr.kept h.compiled (.inl hs))
  · intro tree before program hcompile H fuel runner next world world' vars hfresh hrun hf hreason
    obtain ⟨code, entries, value, h, hv, rfl⟩ := Lowers.of_compileExpression hcompile
    obtain ⟨hc, hstart⟩ := hv.compiled h
    have hend := (hv.shaped_expression h).2.2
    rw [← List.length_append] at hend
    have hs : (runner.loadGlobals vars).execution.Settled
        ⟨(code ++ value).toArray, Table.ofPairs entries⟩ (Node.expressionShape before tree) := by
      refine (Execution.settled_start hstart).of_alike ?_
      rw [← hfresh]
      exact Execution.alike_setGlobals runner.execution vars
    obtain ⟨paused, hr, -, hx, hreason'⟩ := Runner.reaches_of_run hrun
    rw [hx] at hf ⊢
    rw [hreason'] at hreason
    obtain hs | ⟨-, expected, actual, he⟩ | ⟨-, hreturned, -⟩ := hr.kept hc (.inl hs)
    · obtain ⟨hcalls, hstack⟩ := hs.finished hend hf
      exact ⟨hcalls, List.length_eq_one_iff.1 hstack⟩
    · exact absurd (of_decide_eq_true hf) (Nat.not_le.2 he.lt_size)
    · rw [hreason] at hreturned
      cases hreturned

def mismatchedCall : Node :=
  .root [.procedure "f" ["x"] [.ret (some (.ident "x" none)) none] none,
    .assign "y" (.call "f" [.int 1 none, .int 2 none] none) none] none

def successor : Node := .binary .add (.ident "a" none) (.int 1 none) none

open Machine in
theorem operand_stack_discipline_mismatchedCall :
    (∃ program, mismatchedCall.compile [] = .ok program ∧ Session program (.start program) ∧
      ∃ machine : Machine Unit,
        Reaches ⟨[], [], [], .unlimited⟩ ⟨.start program, .started, ⟨.empty, ()⟩⟩ machine ∧
        machine.Orderly ⟨[], [], [], .unlimited⟩ mismatchedCall.topLevel ∧
        ∃ failed, machine.step ⟨[], [], [], .unlimited⟩ ⟨.expectStack 1, none⟩ =
          .fail ⟨.stackCount 1 2, none⟩ failed) ∧
    (∃ program, successor.compileExpression [] = .ok program ∧
      ∃ (runner next : Runner Unit) (world : World Unit), runner.execution = .start program ∧
        (runner.loadGlobals [("a", .int 2)]).run 3 ⟨.empty, ()⟩ = some (none, next, world) ∧
        next.execution.isFinished = true ∧ next.status.reason = none ∧
        next.execution.calls = [] ∧ ∃ value, next.execution.globals.stack = [value]) := by
  refine ⟨?_, ?_⟩
  · obtain ⟨program, hcompile, machine, hr, hfail⟩ : ∃ program,
        mismatchedCall.compile [] = .ok program ∧ ∃ machine : Machine Unit,
          Reaches ⟨[], [], [], .unlimited⟩ ⟨.start program, .started, ⟨.empty, ()⟩⟩ machine ∧
          ∃ failed, machine.step ⟨[], [], [], .unlimited⟩ ⟨.expectStack 1, none⟩ =
            .fail ⟨.stackCount 1 2, none⟩ failed :=
      ⟨_, rfl, _, .step rfl rfl (.step rfl rfl (.step rfl rfl (.step rfl rfl .refl))), _, rfl⟩
    exact ⟨program, hcompile, .fresh, machine, hr,
      operand_stack_discipline.1 hcompile .fresh _ _ hr, hfail⟩
  · obtain ⟨program, hcompile, runner, next, world, hfresh, hrun, hf, hreason⟩ : ∃ program,
        successor.compileExpression [] = .ok program ∧
        ∃ (runner next : Runner Unit) (world : World Unit), runner.execution = .start program ∧
          (runner.loadGlobals [("a", .int 2)]).run 3 ⟨.empty, ()⟩ = some (none, next, world) ∧
          next.execution.isFinished = true ∧ next.status.reason = none :=
      ⟨_, rfl, ⟨_, true, [], [], [], .idle, .unlimited⟩, _, _, rfl, rfl, rfl, rfl⟩
    exact ⟨program, hcompile, runner, next, world, hfresh, hrun, hf, hreason,
      operand_stack_discipline.2 hcompile hfresh hrun hf hreason⟩

end DurableScript
