import DurableScript.Proofs.Rewinding

namespace DurableScript

namespace Execution

variable {execution mid after caller : Execution}

structure SameFrames (execution other : Execution) : Prop where
  program : execution.program = other.program
  globals : execution.globals = other.globals
  calls : execution.calls = other.calls

namespace SameFrames

theorem symm {other : Execution} (h : execution.SameFrames other) : other.SameFrames execution :=
  ⟨h.program.symm, h.globals.symm, h.calls.symm⟩

theorem trans (h : execution.SameFrames mid) (h' : mid.SameFrames after) : execution.SameFrames after :=
  ⟨h.program.trans h'.program, h.globals.trans h'.globals, h.calls.trans h'.calls⟩

theorem frame_eq {other : Execution} (h : execution.SameFrames other) : execution.frame = other.frame := by
  rw [frame, frame, h.globals, h.calls]

theorem depth_eq {other : Execution} (h : execution.SameFrames other) :
    execution.depth = other.depth := congrArg (·.length + 1) h.calls

theorem modifyFrame {other : Execution} (h : execution.SameFrames other) (f : Frame → Frame) :
    (execution.modifyFrame f).SameFrames (other.modifyFrame f) := by
  obtain ⟨_, _, calls, _, _, _⟩ := execution
  obtain ⟨_, _, _, _, _, _⟩ := other
  obtain ⟨rfl, rfl, rfl⟩ := h
  cases calls <;> exact ⟨rfl, rfl, rfl⟩

theorem withCalls {other : Execution} (h : execution.SameFrames other) (calls : List Frame) :
    { execution with calls := calls }.SameFrames { other with calls := calls } :=
  ⟨h.program, h.globals, rfl⟩

end SameFrames

theorem KeepsCallers.of_sameFrames (h : after.SameFrames execution) : execution.KeepsCallers after where
  program := h.program
  nil hcalls := h.calls.trans hcalls
  cons call rest hcalls := ⟨⟨call, h.calls.trans hcalls, rfl⟩, by rw [h.globals]⟩

theorem KeepsCallers.of_eq (h : after = execution) : execution.KeepsCallers after :=
  .of_sameFrames ⟨congrArg _ h, congrArg _ h, congrArg _ h⟩

theorem KeepsCallers.depth_eq (h : execution.KeepsCallers after) : after.depth = execution.depth := by
  unfold depth
  cases hcalls : execution.calls with
  | nil => rw [h.nil hcalls]
  | cons call rest =>
    obtain ⟨⟨call', hcalls', -⟩, -⟩ := h.cons call rest hcalls
    rw [hcalls', List.length_cons, List.length_cons]

theorem depth_opened (execution : Execution) (argc : Nat) (call : Frame) :
    (execution.opened argc call).depth = execution.depth + 1 :=
  congrArg (· + 1) (execution.stays_dropOperands argc).depth_eq

theorem SameFrames.opened {other : Execution} (h : execution.SameFrames other) (argc : Nat)
    (call : Frame) : (execution.opened argc call).SameFrames (other.opened argc call) :=
  have hdropped := h.modifyFrame fun frame => { frame with stack := frame.stack.drop argc }
  ⟨hdropped.program, hdropped.globals, congrArg (call :: ·) hdropped.calls⟩

def setResult (value : Value) (execution : Execution) : Execution :=
  execution.modifyFrame fun frame => { frame with result := value }

theorem keepsCallers_setResult (execution : Execution) (value : Value) :
    execution.KeepsCallers (execution.setResult value) :=
  (execution.stays_modifyFrame (f := fun frame => { frame with result := value })
    fun _ => rfl).toKeepsCallers

def Yields (execution : Execution) (value : Value) : Prop :=
  (∃ pos rest, execution.instruction? = some ⟨.ret true, pos⟩ ∧
    execution.frame.stack = value :: rest) ∨
  ∃ pos, execution.instruction? = some ⟨.ret false, pos⟩ ∧ value = .null

inductive Shift (execution after : Execution) : Prop where
  | within : execution.KeepsCallers after → Shift execution after
  | enters (name : String) (argc restart : Nat) (pos : Option SourcePos) (call : Frame) :
      execution.instruction? = some ⟨.call name argc restart, pos⟩ →
      call.returnTo = some (execution.pc + 1) → after.SameFrames (execution.opened argc call) →
      Shift execution after
  | returns (call : Frame) (rest : List Frame) (value : Value) : execution.calls = call :: rest →
      execution.Yields value → after.SameFrames ({ execution with calls := rest }.setResult value) →
      (∀ target, call.returnTo = some target → target ≤ execution.program.size →
        after.pc = target) → Shift execution after

theorem Shift.congr (h : execution.Shift after) {execution' after' : Execution}
    (hframes : execution'.SameFrames execution) (hpc : execution'.pc = execution.pc)
    (hframes' : after'.SameFrames after) (hpc' : after'.pc = after.pc) : execution'.Shift after' := by
  have hkeeps : execution'.KeepsCallers execution := .of_sameFrames hframes.symm
  have hinstruction : execution'.instruction? = execution.instruction? := by
    rw [instruction?, instruction?, hframes.program, hpc]
  cases h with
  | within h => exact .within ((hkeeps.trans h).trans (.of_sameFrames hframes'))
  | enters name argc restart pos call hi hreturn hopened =>
    exact .enters name argc restart pos call (hinstruction.trans hi) (by rw [hpc]; exact hreturn)
      (hframes'.trans (hopened.trans (hframes.symm.opened argc call)))
  | returns call rest value hcalls hyields hreturned hgoes =>
    refine .returns call rest value (hframes.calls.trans hcalls) ?_ (hframes'.trans ?_) ?_
    · rw [Yields, hinstruction, hframes.frame_eq]
      exact hyields
    · exact hreturned.trans ((hframes.symm.withCalls rest).modifyFrame _)
    · rw [hframes.program, hpc']
      exact hgoes

end Execution

def Op.entry? (program : Program) : Op → Option Nat
  | .call name _ _ => program.entry? name
  | _ => none

namespace Machine

variable {H : Type} {setting : Setting H} {machine : Machine H} {op : Op} {pos : Option SourcePos}

theorem yields_of_yield? {hasValue : Bool} {value : Value}
    (hi : machine.execution.instruction? = some ⟨.ret hasValue, pos⟩)
    (h : machine.yield? hasValue = some value) : machine.execution.Yields value := by
  cases hasValue with
  | false => exact .inr ⟨pos, hi, (Option.some.inj h).symm⟩
  | true =>
    obtain ⟨rest, hstack⟩ := List.head?_eq_some_iff.1 h
    exact .inl ⟨pos, rest, hi, hstack⟩

theorem Takes.exists_caller {count : Nat} {taken : Machine H} {call : Frame} {rest : List Frame}
    (h : machine.Takes count taken) (hcalls : taken.execution.calls = call :: rest) (value : Value) :
    ∃ left callers, machine.execution.calls = left :: callers ∧ left.returnTo = call.returnTo ∧
      ((taken.withCalls rest).setResult value).execution.SameFrames
        ({ machine.execution with calls := callers }.setResult value) := by
  obtain ⟨⟨_, _, calls, _, _, _⟩, _, _⟩ := machine
  obtain ⟨_, _, _⟩ := taken
  obtain ⟨rfl, -⟩ := h
  cases calls with
  | nil => cases hcalls
  | cons left callers =>
    obtain ⟨rfl, rfl⟩ := List.cons.inj hcalls
    exact ⟨left, callers, rfl, rfl, rfl, rfl, rfl⟩

theorem shift_execute (setting : Setting H) (hi : machine.execution.instruction? = some ⟨op, pos⟩) :
    machine.execution.Shift (execute setting machine op).machine.execution ∧
      (execute setting machine op).machine.execution.depth ≤
        machine.execution.depth + (op.entry? machine.execution.program).isSome.toNat := by
  have hkept {after : Execution} (h : machine.execution.KeepsCallers after) :
      machine.execution.Shift after ∧ after.depth ≤
        machine.execution.depth + (op.entry? machine.execution.program).isSome.toNat :=
    ⟨.within h, Nat.le_add_right_of_le (Nat.le_of_eq h.depth_eq)⟩
  have hwithin {mid after : Execution} (h : machine.execution.Stays mid)
      (hframes : after.SameFrames mid) := hkept (h.toKeepsCallers.trans (.of_sameFrames hframes))
  have hleaves {after : Execution} {left : Frame} {callers : List Frame} {value : Value}
      (hopen : machine.execution.calls = left :: callers)
      (hframes : after.SameFrames ({ machine.execution with calls := callers }.setResult value)) :
      after.depth ≤
        machine.execution.depth + (op.entry? machine.execution.program).isSome.toNat := by
    rw [hframes.depth_eq, (Execution.keepsCallers_setResult _ value).depth_eq, Execution.depth,
      Execution.depth, hopen]
    exact Nat.le_add_right_of_le (Nat.le_succ _)
  have heffect := effect_execute setting machine op
  generalize execute setting machine op = outcome at heffect ⊢
  cases heffect with
  | pushes value _ _ htaken =>
    exact hwithin (htaken.stays.trans (stays_push _ value)) ⟨rfl, rfl, rfl⟩
  | advances _ _ htaken | jumps _ htaken => exact hwithin htaken.stays ⟨rfl, rfl, rfl⟩
  | assigns value htaken =>
    exact hwithin (htaken.stays.trans (Execution.stays_assign _ _ value)) ⟨rfl, rfl, rfl⟩
  | stops | waits | miscounts | deepens => exact hkept (.of_sameFrames ⟨rfl, rfl, rfl⟩)
  | enters hentry | overruns hentry =>
    refine ⟨.enters _ _ _ pos (machine.callee _) hi rfl ⟨rfl, rfl, rfl⟩, ?_⟩
    rw [Op.entry?, hentry]
    exact Nat.le_of_eq (machine.execution.depth_opened _ _)
  | returns value hvalue htaken hcalls =>
    obtain ⟨left, callers, hopen, hreturn, hframes⟩ := htaken.exists_caller hcalls value
    refine ⟨.returns left callers value hopen (yields_of_yield? hi hvalue)
      ⟨hframes.program, hframes.globals, hframes.calls⟩ fun target htarget _ => ?_,
      hleaves hopen ⟨hframes.program, hframes.globals, hframes.calls⟩⟩
    show Option.getD _ _ = target
    rw [← hreturn, htarget, Option.getD_some]
  | dangles value hvalue htaken hcalls hreturn hpast =>
    obtain ⟨left, callers, hopen, hleft, hframes⟩ := htaken.exists_caller hcalls value
    refine ⟨.returns left callers value hopen (yields_of_yield? hi hvalue) hframes
      fun target htarget hle => ?_, hleaves hopen hframes⟩
    obtain rfl := Option.some.inj (htarget.symm.trans (hleft.trans hreturn))
    exact absurd hle (Nat.not_le.2 (htaken.stays.program ▸ hpast))
  | ends value _ htaken =>
    exact hwithin (htaken.stays.trans (stays_setResult _ value)) ⟨rfl, rfl, rfl⟩
  | answers result hasked | interrupts result hasked =>
    exact hwithin (hasked.stays.trans (stays_setResult _ result))
      ⟨rfl, rfl, rfl⟩
  | repeats hasked => exact hwithin hasked.stays ⟨rfl, rfl, rfl⟩
  | refuses hasked | strays hasked => exact hkept hasked.stays.toKeepsCallers
  | lacks _ hrun =>
    exact hkept ((Execution.Stays.of_eq hrun.execution).trans (stays_setStack _ _)).toKeepsCallers
  | fails _ htaken | misses _ htaken => exact hkept htaken.stays.toKeepsCallers

theorem shift_step (setting : Setting H) {instruction : Instruction}
    (hn : machine.next? = some instruction) :
    machine.execution.Shift (machine.step setting instruction).machine.execution := by
  have hi : machine.clearMarks.execution.instruction? = some instruction := instruction?_of_next? hn
  obtain hsame | ⟨steps, hstep⟩ := machine_step setting machine instruction
  · rw [hsame]
    exact .within (.of_eq rfl)
  · rw [hstep]
    exact (shift_execute setting hi).1.congr ⟨rfl, rfl, rfl⟩ rfl ⟨rfl, rfl, rfl⟩ rfl

theorem depth_lt_of_call {name : String} {argc restart entry : Nat} {next : Machine H}
    (hentry : machine.execution.program.entry? name = some entry)
    (h : machine.step setting ⟨.call name argc restart, pos⟩ = .ok next) :
    machine.execution.depth < next.execution.depth := by
  obtain ⟨done, hx, rfl⟩ := ok_cases h
  have hdepth : machine.execution.depth < done.execution.depth := by
    have heffect := effect_execute setting machine.clearMarks (.call name argc restart)
    rw [hx] at heffect
    cases heffect with
    | enters =>
      have hopened := machine.clearMarks.execution.depth_opened argc (machine.clearMarks.callee argc)
      exact Nat.lt_of_lt_of_eq (Nat.lt_succ_self _) hopened.symm
    | answers _ hasked | interrupts _ hasked | repeats hasked => cases hasked.entry?.symm.trans hentry
    | pushes _ _ hcall => cases hcall
    | advances hcomputes => cases hcomputes
    | jumps hjump => cases hjump
  unfold finishStep
  split <;> exact hdepth

end Machine

namespace Execution

variable {execution after caller : Execution}

/-- What may become of an execution from one moment to the next: the host writes a variable or takes a
value from the stack, or the next instruction is executed, with any providers, signals and limits. The
instruction may fail. -/
inductive Passes : Execution → Execution → Prop where
  | write (write : HostWrite) (execution : Execution) : Passes execution (write.run execution)
  | pop {H : Type} (runner : Runner H) : Passes runner.execution runner.popValue.2.execution
  | step {H : Type} (setting : Setting H) {machine : Machine H} {instruction : Instruction} :
      machine.next? = some instruction →
      Passes machine.execution (machine.step setting instruction).machine.execution

theorem Passes.shift (h : execution.Passes after) : execution.Shift after := by
  cases h with
  | write write => exact .within (execution.stays_writes [write]).toKeepsCallers
  | pop runner =>
    refine .within ?_
    unfold Runner.popValue
    split
    · exact .of_eq rfl
    · next rest _ =>
      exact (runner.execution.stays_modifyFrame (f := fun frame => { frame with stack := rest })
        fun _ => rfl).toKeepsCallers
  | step setting hn => exact Machine.shift_step setting hn

inductive Deeper (depth : Nat) (first : Execution) : Execution → Prop where
  | first : depth < first.depth → Deeper depth first first
  | pass {execution after : Execution} : Deeper depth first execution → execution.Passes after →
      depth < after.depth → Deeper depth first after

theorem Deeper.lt_first {depth : Nat} {first : Execution} (h : Deeper depth first execution) :
    depth < first.depth := by
  induction h with
  | first h => exact h
  | pass _ _ _ ih => exact ih

/-- The execution is inside a call that the caller has made: on top of the frames of the caller, which
are as they were, lies one that returns behind the call, and others on top of it. The variables of the
global scope may be others. -/
structure InsideCall (caller execution : Execution) : Prop where
  program : execution.program = caller.program
  globals : execution.globals = { caller.globals with vars := execution.globals.vars }
  calls : ∃ above call, execution.calls = above ++ call :: caller.calls ∧
    call.returnTo = some (caller.pc + 1)

theorem InsideCall.depth_lt (h : caller.InsideCall execution) : caller.depth < execution.depth := by
  obtain ⟨above, call, hcalls, -⟩ := h.calls
  simp only [depth, hcalls, List.length_append, List.length_cons]
  omega

theorem InsideCall.of_keepsCallers (h : caller.InsideCall execution)
    (hkeeps : execution.KeepsCallers after) : caller.InsideCall after := by
  obtain ⟨hprogram, hglobals, above, call, hcalls, hreturn⟩ := h
  cases above with
  | nil =>
    obtain ⟨⟨call', hcalls', hreturn'⟩, hglobals'⟩ := hkeeps.cons call _ hcalls
    refine ⟨hkeeps.program.trans hprogram, ?_, [], call', hcalls', hreturn'.trans hreturn⟩
    rw [hglobals', hglobals]
  | cons top above =>
    obtain ⟨⟨top', hcalls', -⟩, hglobals'⟩ := hkeeps.cons top _ hcalls
    refine ⟨hkeeps.program.trans hprogram, ?_, top' :: above, call, hcalls', hreturn⟩
    rw [hglobals', hglobals]

theorem InsideCall.shift (h : caller.InsideCall execution)
    (hpc : caller.pc < caller.program.size) (hshift : execution.Shift after) :
    caller.InsideCall after ∨ ∃ value, execution.Yields value ∧ after.pc = caller.pc + 1 ∧
      after.SameFrames ({ caller with globals := execution.globals }.setResult value) := by
  cases hshift with
  | within hkeeps => exact .inl (h.of_keepsCallers hkeeps)
  | enters name argc restart pos frame _ _ hframes =>
    obtain ⟨hprogram, hglobals, above, call, hcalls, hreturn⟩ :=
      h.of_keepsCallers (execution.stays_dropOperands argc).toKeepsCallers
    have hopened : caller.InsideCall (execution.opened argc frame) :=
      ⟨hprogram, hglobals, frame :: above, call, congrArg (frame :: ·) hcalls, hreturn⟩
    exact .inl (hopened.of_keepsCallers (.of_sameFrames hframes))
  | returns top rest value htop hyields hframes hgoes =>
    obtain ⟨hprogram, hglobals, above, call, hcalls, hreturn⟩ := h
    cases above with
    | nil =>
      obtain ⟨rfl, rfl⟩ := List.cons.inj (htop.symm.trans hcalls)
      refine .inr ⟨value, hyields, hgoes _ hreturn (by rw [hprogram]; exact hpc), ?_⟩
      have hcallers : { execution with calls := caller.calls }.SameFrames
          { caller with globals := execution.globals } := ⟨hprogram, rfl, rfl⟩
      exact hframes.trans (hcallers.modifyFrame _)
    | cons inner above =>
      obtain ⟨rfl, rfl⟩ := List.cons.inj (htop.symm.trans hcalls)
      have hclosed : caller.InsideCall { execution with calls := above ++ call :: caller.calls } :=
        ⟨hprogram, hglobals, above, call, rfl, hreturn⟩
      exact .inl ((hclosed.of_keepsCallers (keepsCallers_setResult _ value)).of_keepsCallers
        (.of_sameFrames hframes))

theorem InsideCall.deeper {first : Execution} (h : caller.InsideCall first)
    (hpc : caller.pc < caller.program.size) (hdeeper : Deeper caller.depth first execution) :
    caller.InsideCall execution := by
  induction hdeeper with
  | first => exact h
  | pass _ hpasses hdepth ih =>
    obtain hinside | ⟨value, -, -, hframes⟩ := ih.shift hpc hpasses.shift
    · exact hinside
    · rw [hframes.depth_eq, (keepsCallers_setResult _ value).depth_eq] at hdepth
      exact absurd hdepth (Nat.lt_irrefl _)

theorem Shift.insideCall {name : String} {argc restart : Nat} {pos : Option SourcePos}
    (hi : execution.instruction? = some ⟨.call name argc restart, pos⟩) (h : execution.Shift after)
    (hdepth : execution.depth < after.depth) : (execution.dropOperands argc).InsideCall after := by
  cases h with
  | within hkeeps => exact absurd hdepth (Nat.not_lt.2 hkeeps.depth_eq.le)
  | enters _ _ _ _ call hi' hreturn hframes =>
    cases hi.symm.trans hi'
    have hopened : (execution.dropOperands argc).InsideCall (execution.opened argc call) :=
      ⟨rfl, rfl, [], call, rfl, hreturn.trans
        (congrArg (fun pc => some (pc + 1)) (execution.pc_modifyFrame _).symm)⟩
    exact hopened.of_keepsCallers (.of_sameFrames hframes)
  | returns call rest value hcalls _ hframes =>
    rw [hframes.depth_eq, (keepsCallers_setResult _ value).depth_eq] at hdepth
    simp only [depth, hcalls, List.length_cons] at hdepth
    omega

end Execution

open Execution

/-- A call of a procedure opens a frame. As long as the call is not over, the frames below it stay as
they were when its arguments had been taken. When it is over there are as many frames as before, the
execution goes on behind the call, and the value is in the result slot of the caller. Besides that, only
variables of the global scope have changed. -/
theorem procedure_call_keeps_callers {H : Type} {setting : Setting H} {machine : Machine H}
    {name : String} {argc restart : Nat} {pos : Option SourcePos}
    (hn : machine.next? = some ⟨.call name argc restart, pos⟩) :
    (∀ entry next, machine.execution.program.entry? name = some entry →
      machine.step setting ⟨.call name argc restart, pos⟩ = .ok next →
        machine.execution.depth < next.execution.depth) ∧
    ∀ execution, Deeper machine.execution.depth
        (machine.step setting ⟨.call name argc restart, pos⟩).machine.execution execution →
      (machine.execution.dropOperands argc).InsideCall execution ∧
        ∀ after, execution.Passes after → after.depth ≤ machine.execution.depth →
          after.depth = machine.execution.depth ∧ after.pc = machine.execution.pc + 1 ∧
            ∃ value, execution.Yields value ∧ after.SameFrames
              ({ machine.execution.dropOperands argc with globals := execution.globals }.setResult
                value) := by
  have hi := Machine.instruction?_of_next? hn
  have hdepth := (machine.execution.stays_dropOperands argc).depth_eq
  have hpc : (machine.execution.dropOperands argc).pc = machine.execution.pc := pc_modifyFrame _ _
  have hlt : (machine.execution.dropOperands argc).pc <
      (machine.execution.dropOperands argc).program.size := by
    rw [hpc, dropOperands, program_modifyFrame]
    exact (Array.getElem?_eq_some_iff.1 hi).1
  refine ⟨fun entry next hentry hs => Machine.depth_lt_of_call hentry hs, fun execution h => ?_⟩
  have hfirst := (Machine.shift_step setting hn).insideCall hi h.lt_first
  rw [← hdepth] at h
  have hinside := hfirst.deeper hlt h
  refine ⟨hinside, fun after hpasses hle => ?_⟩
  obtain hstill | ⟨value, hyields, hpc', hframes⟩ := hinside.shift hlt hpasses.shift
  · exact absurd hstill.depth_lt (by omega)
  · refine ⟨?_, hpc'.trans (congrArg (· + 1) hpc), value, hyields, hframes⟩
    rw [hframes.depth_eq, (keepsCallers_setResult _ value).depth_eq]
    exact hdepth

def countdown : Node :=
  .root [.procedure "down" ["n"]
    [.branch (.binary .gt (.ident "n" none) (.int 0 none) none)
      [.call "down" [.binary .sub (.ident "n" none) (.int 1 none) none] none] none none none,
      .ret (some (.ident "n" none)) none] none,
    .call "down" [.int 1 none] none] none

def countdownProgram : Program := (countdown.compile []).toOption.getD .empty

def alone : Setting Unit := ⟨[], [], [], .unlimited⟩

def countdownAt : Nat → Machine Unit
  | 0 => ⟨.start countdownProgram, .started, ⟨.empty, ()⟩⟩
  | count + 1 =>
    match (countdownAt count).next? with
    | some instruction => ((countdownAt count).step alone instruction).machine
    | none => countdownAt count

def countdownSeen : Machine Unit :=
  ⟨HostWrite.run (countdownAt 20).execution (.toGlobals "seen" (.int 5)), .started, ⟨.empty, ()⟩⟩

theorem procedure_call_keeps_callers_countdown :
    (countdownAt 12).next? = some ⟨.call "down" 1 7, none⟩ ∧ (countdownAt 12).execution.depth = 2 ∧
      Deeper 2 (countdownAt 13).execution countdownSeen.execution ∧
      ((countdownAt 12).execution.dropOperands 1).InsideCall countdownSeen.execution ∧
      ∃ after, countdownSeen.execution.Passes after ∧ after.depth = 2 ∧ after.pc = 11 ∧
        after.SameFrames ({ (countdownAt 12).execution.dropOperands 1 with
          globals := countdownSeen.execution.globals }.setResult (.int 0)) := by
  have hn : (countdownAt 12).next? = some ⟨.call "down" 1 7, none⟩ := rfl
  have hfirst : Deeper 2 (countdownAt 13).execution (countdownAt 13).execution := .first (by decide)
  have hstep (count : Nat) (instruction : Instruction)
      (hn : (countdownAt count).next? = some instruction)
      (h : Deeper 2 (countdownAt 13).execution (countdownAt count).execution)
      (hdepth : 2 < (countdownAt (count + 1)).execution.depth) :
      Deeper 2 (countdownAt 13).execution (countdownAt (count + 1)).execution := by
    refine .pass h ?_ hdepth
    rw [countdownAt, hn]
    exact .step alone hn
  have hlast : Deeper 2 (countdownAt 13).execution (countdownAt 20).execution :=
    hstep 19 _ rfl (hstep 18 _ rfl (hstep 17 _ rfl (hstep 16 _ rfl (hstep 15 _ rfl (hstep 14 _ rfl
      (hstep 13 _ rfl hfirst (by decide)) (by decide)) (by decide)) (by decide)) (by decide))
      (by decide)) (by decide)
  have hseen : Deeper 2 (countdownAt 13).execution countdownSeen.execution :=
    .pass hlast (.write (.toGlobals "seen" (.int 5)) _) (by decide)
  have hreturns : countdownSeen.next? = some ⟨.ret true, none⟩ := rfl
  have hcalled : Deeper (countdownAt 12).execution.depth
      ((countdownAt 12).step alone ⟨.call "down" 1 7, none⟩).machine.execution
        countdownSeen.execution := hseen
  obtain ⟨hinside, hreturn⟩ := (procedure_call_keeps_callers hn).2 _ hcalled
  obtain ⟨hdepth, hpc, value, hyields, hframes⟩ := hreturn _ (.step alone hreturns) (by decide)
  have hvalue : value = .int 0 := by
    obtain ⟨_, rest, -, hstack⟩ | ⟨_, hi, -⟩ := hyields
    · exact (List.cons.inj hstack).1.symm
    · cases hi
  rw [hvalue] at hframes
  exact ⟨hn, rfl, hseen, hinside, _, .step alone hreturns, hdepth, hpc, hframes⟩

end DurableScript
