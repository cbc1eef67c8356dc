import DurableScript.Proofs.ExpressionWalks
import DurableScript.Proofs.LazyLookups
import DurableScript.Proofs.Suspension

namespace DurableScript

open Node Machine

variable {H : Type} {setting : Setting H} {machine next last : Machine H}
  {asked later : List Consultation}

namespace Machine

theorem Walks.trans (h : Walks setting machine asked next) (h' : Walks setting next later last) :
    Walks setting machine (asked ++ later) last := by
  induction h with
  | stay => exact h'
  | step hi hstep _ ih =>
    rw [List.append_assoc]
    exact .step hi hstep (ih h')

theorem resumed_of_started (h : machine.status = .started) : machine.resumed = machine := by
  rw [resumed, ← h]

theorem exists_walks_of_runFor {fuel : Nat} (hstarted : machine.status = .started)
    (h : runFor setting fuel machine = some (.ok last)) :
    ∃ asked, Walks setting machine asked last.resumed := by
  have hended {machine : Machine H} {fuel : Nat} (hn : machine.next? = none)
      (h : runFor setting fuel machine = some (.ok last)) : machine.resumed = last.resumed := by
    rw [runFor_of_next?_eq_none hn] at h
    cases h
    unfold settle
    split <;> rfl
  induction fuel generalizing machine with
  | zero =>
    cases hn : machine.next? with
    | none =>
      rw [← hended hn h, resumed_of_started hstarted]
      exact ⟨[], .stay machine⟩
    | some instruction => simp [runFor, hn] at h
  | succ fuel ih =>
    cases hn : machine.next? with
    | none =>
      rw [← hended hn h, resumed_of_started hstarted]
      exact ⟨[], .stay machine⟩
    | some instruction =>
      rw [runFor_succ hn] at h
      cases hstep : machine.step setting instruction with
      | fail error failed =>
        rw [hstep] at h
        cases h
      | ok next =>
        rw [hstep] at h
        have hi := instruction?_of_next? hn
        obtain hnext | hpaused := status_of_step hstarted hstep
        · obtain ⟨asked, hwalk⟩ := ih hnext h
          rw [← resumed_of_started hnext] at hwalk
          exact ⟨_, .step hi hstep hwalk⟩
        · have hlast := hended (next?_of_not_running hpaused) h
          rw [← hlast]
          exact ⟨_, .step hi hstep (.stay _)⟩

end Machine

namespace Runner

variable {runner kept finished : Runner H} {world world' world'' : World H} {fuel resumes : Nat}

theorem exists_walks_of_run (h : runner.run fuel world = some (none, kept, world')) :
    (∃ asked, Walks runner.setting (runner.machine world) asked (kept.machine world')) ∧
      kept.setting = runner.setting := by
  rw [run] at h
  split at h
  · obtain ⟨outcome, hrun, hresult⟩ := Option.map_eq_some_iff.1 h
    cases outcome with
    | fail => cases hresult
    | ok last =>
      cases hresult
      exact ⟨exists_walks_of_runFor rfl hrun, rfl⟩
  · cases h

theorem exists_walks_of_resumeUntilOver
    (h : resumeUntilOver fuel resumes (none, kept, world') = some (none, finished, world'')) :
    (∃ later, Walks kept.setting (kept.machine world') later (finished.machine world'')) ∧
      finished.execution.isFinished = true := by
  induction resumes generalizing kept world' with
  | zero =>
    rw [resumeUntilOver] at h
    split at h
    · next hover =>
      cases h
      exact ⟨⟨[], .stay _⟩, hover⟩
    · cases h
  | succ resumes ih =>
    rw [resumeUntilOver] at h
    split at h
    · next hover =>
      cases h
      exact ⟨⟨[], .stay _⟩, hover⟩
    · obtain ⟨⟨error?, between, worldBetween⟩, hrun, hrest⟩ := Option.bind_eq_some_iff.1 h
      cases error? with
      | some error =>
        rw [resumeUntilOver_of_isOver rfl] at hrest
        cases hrest
      | none =>
        obtain ⟨⟨asked, hwalk⟩, hsetting⟩ := exists_walks_of_run hrun
        obtain ⟨⟨later, hlater⟩, hfinished⟩ := ih hrest
        rw [hsetting] at hlater
        exact ⟨⟨_, hwalk.trans hlater⟩, hfinished⟩

end Runner

theorem Op.Fits.operands_eq {shape : Nat → Shape} {size index : Nat} {op : Op}
    (h : op.Fits shape size index) (hop : op.computes = true) (hcall : op.call? = none) :
    (shape (index + 1)).operands + op.needs = (shape index).operands + 1 := by
  cases op with
  | pushValue | pushVariable | pushResult => exact congrArg Shape.operands h
  | operate | callBuiltin =>
    obtain ⟨base, hhere, hbehind⟩ := h
    rw [hhere, hbehind]
    exact Nat.add_right_comm ..
  | pushProperty | invert => rw [h.1]; rfl
  | call | callMethod => cases hcall
  | _ => cases hop

namespace Machine

variable {program : Program} {index : Nat} {done : Machine H} {op : Op}

theorem needs_le_of_execute (hop : op.computes = true) (hcall : op.call? = none)
    (hx : execute setting machine op = .ok done) : op.needs ≤ machine.stack.length := by
  cases op with
  | pushValue | pushVariable | pushResult => exact Nat.zero_le _
  | operate =>
    rw [execute] at hx
    obtain ⟨right, rest, hright, hx⟩ := popThen_eq_ok hx
    obtain ⟨left, rest', hleft, -⟩ := popThen_eq_ok hx
    rw [stack_setStack] at hleft
    rw [hright, hleft]
    exact Nat.le_add_left 2 _
  | callBuiltin function argc =>
    rw [execute, popArgsThen] at hx
    split at hx
    · cases hx
    · next hargs => exact Nat.not_lt.1 hargs
  | pushProperty | invert =>
    rw [execute] at hx
    obtain ⟨value, rest, hstack, -⟩ := popThen_eq_ok hx
    rw [hstack]
    exact Nat.le_add_left 1 _
  | call | callMethod => cases hcall
  | _ => cases hop

theorem argc_le_of_execute {request : Request H} {found : Machine H}
    (hr : machine.request? setting op = some (request, found))
    (hx : execute setting machine op = .ok done) : request.argc ≤ machine.stack.length := by
  rw [execute_of_request? hr, stack_of_request? hr] at hx
  split at hx
  · cases hx
  · next hargs => exact Nat.not_lt.1 hargs

theorem Stands.exists_request? (h : machine.Stands program index)
    (hentries : ∀ name, program.entry? name = none) {argc restart : Nat}
    (hcall : op.call? = some (argc, restart)) (hx : execute setting machine op = .ok done) :
    ∃ request found, machine.request? setting op = some (request, found) ∧ request.argc = argc ∧
      request.restart = restart := by
  cases op with
  | call name =>
    cases hcall
    obtain ⟨request, found, hr, -, hargc, hrestart, -⟩ := asks_call hentries name argc restart h hx
    exact ⟨request, found, hr, hargc, hrestart⟩
  | callMethod object name =>
    cases hcall
    obtain ⟨request, found, hr, -, hargc, hrestart, -⟩ :=
      asks_callMethod object name argc restart none h hx
    exact ⟨request, found, hr, hargc, hrestart⟩
  | _ => cases hcall

/-- A machine outside of procedures that has so many operands less than there are to be. -/
structure Lacks (program : Program) (shape : Nat → Shape) (count : Nat) (machine : Machine H) :
    Prop where
  stands : machine.Stands program machine.execution.pc
  operands : machine.stack.length + count = (shape machine.execution.pc).operands

theorem Stands.lacks {shape : Nat → Shape} {count : Nat} (h : machine.Stands program index)
    (hoperands : machine.stack.length + count = (shape index).operands) :
    machine.Lacks program shape count := by
  obtain rfl := h.pc
  exact ⟨h, hoperands⟩

namespace Lacks

variable {shape : Nat → Shape} {count : Nat}

theorem execute (h : machine.Lacks program shape count)
    (hentries : ∀ name, program.entry? name = none)
    (hfits : op.Fits shape program.size machine.execution.pc) (hop : op.computes = true)
    (hx : Machine.execute setting machine op = .ok done) :
    done.Lacks program shape count ∧
      (op.call? = none ∧ 0 < done.stack.length ∧ done.execution.pc = machine.execution.pc + 1 ∨
        ∃ argc restart, op.call? = some (argc, restart) ∧
          (done.execution.pc = machine.execution.pc + 1 ∨ done.execution.pc = restart)) := by
  have hcount := h.operands
  cases hcall : op.call? with
  | none =>
    obtain ⟨taken, value, rfl, htaken, -⟩ := exists_push_of_computes hop hcall hx
    have hneeds := needs_le_of_execute hop hcall hx
    have hfit := hfits.operands_eq hop hcall
    have hstands : taken.Stands program machine.execution.pc :=
      (h.stands.setStack (machine.stack.drop op.needs)).1.congr (by rw [htaken, setStack_drop])
    have hrest : taken.stack.length = machine.stack.length - op.needs := by
      rw [Machine.stack, htaken, Execution.stack_dropOperands, List.length_drop]
      rfl
    obtain ⟨hdone, hpushed, -⟩ := hstands.push value
    have hlength : (taken.push value).advance.stack.length = taken.stack.length + 1 :=
      congrArg List.length hpushed
    exact ⟨hdone.lacks (by omega), .inl ⟨rfl, by omega, hdone.pc⟩⟩
  | some call =>
    obtain ⟨argc, restart⟩ := call
    obtain ⟨request, found, hr, rfl, rfl⟩ := h.stands.exists_request? hentries hcall hx
    have hargs := argc_le_of_execute hr hx
    obtain ⟨hstack, -, hcase⟩ := h.stands.answered hr hx
    have hlength : done.stack.length = machine.stack.length - request.argc := by
      rw [hstack, List.length_drop]
    have hfit : (shape machine.execution.pc).operands =
        (shape (machine.execution.pc + 1)).operands + request.argc ∧
        shape request.restart = shape (machine.execution.pc + 1) := by
      cases op with
      | call | callMethod =>
        cases hcall
        exact ⟨congrArg Shape.operands hfits.1, hfits.2.1⟩
      | _ => cases hcall
    obtain ⟨_, _, -, -, hdone, -⟩ | ⟨_, -, hdone⟩ := hcase
    · exact ⟨hdone.lacks (by omega), .inr ⟨_, _, rfl, .inl hdone.pc⟩⟩
    · exact ⟨hdone.lacks (by rw [hfit.2]; omega), .inr ⟨_, _, rfl, .inr hdone.pc⟩⟩

end Lacks

end Machine

/-- What the expression comes to with these variables and objects, if the host gives these answers. -/
def Node.Yields (tree : Node) (signals : List String) (vars : Table Value) (objects : Objects)
    (answers : List Consultation) (value : Value) : Prop :=
  ∃ store, (Phrase.value tree).Denotes signals ⟨⟨vars, []⟩, objects, []⟩ answers [value] store []

theorem Node.Yields.iff_eq {tree : Node} {signals : List String} {vars : Table Value}
    {objects : Objects} {answers : List Consultation} {value : Value}
    (h : tree.Yields signals vars objects answers value) (other : Value) :
    tree.Yields signals vars objects answers other ↔ other = value := by
  obtain ⟨_, hvalue⟩ := h
  constructor
  · rintro ⟨_, hother⟩
    obtain ⟨⟨⟩, -⟩ := hother.unique hvalue
    rfl
  · rintro rfl
    exact ⟨_, hvalue⟩

theorem Node.Yields.exists_at_once {tree : Node} {signals : List String} {vars : Table Value}
    {objects : Objects} {answers : List Consultation} {value : Value}
    (h : tree.Yields signals vars objects answers value) (hobjects : objects.LookedUp)
    (hsilent : ∀ consultation ∈ answers, consultation.Silent objects) :
    ∃ plain, plain.Sublist (answers.filterMap Consultation.atOnce?) ∧
      tree.Yields signals vars objects plain value := by
  obtain ⟨store, hdenotes⟩ := h
  obtain ⟨-, heard, plain, hheard, hsub, hplain⟩ := hdenotes.exists_at_once hobjects hsilent
  rw [List.append_nil] at hheard
  have hdenotes := hplain []
  rw [List.append_nil] at hdenotes
  exact ⟨plain, hheard ▸ hsub, _, hdenotes⟩

theorem Node.exists_lowersValue {tree : Node} {program : Program}
    (h : tree.compileExpression [] = .ok program) :
    ∃ code, LowersValue (.value tree) 0 code ∧ program = ⟨code.toArray, []⟩ := by
  obtain ⟨before, entries, code, hbefore, hvalue, rfl⟩ := Lowers.of_compileExpression h
  cases hbefore
  exact ⟨code, hvalue, rfl⟩

theorem LowersValue.call?_of_getLast? {phrase : Phrase} {start : Nat} {code : List Instruction}
    (h : LowersValue phrase start code) {instruction : Instruction}
    (hlast : code.getLast? = some instruction) : instruction.op.call? = none := by
  induction h with
  | literal | ident | signal | negate | binary | call | methodCall =>
    simp [emit] at hlast
    cases hlast
    rfl
  | group _ ih => exact ih hlast
  | path =>
    have hmem := List.mem_of_getLast? hlast
    simp only [emit, List.map_cons, List.map_map, List.mem_cons, List.mem_map] at hmem
    obtain rfl | ⟨_, -, rfl⟩ := hmem <;> rfl
  | nil => cases hlast
  | cons _ _ ih₁ ih₂ =>
    rw [List.getLast?_append, Option.or_eq_some_iff] at hlast
    obtain hlast | ⟨-, hlast⟩ := hlast
    · exact ih₂ hlast
    · exact ih₁ hlast

section Expression

variable {tree : Node} {code : List Instruction}

theorem LowersValue.yields (h : LowersValue (.value tree) 0 code) {vars : Table Value}
    {world : World H} (hwalk : Walks setting (freshMachine ⟨code.toArray, []⟩ vars world) asked last)
    (hend : last.execution.isFinished = true) :
    ∃ value, last.stack = [value] ∧ tree.Yields setting.signals vars world.objects asked value := by
  have hcode := Program.holds_toArray code []
  have hstart : (freshMachine ⟨code.toArray, []⟩ vars world).Stands ⟨code.toArray, []⟩ 0 :=
    ⟨rfl, rfl, rfl⟩
  obtain ⟨passed, values, rest, hp, hon⟩ := h.exists_passes (fun _ => rfl) hend hcode hstart hwalk
  obtain ⟨value, rfl⟩ := List.length_eq_one_iff.1 hp.count
  cases hon with
  | stay => exact ⟨value, hp.stack, _, hp.denotes⟩
  | step hi =>
    rw [Execution.instruction?, hp.stands.runs, hp.stands.pc] at hi
    simp at hi

variable {program : Program} {count : Nat}

theorem Machine.Lacks.resumed {shape : Nat → Shape} (h : machine.Lacks program shape count) :
    machine.finishStep.resumed.Lacks program shape count :=
  h.stands.resumed.lacks ((stack_resumed machine).symm ▸ h.operands)

theorem LowersValue.lacks_step (h : LowersValue (.value tree) 0 code)
    (hm : machine.Lacks ⟨code.toArray, []⟩ (expressionShape [] tree) count)
    {instruction : Instruction} (hi : machine.execution.instruction? = some instruction)
    (hstep : machine.step setting instruction = .ok next) :
    next.resumed.Lacks ⟨code.toArray, []⟩ (expressionShape [] tree) count ∧
      (0 < count → next.resumed.execution.isFinished = false) := by
  obtain ⟨hc, -⟩ := LowersValue.compiled .nil h
  obtain ⟨-, -, hend⟩ := LowersValue.shaped_expression .nil h
  rw [List.length_nil, Nat.zero_add] at hend
  obtain ⟨done, hx, rfl⟩ := ok_cases hstep
  have hat : code[machine.execution.pc]? = some instruction := by
    simpa [Execution.instruction?, hm.stands.runs] using hi
  have hfits : instruction.op.Fits (expressionShape [] tree) code.length machine.execution.pc := by
    simpa [Program.size] using hc.fits.get hat
  have hready : machine.clearMarks.Lacks ⟨code.toArray, []⟩ (expressionShape [] tree) count :=
    ⟨hm.stands.clearMarks, hm.operands⟩
  obtain ⟨hdone, hcase⟩ := hready.execute (fun _ => rfl) hfits
    (h.computes _ (List.mem_of_getElem? hat)) hx
  refine ⟨hdone.resumed, fun hcount => ?_⟩
  have hlt : machine.clearMarks.execution.pc < code.length := (List.getElem?_eq_some_iff.1 hat).1
  suffices hinside : done.execution.pc < code.length by
    rw [Execution.isFinished, hdone.resumed.stands.runs, hdone.stands.resumed.pc]
    simpa [Program.size] using hinside
  obtain ⟨-, hpushed, hpc⟩ | ⟨argc, restart, hcall, hpc | hpc⟩ := hcase
  · -- at the end there is to be one operand, the one that has been pushed
    by_contra hge
    have hoperands := hdone.operands
    rw [show done.execution.pc = code.length by omega, hend] at hoperands
    dsimp only at hoperands
    omega
  · by_contra hge
    have hlast : code.getLast? = some instruction := by
      rw [List.getLast?_eq_getElem?, show code.length - 1 = machine.clearMarks.execution.pc by omega]
      exact hat
    cases (h.call?_of_getLast? hlast).symm.trans hcall
  · have hlaid := (h.laid (Program.holds_toArray code [])).get hat
    obtain ⟨_, _, -, -, -, hindex⟩ := hlaid.argued argc restart hcall
    have hback : restart ≤ machine.clearMarks.execution.pc := by
      rw [show machine.clearMarks.execution.pc = _ from (Nat.zero_add _).symm.trans hindex]
      exact Nat.le_add_right ..
    omega

theorem LowersValue.lacks_of_walks (h : LowersValue (.value tree) 0 code)
    (hm : machine.Lacks ⟨code.toArray, []⟩ (expressionShape [] tree) count)
    (hwalk : Walks setting machine asked last) :
    last.Lacks ⟨code.toArray, []⟩ (expressionShape [] tree) count ∧
      (0 < count → machine.execution.isFinished = false → last.execution.isFinished = false) := by
  induction hwalk with
  | stay => exact ⟨hm, fun _ hunfinished => hunfinished⟩
  | step hi hstep _ ih =>
    obtain ⟨hnext, hgoes⟩ := h.lacks_step hm hi hstep
    obtain ⟨hlast, hends⟩ := ih hnext
    exact ⟨hlast, fun hcount _ => hends hcount (hgoes hcount)⟩

end Expression

theorem Setting.CannotTell.refl (setting : Setting H) (program : Program) :
    setting.CannotTell program program := by
  have honto {context : CallContext} (h : context.execution.program = program) :
      context.onto program = context := by
    subst h
    rfl
  exact ⟨fun _ _ _ _ _ _ h => by rw [honto h], fun _ _ _ _ _ _ _ h => by rw [honto h]⟩

namespace Runner

variable {runner kept after : Runner H} {world world' : World H} {fuel : Nat} {value : Value}

theorem runExpression_eq_ok (h : runner.runExpression fuel world = some (.ok value, after, world')) :
    ∃ kept, runner.run fuel world = some (none, kept, world') ∧ kept.popValue = (value, after) := by
  obtain ⟨⟨error?, kept, world''⟩, hrun, hresult⟩ := Option.map_eq_some_iff.1 h
  cases error? with
  | some error => cases hresult
  | none =>
    cases hresult
    exact ⟨kept, hrun, rfl⟩

theorem eq_of_popValue_nil (h : kept.popValue = (value, after))
    (hstack : kept.execution.frame.stack = []) : value = .null ∧ after = kept := by
  rw [popValue, hstack] at h
  cases h
  exact ⟨rfl, rfl⟩

theorem eq_of_popValue_cons {top : Value} {rest : List Value} (h : kept.popValue = (value, after))
    (hstack : kept.execution.frame.stack = top :: rest) : value = top ∧
      after.setting = kept.setting ∧
      ∀ world, after.machine world = (kept.machine world).setStack rest := by
  rw [popValue, hstack] at h
  cases h
  exact ⟨rfl, rfl, fun _ => rfl⟩

theorem isFinished_of_popValue (h : kept.popValue = (value, after)) :
    after.execution.isFinished = kept.execution.isFinished := by
  obtain ⟨⟨_, _, calls, _, _, _⟩, _, _, _, _, _, _⟩ := kept
  unfold popValue at h
  split at h
  · cases h
    rfl
  · cases h
    cases calls <;> rfl

theorem exists_walks_of_load {program : Program} {globals : List (String × Value)} {loaded : Runner H}
    (hload : (ofSetting setting).load program = .ok loaded)
    (hrun : (loaded.loadGlobals globals).run fuel world = some (none, kept, world')) :
    (∃ asked, Walks setting (freshMachine program (Table.ofPairs globals) world) asked
      (kept.machine world')) ∧ kept.setting = setting := by
  obtain ⟨_, hload', -, hsetting, hmachine⟩ :=
    exists_load (show (ofSetting setting).execution = .empty from rfl) program globals
  cases hload'.symm.trans hload
  have hwalks := exists_walks_of_run hrun
  rwa [hsetting, hmachine] at hwalks

theorem exists_resumeUntilOver_of_unpaused {program : Program} {globals : List (String × Value)}
    (hlimit : setting.limits.maxCycles = none) {schedule : Schedule}
    {plain loaded done kept : Runner (H × List HostCall)} {fuel fuel' : Nat}
    {world world' between : World (H × List HostCall)}
    (hplain : (ofSetting (setting.scheduled .never)).load program = .ok plain)
    (hload : (ofSetting (setting.scheduled schedule)).load program = .ok loaded)
    (hdone : (plain.loadGlobals globals).run fuel world = some (none, done, world'))
    (hfinished : done.execution.isFinished = true)
    (hkept : (loaded.loadGlobals globals).run fuel' world = some (none, kept, between)) :
    ∃ fuel resumes last, resumeUntilOver fuel resumes (none, kept, between) =
      some (none, last, world') ∧ last.execution.Agrees done.execution := by
  obtain ⟨_, hload₁, hready₁, hsetting₁, hmachine₁⟩ :=
    exists_load (show (ofSetting (setting.scheduled .never)).execution = .empty from rfl) program
      globals
  obtain ⟨_, hload₂, hready₂, hsetting₂, hmachine₂⟩ :=
    exists_load (show (ofSetting (setting.scheduled schedule)).execution = .empty from rfl) program
      globals
  cases hload₁.symm.trans hplain
  cases hload₂.symm.trans hload
  rw [run, if_pos hready₁, hsetting₁, hmachine₁] at hdone
  obtain ⟨outcome, houtcome, hresult⟩ := Option.map_eq_some_iff.1 hdone
  cases outcome with
  | fail => cases hresult
  | ok ended =>
    cases hresult
    have htwins : Twins program (freshMachine program (Table.ofPairs globals) world)
        (freshMachine program (Table.ofPairs globals) world) := ⟨rfl, rfl, ⟨none, rfl⟩, rfl⟩
    obtain ⟨most, resumes, last, hgoes, hlast⟩ := htwins.endsAlike hsetting₂ hready₂ hlimit
      (.refl program) (.refl setting program) houtcome (.inr hfinished)
    rw [← hmachine₂, ← run_bind_resumeUntilOver hready₂] at hgoes
    obtain ⟨found, hrun, hrest⟩ := Option.bind_eq_some_iff.1 hgoes
    obtain rfl := run_unique hrun hkept
    exact ⟨most, resumes, last, hrest, hlast⟩

end Runner

section Expression

variable {tree : Node} {program : Program} (hcompile : tree.compileExpression [] = .ok program)
  {vars : Table Value} {world : World H}

include hcompile

theorem Machine.Walks.yields (h : Walks setting (freshMachine program vars world) asked last)
    (hend : last.execution.isFinished = true) :
    ∃ value, last.stack = [value] ∧ tree.Yields setting.signals vars world.objects asked value := by
  obtain ⟨code, hvalue, rfl⟩ := Node.exists_lowersValue hcompile
  exact hvalue.yields h hend

theorem Machine.Walks.unfinished_of_lost
    (h : Walks setting (freshMachine program vars world) asked machine)
    (hunfinished : machine.execution.isFinished = false) {top : Value} {rest : List Value}
    (hstack : machine.stack = top :: rest) (hlost : Walks setting (machine.setStack rest) later last) :
    last.execution.isFinished = false := by
  obtain ⟨code, hvalue, rfl⟩ := Node.exists_lowersValue hcompile
  obtain ⟨-, hshape⟩ := LowersValue.compiled .nil hvalue
  have hfresh : (freshMachine ⟨code.toArray, []⟩ vars world).Lacks ⟨code.toArray, []⟩
      (Node.expressionShape [] tree) 0 := ⟨⟨rfl, rfl, rfl⟩, (congrArg Shape.operands hshape).symm⟩
  obtain ⟨hmachine, -⟩ := hvalue.lacks_of_walks hfresh h
  have hoperands := hmachine.operands
  rw [hstack] at hoperands
  have hstands := (hmachine.stands.setStack rest).1
  have hlacks : (machine.setStack rest).Lacks ⟨code.toArray, []⟩ (Node.expressionShape [] tree) 1 :=
    hstands.lacks ((congrArg (·.length + 1) (machine.stack_setStack rest)).trans hoperands)
  refine (hvalue.lacks_of_walks hlacks hlost).2 Nat.one_pos ?_
  rw [Execution.isFinished, hstands.runs, hstands.pc, ← hmachine.stands.runs]
  exact hunfinished

end Expression

/-- A run of an expression that comes to the end gives the value that the expression has with the
answers of the host. If the host pauses it before, what it gives is the topmost operand, or nothing if
there is none. Without that operand the rest of the run does not come to the end, however it is resumed.
As long as the operand is not taken, the rest of the run leaves the value of the expression, also that
with the last answers alone, given at once, if the host leaves no other trace. And a run that is paused
after some of the answers then comes to what it comes to without the pauses. -/
theorem expression_run_gives_value_unless_paused {tree : Node} {program : Program}
    (hcompile : tree.compileExpression [] = .ok program) (globals : List (String × Value))
    (setting : Setting H) :
    (∀ {loaded after : Runner H} {fuel : Nat} {world world' : World H} {value : Value},
      (Runner.ofSetting setting).load program = .ok loaded →
      (loaded.loadGlobals globals).runExpression fuel world = some (.ok value, after, world') →
      ∃ kept asked, (loaded.loadGlobals globals).run fuel world = some (none, kept, world') ∧
        Walks setting (freshMachine program (Table.ofPairs globals) world) asked
          (kept.machine world') ∧
        (kept.execution.isFinished = true → after.execution.frame.stack = [] ∧
          ∀ other, tree.Yields setting.signals (Table.ofPairs globals) world.objects asked other ↔
            other = value) ∧
        (kept.execution.isFinished = false →
          (kept.execution.frame.stack = [] → value = .null ∧ after = kept) ∧
          (∀ top rest, kept.execution.frame.stack = top :: rest → value = top ∧
            ∀ {fuel resumes error? last world''}, Runner.resumeUntilOver fuel resumes
              (none, after, world') = some (error?, last, world'') → error?.isSome = true) ∧
          ∀ {fuel resumes last world''}, Runner.resumeUntilOver fuel resumes (none, kept, world') =
              some (none, last, world'') →
            ∃ result later, last.execution.frame.stack = [result] ∧
              Walks setting (kept.machine world') later (last.machine world'') ∧
              (∀ other, tree.Yields setting.signals (Table.ofPairs globals) world.objects
                (asked ++ later) other ↔ other = result) ∧
              (world.objects.LookedUp →
                (∀ consultation ∈ asked ++ later, consultation.Silent world.objects) →
                ∃ answers, answers.Sublist ((asked ++ later).filterMap Consultation.atOnce?) ∧
                  tree.Yields setting.signals (Table.ofPairs globals) world.objects answers result))) ∧
    (setting.limits.maxCycles = none → ∀ (schedule : Schedule)
        {plain loaded done kept : Runner (H × List HostCall)} {fuel fuel' : Nat}
        {world world' between : World (H × List HostCall)} {value : Value},
      (Runner.ofSetting (setting.scheduled .never)).load program = .ok plain →
      (Runner.ofSetting (setting.scheduled schedule)).load program = .ok loaded →
      (plain.loadGlobals globals).runExpression fuel world = some (.ok value, done, world') →
      done.execution.isFinished = true →
      (loaded.loadGlobals globals).run fuel' world = some (none, kept, between) →
      ∃ fuel resumes last, Runner.resumeUntilOver fuel resumes (none, kept, between) =
        some (none, last, world') ∧ last.execution.frame.stack = [value]) := by
  refine ⟨?_, ?_⟩
  · intro loaded after fuel world world' value hload hrun
    obtain ⟨kept, hkept, hpop⟩ := Runner.runExpression_eq_ok hrun
    obtain ⟨⟨asked, hwalk⟩, hsetting⟩ := Runner.exists_walks_of_load hload hkept
    refine ⟨kept, asked, hkept, hwalk, fun hend => ?_, fun hunfinished =>
      ⟨Runner.eq_of_popValue_nil hpop, fun top rest hstack => ?_, fun hresumed => ?_⟩⟩
    · obtain ⟨result, hstack, hyields⟩ := hwalk.yields hcompile hend
      obtain ⟨rfl, -, hafter⟩ := Runner.eq_of_popValue_cons hpop hstack
      exact ⟨(congrArg Machine.stack (hafter world')).trans (stack_setStack _ _), hyields.iff_eq⟩
    · obtain ⟨rfl, hsetting', hafter⟩ := Runner.eq_of_popValue_cons hpop hstack
      refine ⟨rfl, fun {_ _ error? last world''} hresumed => ?_⟩
      cases error? with
      | some error => rfl
      | none =>
        obtain ⟨⟨later, hlater⟩, hend⟩ := Runner.exists_walks_of_resumeUntilOver hresumed
        rw [hsetting', hsetting, hafter] at hlater
        cases (hwalk.unfinished_of_lost hcompile hunfinished hstack hlater).symm.trans hend
    · obtain ⟨⟨later, hlater⟩, hend⟩ := Runner.exists_walks_of_resumeUntilOver hresumed
      rw [hsetting] at hlater
      obtain ⟨result, hstack, hyields⟩ := (hwalk.trans hlater).yields hcompile hend
      exact ⟨result, later, hstack, hlater, hyields.iff_eq, hyields.exists_at_once⟩
  · intro hlimit schedule plain loaded done kept fuel fuel' world world' between value hplain hload
      hdone hfinished hkept
    obtain ⟨ended, hended, hpop⟩ := Runner.runExpression_eq_ok hdone
    rw [Runner.isFinished_of_popValue hpop] at hfinished
    obtain ⟨⟨asked, hwalk⟩, -⟩ := Runner.exists_walks_of_load hplain hended
    obtain ⟨result, hstack, -⟩ := hwalk.yields hcompile hfinished
    obtain ⟨rfl, -⟩ := Runner.eq_of_popValue_cons hpop hstack
    obtain ⟨fuel, resumes, last, hresumed, hagrees⟩ :=
      Runner.exists_resumeUntilOver_of_unpaused hlimit hplain hload hended hfinished hkept
    refine ⟨fuel, resumes, last, hresumed, ?_⟩
    rw [Execution.frame, hagrees.calls, hagrees.globals]
    exact hstack

def answersTwo : FunctionProvider Unit where
  supports := (· == "ask")
  invoke _ _ _ world := (⟨[], .ok (.value (.int 2))⟩, world)

def knowingTwo : Setting Unit := ⟨[answersTwo], [], [], .unlimited⟩

def askedSum : Node := .binary .add (.int 1 none) (.call "ask" [] none) none

def askedSumProgram : Program := (askedSum.compileExpression []).toOption.getD .empty

theorem asked_sum_gives_value_unless_paused : ∃ plain done loaded after kept world' between,
      (Runner.ofSetting (knowingTwo.scheduled .never)).load askedSumProgram = .ok plain ∧
      (plain.loadGlobals []).runExpression 10 ⟨.empty, (), []⟩ = some (.ok (.int 3), done, world') ∧
      (∃ asked, ∀ other, askedSum.Yields [] [] .empty asked other ↔ other = .int 3) ∧
      (Runner.ofSetting (knowingTwo.scheduled fun _ => some none)).load askedSumProgram = .ok loaded ∧
      (loaded.loadGlobals []).runExpression 10 ⟨.empty, (), []⟩ =
        some (.ok (.int 1), after, between) ∧
      (∀ fuel resumes, ∀ error? last world'', Runner.resumeUntilOver fuel resumes
        (none, after, between) = some (error?, last, world'') → error?.isSome = true) ∧
      (loaded.loadGlobals []).run 10 ⟨.empty, (), []⟩ = some (none, kept, between) ∧
      ∃ fuel resumes last, Runner.resumeUntilOver fuel resumes (none, kept, between) =
        some (none, last, world') ∧ last.execution.frame.stack = [.int 3] := by
  have hcompile : askedSum.compileExpression [] = .ok askedSumProgram := by rfl
  refine ⟨_, _, _, _, _, _, _, rfl, rfl, ?_, rfl, rfl, ?_, rfl, ?_⟩
  · obtain ⟨kept, asked, hkept, -, hend, -⟩ := (expression_run_gives_value_unless_paused hcompile []
      (knowingTwo.scheduled .never)).1 rfl (show Runner.runExpression 10 _ ⟨.empty, (), []⟩ = _ from rfl)
    cases hkept
    exact ⟨asked, (hend rfl).2⟩
  · obtain ⟨kept, asked, hkept, -, -, hpaused⟩ := (expression_run_gives_value_unless_paused hcompile []
      (knowingTwo.scheduled fun _ => some none)).1 rfl
      (show Runner.runExpression 10 _ ⟨.empty, (), []⟩ = _ from rfl)
    cases hkept
    intro fuel resumes error? last world''
    exact ((hpaused rfl).2.1 _ _ rfl).2
  · exact (expression_run_gives_value_unless_paused hcompile [] knowingTwo).2 rfl
      (fun _ => some none) rfl rfl (show Runner.runExpression 10 _ ⟨.empty, (), []⟩ = _ from rfl) rfl
      (show Runner.run 10 _ _ = _ from rfl)

/-- The run gives the one that is to be added to, and misses it when it goes on. -/
theorem paused_sum_loses_operand : ∃ loaded after world last world',
      (Runner.ofSetting (knowingTwo.scheduled fun _ => some none)).load askedSumProgram = .ok loaded ∧
      (loaded.loadGlobals []).runExpression 10 ⟨.empty, (), []⟩ =
        some (.ok (.int 1), after, world) ∧
      after.resume 10 world none = some (some (.ofFault .stackUnderflow), last, world') :=
  ⟨_, _, _, _, _, rfl, rfl, rfl⟩

end DurableScript
