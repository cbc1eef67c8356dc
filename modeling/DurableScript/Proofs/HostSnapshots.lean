import DurableScript.Proofs.FailedSteps
import DurableScript.Proofs.Lookups
import DurableScript.Proofs.Rereading

namespace DurableScript

namespace Execution

variable {objects : Objects} {first : Nat} {execution restored : Execution}

section

variable (h : execution.RestoredAs objects first restored)
include h

theorem RestoredAs.globals : execution.globals.RestoredAs objects first restored.globals :=
  (List.forall₂_cons.1 h.frames).1

theorem RestoredAs.calls :
    List.Forall₂ (Frame.RestoredAs objects first) execution.calls restored.calls :=
  List.forall₂_reverse_iff.1 (List.forall₂_cons.1 h.frames).2

theorem RestoredAs.frame : execution.frame.RestoredAs objects first restored.frame := by
  have hglobals := h.globals
  have hcalls := h.calls
  unfold Execution.frame
  generalize execution.calls = calls at hcalls
  generalize restored.calls = calls' at hcalls
  cases hcalls with
  | nil => exact hglobals
  | cons hcall _ => exact hcall

theorem RestoredAs.alike : restored.Alike execution where
  program := h.program
  pc := h.pc
  bottom := h.globals.stack.length_eq.symm
  outline := List.map_eq_of_forall₂ h.calls fun _ _ hcall =>
    Prod.ext hcall.stack.length_eq.symm hcall.returnTo

theorem RestoredAs.lookup? (name : String) :
    Option.Rel (Value.RestoredAs objects first) (execution.lookup? name)
      (restored.lookup? name) := by
  have hframe := Table.related_of_forall₂ h.frame.vars name
  have hglobals := Table.related_of_forall₂ h.globals.vars name
  unfold Execution.lookup? Frame.get?
  generalize Table.find? name execution.frame.vars = found at hframe
  generalize Table.find? name restored.frame.vars = found' at hframe
  cases hframe with
  | some hvalue => exact .some hvalue
  | none => exact hglobals

end

theorem lookup?_dropOperands (execution : Execution) (count : Nat) (name : String) :
    (execution.dropOperands count).lookup? name = execution.lookup? name := by
  obtain ⟨_, _, calls, _, _, _⟩ := execution
  cases calls <;> rfl

end Execution

def Op.object? : Op → Option String
  | callMethod object _ _ _ => some object
  | _ => none

namespace Machine

variable {H : Type} {setting again : Setting H} {machine resumed found found' : Machine H}
  {request request' : Request H} {op : Op} {name : String} {value : Value}

theorem lookup?_of_receiver {typeName : String}
    (h : machine.receiver name = .ok (value, typeName, found)) :
    machine.execution.lookup? name = some value ∧
      ((∃ fields, value = .record fields ∧ typeName = "record") ∨ ∃ ref, value = .object ref) := by
  obtain ⟨read, hread, hvalue⟩ := receiver_eq_ok h
  refine ⟨(readVariable_eq_ok hread).1, ?_⟩
  rcases hvalue with ⟨fields, hrecord, htype, -⟩ | ⟨ref, _, hobject, -, -⟩
  · exact .inl ⟨fields, hrecord, htype⟩
  · exact .inr ⟨ref, hobject⟩

theorem receiver_of_record {fields : Table Value}
    (h : machine.execution.lookup? name = some (.record fields)) :
    machine.receiver name = .ok (.record fields, "record", machine) := by
  simp only [receiver, readVariable, h]

def receiverType? (machine : Machine H) (op : Op) : Option String :=
  op.object?.bind fun object => (machine.receiver object).toOption.map fun found => found.2.1

theorem exists_request? (hprogram : resumed.execution.program = machine.execution.program)
    (hfunctions : again.functions = setting.functions) (hmethods : again.methods = setting.methods)
    (h : machine.request? setting op = some (request, found))
    (htype : resumed.receiverType? op = machine.receiverType? op) :
    ∃ request' found', resumed.request? again op = some (request', found') := by
  cases request?_cases h with
  | @function name argc restart provider hentry hfind =>
    refine ⟨⟨none, name, argc, restart, (provider.invoke · name)⟩, resumed, ?_⟩
    simp only [request?, hprogram, hentry, hfunctions, hfind]
    rfl
  | @method object name typeName argc restart value provider found hr hfind =>
    have htype : (resumed.receiver object).toOption.map (fun found => found.2.1) =
        (machine.receiver object).toOption.map fun found => found.2.1 := htype
    rw [hr] at htype
    cases hr' : resumed.receiver object with
    | error fault =>
      rw [hr'] at htype
      cases htype
    | ok answer =>
      obtain ⟨value', typeName', found'⟩ := answer
      rw [hr'] at htype
      obtain rfl : typeName' = typeName := Option.some.inj htype
      refine ⟨⟨some value', name, argc, restart, (provider.invoke · value' name)⟩, found', ?_⟩
      simp only [request?, hr', hmethods, hfind]
      rfl

theorem request?_same (h : machine.request? setting op = some (request, found))
    (h' : resumed.request? again op = some (request', found')) :
    request'.name = request.name ∧ request'.argc = request.argc := by
  cases request?_cases h <;> cases request?_cases h' <;> exact ⟨rfl, rfl⟩

theorem request?_function (hfunctions : again.functions = setting.functions)
    (h : machine.request? setting op = some (request, found))
    (h' : resumed.request? again op = some (request', found')) (hreceiver : request.receiver = none) :
    request' = request := by
  cases request?_cases h with
  | function _ hfind =>
    cases request?_cases h' with
    | function _ hfind' =>
      rw [hfunctions, hfind] at hfind'
      cases hfind'
      rfl
  | method => cases hreceiver

section Receivers

variable {objects : Objects} {first : Nat}

theorem request?_receiver (h : machine.request? setting op = some (request, found))
    (h' : resumed.request? again op = some (request', found'))
    (hlookup : ∀ object ∈ op.object?, Option.Rel (Value.RestoredAs objects first)
      (machine.execution.lookup? object) (resumed.execution.lookup? object)) :
    Option.Rel (Value.RestoredAs objects first) request.receiver request'.receiver := by
  cases request?_cases h with
  | function =>
    cases request?_cases h'
    exact .none
  | @method object _ _ _ _ _ _ _ hr =>
    cases request?_cases h' with
    | method hr' =>
      have hvalue := hlookup object rfl
      rw [(lookup?_of_receiver hr).1, (lookup?_of_receiver hr').1] at hvalue
      exact hvalue

theorem receiverType?_eq (h : machine.request? setting op = some (request, found))
    (hobject : ∀ ref, request.receiver ≠ some (.object ref))
    (hlookup : ∀ object ∈ op.object?, Option.Rel (Value.RestoredAs objects first)
      (machine.execution.lookup? object) (resumed.execution.lookup? object)) :
    resumed.receiverType? op = machine.receiverType? op := by
  cases request?_cases h with
  | function => rfl
  | @method object _ _ _ _ _ _ _ hr =>
    obtain ⟨hvalue, ⟨fields, rfl, rfl⟩ | ⟨ref, rfl⟩⟩ := lookup?_of_receiver hr
    · have hrel := hlookup object rfl
      rw [hvalue] at hrel
      cases hlookup' : resumed.execution.lookup? object with
      | none =>
        rw [hlookup'] at hrel
        cases hrel
      | some value' =>
        rw [hlookup'] at hrel
        cases hrel with
        | some hvalue' =>
          obtain ⟨fields', rfl, -⟩ := hvalue'
          show (resumed.receiver object).toOption.map _ = (machine.receiver object).toOption.map _
          rw [hr, receiver_of_record hlookup']
          rfl
    · exact absurd rfl (hobject ref)

end Receivers

theorem step_of_missing {instruction : Instruction}
    (hwithin : machine.execution.Within setting.limits)
    (h : machine.clearMarks.request? setting instruction.op = some (request, found))
    (hstack : machine.stack.length < request.argc) :
    machine.step setting instruction =
      .fail ⟨.stackUnderflow, instruction.pos⟩ (found.setStack []) := by
  have hstack : found.stack.length < request.argc := stack_of_request? h ▸ hstack
  rw [step, hwithin.limitReached?_eq_none, execute_of_request? h, if_pos hstack]
  rfl

/-- How a request is made again by a machine that takes up a kept execution. -/
structure AsksAgain (objects : Objects) (first : Nat) (setting : Setting H) (machine : Machine H)
    (instruction : Instruction) (request : Request H) (resumed : Machine H) : Prop where
  next : resumed.next? = some instruction
  /-- Somebody is asked, provided that the receiver, if it is an object, still has its type. -/
  asked : (∀ ref, request.receiver ≠ some (.object ref)) ∨
    resumed.clearMarks.receiverType? instruction.op =
      machine.clearMarks.receiverType? instruction.op → ∃ again found,
        resumed.clearMarks.request? setting instruction.op = some (again, found)
  same : ∀ {again found}, resumed.clearMarks.request? setting instruction.op = some (again, found) →
    again.name = request.name ∧ again.argc = request.argc ∧
      (request.receiver = none → again = request) ∧
      Option.Rel (Value.RestoredAs objects first) request.receiver again.receiver
  /-- The arguments are the operands that lay under those of the first request. -/
  arguments : ∀ {again found},
    resumed.clearMarks.request? setting instruction.op = some (again, found) →
      List.Forall₂ (Value.RestoredAs objects first)
        ((machine.stack.drop request.argc).take request.argc) (found.stack.take again.argc)
  made : ∀ {again found},
    resumed.clearMarks.request? setting instruction.op = some (again, found) →
      request.argc ≤ (machine.stack.drop request.argc).length →
        execute setting resumed.clearMarks instruction.op = (found.asking again).conclude
          again.restart (found.reply setting again).1 (found.reply setting again).2
  missing : ∀ {again found},
    resumed.clearMarks.request? setting instruction.op = some (again, found) →
      (machine.stack.drop request.argc).length < request.argc →
        ∃ failed, resumed.step setting instruction = .fail ⟨.stackUnderflow, instruction.pos⟩ failed

theorem asksAgain {objects : Objects} {first : Nat} {instruction : Instruction}
    {kept restored : Execution} {world : World H} (hn : machine.next? = some instruction)
    (hrequest : machine.clearMarks.request? setting instruction.op = some (request, found))
    (hplace : kept.SamePlace machine.execution)
    (hstack : kept.frame.stack = machine.stack.drop request.argc)
    (hobject : ∀ object ∈ instruction.op.object?,
      kept.lookup? object = machine.execution.lookup? object)
    (hrestored : kept.RestoredAs objects first restored)
    (hfunctions : again.functions = setting.functions) (hmethods : again.methods = setting.methods)
    (hwithin : restored.Within again.limits) :
    AsksAgain objects first again machine instruction request ⟨restored, .started, world⟩ := by
  have hplace := hrestored.alike.samePlace.trans hplace
  have hlookup : ∀ object ∈ instruction.op.object?, Option.Rel (Value.RestoredAs objects first)
      (machine.execution.lookup? object) (restored.lookup? object) :=
    fun object hmem => hobject object hmem ▸ hrestored.lookup? object
  have hoperands := hstack ▸ hrestored.frame.stack
  refine ⟨?_, fun htype => ?_, fun h' => ?_, fun h' => ?_, fun h' henough => ?_,
    fun h' hmissing => ?_⟩
  · show restored.program.code[restored.pc]? = some instruction
    rw [hplace.program, hplace.pc]
    exact instruction?_of_next? hn
  · refine @exists_request? H setting again machine.clearMarks _ found request _ hplace.program
      hfunctions hmethods hrequest ?_
    exact htype.elim (fun hrecord => receiverType?_eq hrequest hrecord hlookup) id
  · obtain ⟨hname, hargc⟩ := request?_same hrequest h'
    exact ⟨hname, hargc, request?_function hfunctions hrequest h',
      request?_receiver hrequest h' hlookup⟩
  · rw [stack_of_request? h', (request?_same hrequest h').2]
    exact List.forall₂_take request.argc hoperands
  · rw [execute_of_request? h', if_neg]
    rw [stack_of_request? h', (request?_same hrequest h').2]
    exact Nat.not_lt.2 (hoperands.length_eq ▸ henough)
  · refine ⟨_, step_of_missing hwithin h' ?_⟩
    rw [(request?_same hrequest h').2]
    exact hoperands.length_eq ▸ hmissing

end Machine

/-- No run of the execution lacks an operand, unless a provider says so itself. -/
def Execution.Supplied (execution : Execution) : Prop :=
  ∀ (H : Type) (fuel : Nat) (runner next : Runner H) (world world' : World H)
    (execution? : Option Execution) (error : RunError), runner.setting.Honest →
    runner.Resumes execution? execution →
    runner.resume fuel world execution? = some (some error, next, world') →
      error.fault ≠ .stackUnderflow

theorem Execution.Resting.supplied {program : Program} {shape : Nat → Shape}
    {table : Table Procedure} {execution : Execution} (h : execution.Resting program shape table)
    (hc : Compiled program shape table) : execution.Supplied := by
  intro H fuel runner next world world' execution? error honest hresumes hrun hfault
  obtain ⟨machine, instruction, failed, hr, hn, hs, -⟩ := hresumes.exists_fail hrun
  have hstep : (machine.step runner.setting instruction).Meets _ _ :=
    Machine.meets_step hc (hr.kept_of_next? hc h hn) hn
  rw [hs] at hstep
  obtain ⟨expected, actual, hcount, -⟩ := hstep honest (by rw [hfault]; rfl)
  rw [hfault] at hcount
  cases hcount

open Machine in
/-- A provider that is asked in a run of a compiled program can keep the execution that it is shown,
and what it has kept can be restored. It is shown the execution without the arguments of the call, at
the instruction that makes the call: the execution that is restored makes the same request, but with
the operands that lay under the arguments, and fails when those are too few. A call without arguments
is made again as it was, and no operand is missing later on. -/
theorem host_snapshot_lacks_arguments {tree : Node} {before : List Node} {program : Program}
    (hcompile : tree.compile before = .ok program ∨ tree.compileExpression before = .ok program)
    {execution : Execution} (hretried : Retried (.start program) execution) {H : Type}
    {setting : Setting H} {world : World H} {machine found : Machine H} {instruction : Instruction}
    {request : Request H} (hr : Reaches setting ⟨execution, .started, world⟩ machine)
    (hn : machine.next? = some instruction)
    (hrequest : machine.clearMarks.request? setting instruction.op = some (request, found))
    {context : CallContext} (hcontext : context = (found.asking request).context setting)
    (writes : List HostWrite) {objects : Objects} {kept : Execution}
    (hkept : kept = writes.foldl HostWrite.run context.execution) (hkeep : kept.Keepable objects) :
    ∃ envelope, Snapshot.writeExecution objects kept = .ok envelope ∧
      kept.snapshot objects = .ok envelope.json.text ∧
      (envelope.json.levels ≤ Json.maxLevels → ∀ (sources : Sources) (store : Objects),
        sources.deferred = true ∨ kept.ObjectFree → ∃ restored after,
          (Execution.ofSnapshot sources envelope.json.text).Gives store restored after ∧
          kept.RestoredAs objects store.cells.size restored ∧
          ((∀ object ∈ instruction.op.object?,
              kept.lookup? object = context.execution.lookup? object) →
            ∀ (again : Setting H) (world : World H), again.functions = setting.functions →
              again.methods = setting.methods → restored.Within again.limits →
                AsksAgain objects store.cells.size again machine instruction request
                  ⟨restored, .started, world⟩) ∧
          (request.argc = 0 → ∀ later, Retried restored later → later.Supplied)) := by
  obtain ⟨shape, table, hc, hstart⟩ := Program.exists_compiled hcompile
  have hrest := hretried.resting hc (.inl (Execution.settled_start hstart))
  have hk := hr.kept_of_next? hc hrest hn
  have hshown : context.execution = machine.execution.unmarked.dropOperands request.argc :=
    hcontext ▸ congrArg (Execution.dropOperands request.argc) (sameRun_request? hrequest).execution
  rw [hshown] at hkept ⊢
  have hplace : kept.SamePlace machine.execution := hkept ▸ Execution.samePlace_asked _ _ _
  have hstack : kept.frame.stack = machine.stack.drop request.argc :=
    hkept ▸ Execution.stack_asked _ _ _
  have htidy : kept.program.Tidy := by
    rw [hplace.program, hk.resting.runs]
    exact hcompile.elim Program.tidy_of_compile Program.tidy_of_compileExpression
  obtain ⟨envelope, hwrite, hreadable, hrestore⟩ := Snapshot.exists_writeExecution htidy hkeep
  refine ⟨envelope, hwrite, Execution.snapshot_eq_ok hwrite, ?_⟩
  intro hlevels sources store hsources
  obtain ⟨restored, after, hgives, -, hrestored⟩ := Execution.exists_ofSnapshot hreadable hlevels
    store fun source => hrestore sources source store.cells.size hsources
  refine ⟨restored, after, hgives, hrestored, ?_, ?_⟩
  · intro hobject again world hfunctions hmethods hwithin
    refine asksAgain hn hrequest hplace hstack (fun object hmem => ?_) hrestored hfunctions hmethods
      hwithin
    rw [hobject object hmem, Execution.lookup?_dropOperands]
    rfl
  · intro hargc later hlater
    rw [hargc, Execution.dropOperands_zero] at hkept
    have hwritten : kept.Alike machine.execution.unmarked := hkept ▸ Execution.alike_writes _ writes
    have hresting := (hk.clearMarks.resting.of_alike hwritten).of_alike hrestored.alike
    exact (hlater.resting hc hresting).supplied hc

namespace Execution

def secondStep (program : Program) (stack : List Value) : Execution :=
  { start program with globals := ⟨[], stack, .null, none⟩, pc := 1, steps := 1 }

variable {program : Program} {stack : List Value}

theorem isScalar_secondStep (h : ∀ value ∈ stack, value.IsScalar) {frame : Frame}
    (hframe : frame ∈ (secondStep program stack).frames) :
    ∀ value ∈ frame.values, value.IsScalar := by
  obtain rfl : frame = ⟨[], stack, .null, none⟩ := List.mem_singleton.1 hframe
  intro value hvalue
  obtain hvalue | hvalue := List.mem_append.1 hvalue
  · exact h value hvalue
  · rw [List.mem_singleton.1 hvalue]
    trivial

theorem keepable_secondStep (objects : Objects) (hsize : program.size < 2 ^ 63)
    (hpos : 0 < program.size) (h : ∀ value ∈ stack, value.IsScalar) :
    (secondStep program stack).Keepable objects where
  size_lt := hsize
  pc_le := hpos
  steps_lt := show 1 < 2 ^ 64 by decide
  frames frame hframe := by
    have hscalar := isScalar_secondStep h hframe
    obtain rfl : frame = ⟨[], stack, .null, none⟩ := List.mem_singleton.1 hframe
    exact ⟨List.nodup_nil, nofun, fun value hvalue => ⟨(hscalar value hvalue).keepable,
      (hscalar value hvalue).shallow⟩, nofun⟩

theorem objectFree_secondStep (h : ∀ value ∈ stack, value.IsScalar) :
    (secondStep program stack).ObjectFree :=
  fun _ hframe value hvalue => (isScalar_secondStep h hframe value hvalue).objectFree

end Execution

def addAnswer : Node :=
  .root [.assign "x" (.binary .add (.int 1 none) (.call "ask" [] none) none) none] none

def addAnswerProgram : Program := (addAnswer.compile []).toOption.getD .empty

open Machine in
theorem host_snapshot_lacks_arguments_addAnswer : addAnswer.compile [] = .ok addAnswerProgram ∧
      Retried (.start addAnswerProgram) (.start addAnswerProgram) ∧
      (Execution.secondStep addAnswerProgram [.int 1]).Keepable .empty ∧
      ∃ (machine found : Machine Unit) (request : Request Unit) (text : String)
        (restored : Execution) (after : Objects),
        Reaches echoing ⟨.start addAnswerProgram, .started, ⟨.empty, ()⟩⟩ machine ∧
        machine.next? = some ⟨.call "ask" 0 1, none⟩ ∧
        machine.clearMarks.request? echoing (.call "ask" 0 1) = some (request, found) ∧
        ((found.asking request).context echoing).execution =
          .secondStep addAnswerProgram [.int 1] ∧
        (Execution.secondStep addAnswerProgram [.int 1]).snapshot .empty = .ok text ∧
        (Execution.ofSnapshot ⟨[], [], true⟩ text).Gives .empty restored after ∧
        AsksAgain .empty 0 echoing machine ⟨.call "ask" 0 1, none⟩ request
          ⟨restored, .started, ⟨after, ()⟩⟩ ∧
        restored.Supplied := by
  have hkeep := @Execution.keepable_secondStep addAnswerProgram [.int 1] .empty (by decide)
    (by decide) (List.forall_mem_singleton.2 trivial)
  have hcompile : addAnswer.compile [] = .ok addAnswerProgram := rfl
  have hr : Reaches echoing ⟨.start addAnswerProgram, .started, ⟨.empty, ()⟩⟩
      ⟨.secondStep addAnswerProgram [.int 1], .started, ⟨.empty, ()⟩⟩ := .step rfl rfl .refl
  obtain ⟨envelope, hwrite, hsnapshot, hrestore⟩ :=
    @host_snapshot_lacks_arguments _ _ _ (.inl hcompile) _ .origin _ _ _ _ _
      ⟨.call "ask" 0 1, none⟩ _ hr rfl rfl _ rfl [] .empty _ rfl hkeep
  have hlevels : envelope.json.levels ≤ Json.maxLevels := by
    cases hwrite
    decide
  obtain ⟨restored, after, hgives, -, hagain, hlater⟩ :=
    hrestore hlevels ⟨[], [], true⟩ .empty (.inl rfl)
  have hasks := hagain nofun echoing ⟨after, ()⟩ rfl rfl nofun
  exact ⟨hcompile, .origin, hkeep, _, _, _, _, restored, after, hr, rfl, rfl, rfl, hsnapshot, hgives,
    hasks, hlater rfl restored .origin⟩

/-- The host is asked with an argument and keeps the execution that it is shown. Taken up again, the
execution lacks the argument. -/
theorem kept_call_lacks_argument :
    ∃ (machine found : Machine Unit) (request : Request Unit) (text : String) (after : Objects)
      (last : Runner Unit), askWithArgument.compile [] = .ok askWithArgumentProgram ∧
      Machine.Reaches echoing ⟨.start askWithArgumentProgram, .started, ⟨.empty, ()⟩⟩ machine ∧
      machine.next? = some ⟨.call "ask" 1 0, none⟩ ∧
      machine.clearMarks.request? echoing (.call "ask" 1 0) = some (request, found) ∧
      found.stack.take request.argc = [.int 7] ∧
      ((found.asking request).context echoing).execution.snapshot .empty = .ok text ∧
      (Execution.ofSnapshot ⟨[], [], false⟩ text).Gives .empty
        ((found.asking request).context echoing).execution after ∧
      Runner.resume 1 ⟨.empty, false, [echo], [], [], .idle, .unlimited⟩ ⟨after, ()⟩
          (some ((found.asking request).context echoing).execution) =
        some (some ⟨.stackUnderflow, none⟩, last, ⟨after, ()⟩) := by
  have hcompile : askWithArgument.compile [] = .ok askWithArgumentProgram := rfl
  have hkeep := @Execution.keepable_secondStep askWithArgumentProgram [] .empty (by decide)
    (by decide) nofun
  obtain ⟨envelope, hwrite, hrestore⟩ := Execution.exists_ofSnapshot_self
    (Program.tidy_of_compile hcompile) hkeep (Execution.objectFree_secondStep nofun)
  have hlevels : envelope.json.levels ≤ Json.maxLevels := by
    cases hwrite
    decide
  obtain ⟨after, hgives⟩ := hrestore hlevels ⟨[], [], false⟩ .empty
  exact ⟨⟨.secondStep askWithArgumentProgram [.int 7], .started, ⟨.empty, ()⟩⟩, _, _, _, after, _,
    hcompile, .step rfl rfl .refl, rfl, rfl, rfl, Execution.snapshot_eq_ok hwrite, hgives, rfl⟩

end DurableScript
