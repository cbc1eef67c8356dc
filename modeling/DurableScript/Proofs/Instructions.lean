import DurableScript.Proofs.Simulation

namespace DurableScript

open Node Machine

namespace Eval

theorem ofExcept_apply {α : Type} (pos : Option SourcePos) (result : Except RunFault α)
    (store : Store) : ofExcept pos result store = match result with
      | .ok a => some (.ok a, store)
      | .error fault => some (.error ((RunError.ofFault fault).locate pos), store) := by
  cases result <;> rfl

theorem resolve_apply (pos : Option SourcePos) (ref : ObjectRef Value) (store : Store) :
    resolve pos ref store = match store.objects.resolve ref with
      | .ok (object, objects) => some (.ok object, { store with objects })
      | .error id => some (.error ((RunError.ofFault (.referenceNotFound id)).locate pos), store) := by
  unfold resolve
  rw [bind_apply]
  change (match store.objects.resolve ref with
    | .ok (object, objects) => (do set { store with objects }; return object)
    | .error id => fail pos (.referenceNotFound id) : Eval (HostObject Value)) store = _
  cases store.objects.resolve ref <;> rfl

theorem touch_object_apply (pos : Option SourcePos) (ref : ObjectRef Value) (store : Store) :
    touch pos (.object ref) store = match store.objects.resolve ref with
      | .ok (_, objects) => some (.ok (.object ref), { store with objects })
      | .error id => some (.error ((RunError.ofFault (.referenceNotFound id)).locate pos), store) := by
  rw [touch, bind_apply, resolve_apply]
  cases store.objects.resolve ref <;> rfl

theorem read_eq (pos : Option SourcePos) (name : String) (store : Store) :
    read pos name store = match store.vars.lookup? name with
      | none => fail pos (.variableNotFound name) store
      | some value => touch pos value store := by
  unfold read
  rw [bind_apply]
  change (match store.vars.lookup? name with
    | none => fail pos (.variableNotFound name)
    | some value => touch pos value : Eval Value) store = _
  cases store.vars.lookup? name <;> rfl

theorem receiver_eq (pos : Option SourcePos) (name : String) (store : Store) :
    receiver pos name store = (match store.vars.lookup? name with
      | some (.record fields) => return (.record fields, "record")
      | some (.object ref) => do
        let object ← resolve pos ref
        return (.object ref, object.typeName)
      | _ => fail pos (.objectNotFound name) : Eval (Value × String)) store := rfl

theorem signalComparison_of_query {signals : List String} {op : Operator} {right : Node}
    {function : Builtin} {name : String} (h : signalQuery? op right = some (function, name))
    (pos : Option SourcePos) :
    signalComparison signals op right = ofExcept pos (function.run [.str name] signals) := by
  unfold signalQuery? at h
  split at h <;> cases h <;> rfl

end Eval

namespace Machine

variable {H : Type} (machine : Machine H) {ref : ObjectRef Value}

variable {machine} in

theorem popThen_of_stack {value : Value} {rest : List Value} (h : machine.stack = value :: rest)
    (next : Value → Machine H → Outcome H) :
    machine.popThen next = next value (machine.setStack rest) := by
  rw [popThen, h]

variable {machine} in

theorem popArgsThen_of_stack {args rest : List Value} (h : machine.stack = args ++ rest)
    (next : List Value → Machine H → Outcome H) :
    machine.popArgsThen args.length next = next args (machine.setStack rest) := by
  rw [popArgsThen, h, if_neg (by simp), List.take_left, List.drop_left]

theorem push_setStack (rest : List Value) (value : Value) :
    (machine.setStack rest).push value = machine.setStack (value :: rest) := by
  rw [push_eq_setStack, stack_setStack, setStack_setStack]

def assigned (rest : List Value) (name : String) (value : Value) : Machine H :=
  { machine.setStack rest with execution := (machine.setStack rest).execution.assign name value }

theorem execute_setVariable {value : Value} {rest : List Value} (h : machine.stack = value :: rest)
    (setting : Setting H) (name : String) : execute setting machine (.setVariable name) =
      .ok (machine.assigned rest name value).advance := by
  rw [execute, popThen_of_stack h]
  rfl

theorem resolve_of_ok {object : HostObject Value} {objects : Objects}
    (h : machine.world.objects.resolve ref = .ok (object, objects)) :
    machine.resolve ref =
      .ok (object, { machine with world := { machine.world with objects } }) := by
  rw [resolve, h]

theorem resolve_of_error {id : String} (h : machine.world.objects.resolve ref = .error id) :
    machine.resolve ref = .error (.referenceNotFound id) := by
  rw [resolve, h]

end Machine

section Instructions

variable {scene : Scene} {program : Program} {shape : Nat → Shape} {index : Nat} {store : Store}
  {machine next : Machine (List HostCall)} {pos : Option SourcePos} {name : String} {value : Value}
  {rest : List Value} {target : Nat}

section

variable (h : Standing program shape index store machine)
include h

theorem Standing.setObjects (objects : Objects) :
    Standing program shape index { store with objects }
      { machine with world := { machine.world with objects } } :=
  ⟨h.runs, h.pc, h.status, h.vars, rfl, h.calls, h.top⟩

theorem advance_setStack (stack : List Value) :
    (machine.setStack stack).advance = (machine.setStack stack).goTo (index + 1) := by
  rw [advance, setStack_pc, h.pc]

theorem Standing.realizes_touch (hi : program.code[index]? = some ⟨.pushVariable name, pos⟩)
    (hl : machine.execution.lookup? name = some value) :
    Realizes scene.setting (Eval.touch pos value) store machine fun value =>
      Lands program shape Nowhere machine (value :: machine.stack) (index + 1) := by
  have hl : machine.clearMarks.execution.lookup? name = some value := hl
  have hpush (found : Machine (List HostCall)) (after : Store)
      (hf : Standing program shape index after found)
      (hframes : found.execution = machine.clearMarks.execution)
      (hread : machine.clearMarks.readVariable name = .ok (value, found)) :
      ∃ last, Reaches scene.setting machine last ∧
        Lands program shape Nowhere machine (value :: machine.stack) (index + 1) after last := by
    refine h.move hi hf hframes ?_
    have hstack : found.stack = machine.stack :=
      congrArg (fun execution => execution.frame.stack) hframes
    rw [execute, hread]
    dsimp only
    rw [push_eq_setStack, hstack, advance_setStack hf]
  intro result after he
  cases value with
  | object ref =>
    rw [Eval.touch_object_apply, ← h.objects] at he
    split at he
    · next object objects hr =>
      cases he
      refine hpush _ _ (h.clearMarks.setObjects objects) rfl ?_
      rw [readVariable, hl]
      dsimp only
      rw [resolve_of_ok machine.clearMarks hr]
      rfl
    · next id hr =>
      cases he
      refine h.fails hi ?_ h.clearMarks.calls
      rw [execute, readVariable, hl]
      dsimp only
      rw [resolve_of_error machine.clearMarks hr]
      rfl
  | null | bool | int | float | str | list | record =>
    cases he
    refine hpush _ _ h.clearMarks rfl ?_
    rw [readVariable, hl]

theorem Standing.realizes_read (hi : program.code[index]? = some ⟨.pushVariable name, pos⟩)
    (hv : isHidden name = false) :
    Realizes scene.setting (Eval.read pos name) store machine fun value =>
      Lands program shape Nowhere machine (value :: machine.stack) (index + 1) := by
  have hl : machine.execution.lookup? name = store.vars.lookup? name := by
    rw [← Execution.lookup?_ofExecution hv, h.vars]
  intro result after he
  rw [Eval.read_eq, ← hl] at he
  cases hfound : machine.execution.lookup? name with
  | none =>
    rw [hfound] at he
    cases he
    refine h.fails hi ?_ h.clearMarks.calls
    rw [execute, readVariable, show machine.clearMarks.execution.lookup? name = none from hfound]
    rfl
  | some value =>
    rw [hfound] at he
    exact h.realizes_touch hi hfound result after he

theorem Standing.pushValue {literal : Literal}
    (hi : program.code[index]? = some ⟨.pushValue literal, pos⟩) :
    ∃ last, Reaches scene.setting machine last ∧ Lands program shape Nowhere machine
      (literal.value :: machine.stack) (index + 1) store last := by
  refine h.moveHere hi ?_
  rw [execute, push_eq_setStack, advance_setStack h.clearMarks]
  rfl

def pushOutcome (machine : Machine (List HostCall)) :
    Except RunFault Value → Outcome (List HostCall)
  | .ok value => .ok (machine.push value).advance
  | .error fault => machine.failWith fault

theorem Standing.realizes_compute {op : Op} (hi : program.code[index]? = some ⟨op, pos⟩)
    {found : Machine (List HostCall)} {after : Store}
    (hf : Standing program shape index after found)
    (hframes : found.execution = machine.clearMarks.execution) (result : Except RunFault Value)
    (hx : execute scene.setting machine.clearMarks op = pushOutcome (found.setStack rest) result) :
    Realizes scene.setting (Eval.ofExcept pos result) after machine fun value =>
      Lands program shape Nowhere machine (value :: rest) (index + 1) := by
  intro outcome last he
  rw [Eval.ofExcept_apply] at he
  cases result with
  | ok value =>
    cases he
    refine h.move hi hf hframes ?_
    rw [hx, pushOutcome, push_setStack, advance_setStack hf]
  | error fault =>
    cases he
    exact h.fails hi hx hf.calls

theorem Standing.realizes_operate {op : Operator}
    (hi : program.code[index]? = some ⟨.operate op, pos⟩) {left right : Value}
    (hstack : machine.stack = right :: left :: rest) :
    Realizes scene.setting (Eval.operate pos op left right) store machine fun value =>
      Lands program shape Nowhere machine (value :: rest) (index + 1) := by
  have hstack : machine.clearMarks.stack = right :: left :: rest := hstack
  refine h.realizes_compute hi h.clearMarks rfl (Value.apply store.objects op left right) ?_
  rw [execute, popThen_of_stack hstack, popThen_of_stack (stack_setStack _ _), setStack_setStack,
    setStack_world, h.clearMarks.objects]
  cases Value.apply store.objects op left right <;> rfl

theorem Standing.realizes_callBuiltin {function : Builtin} (args : List Value)
    (hi : program.code[index]? = some ⟨.callBuiltin function args.length, pos⟩)
    (hstack : machine.stack = args ++ rest) :
    Realizes scene.setting (Eval.ofExcept pos (function.run args scene.signals)) store machine
      fun value => Lands program shape Nowhere machine (value :: rest) (index + 1) := by
  have hstack : machine.clearMarks.stack = args ++ rest := hstack
  refine h.realizes_compute hi h.clearMarks rfl _ ?_
  rw [execute, popArgsThen_of_stack hstack]
  cases hrun : function.run args scene.signals <;> simp only [Scene.setting, hrun, pushOutcome]

theorem Standing.realizes_property (hi : program.code[index]? = some ⟨.pushProperty name, pos⟩)
    {object : Value}
    (hstack : machine.stack = object :: rest) :
    Realizes scene.setting (Eval.property pos object name) store machine fun value =>
      Lands program shape Nowhere machine (value :: rest) (index + 1) := by
  have hstack : machine.clearMarks.stack = object :: rest := hstack
  have hx (result : Except RunFault Value) (found : Machine (List HostCall))
      (hp : (machine.clearMarks.setStack rest).property name object = (result, found)) :
      execute scene.setting machine.clearMarks (.pushProperty name) = pushOutcome found result := by
    rw [execute, popThen_of_stack hstack, hp]
    cases result <;> rfl
  cases object with
  | record fields => exact h.realizes_compute hi h.clearMarks rfl (propertyIn fields name) (hx _ _ rfl)
  | object ref =>
    intro result after he
    rw [Eval.property, Eval.bind_apply, Eval.resolve_apply, ← h.objects] at he
    cases hr : machine.world.objects.resolve ref with
    | ok found =>
      obtain ⟨object, objects⟩ := found
      rw [hr] at he
      refine h.realizes_compute hi (h.clearMarks.setObjects objects) rfl _ (hx _ _ ?_) result after he
      rw [property, resolve_of_ok (machine.clearMarks.setStack rest) hr]
      rfl
    | error id =>
      rw [hr] at he
      cases he
      have hp : (machine.clearMarks.setStack rest).property name (.object ref) =
          (.error (.referenceNotFound id), machine.clearMarks.setStack rest) := by
        rw [property, resolve_of_error (machine.clearMarks.setStack rest) hr]
      exact h.fails hi (hx _ _ hp) h.calls
  | null | bool | int | float | str | list =>
    exact h.realizes_compute hi h.clearMarks rfl (.error _) (hx _ _ rfl)

theorem Standing.invert (hi : program.code[index]? = some ⟨.invert, pos⟩)
    (hstack : machine.stack = value :: rest) :
    ∃ last, Reaches scene.setting machine last ∧ Lands program shape Nowhere machine
      (.bool (!value.truthy) :: rest) (index + 1) store last := by
  have hstack : machine.clearMarks.stack = value :: rest := hstack
  refine h.moveHere hi ?_
  rw [execute, popThen_of_stack hstack, push_setStack, advance_setStack h.clearMarks]

theorem Standing.pushResult (hi : program.code[index]? = some ⟨.pushResult, pos⟩) :
    ∃ last, Reaches scene.setting machine last ∧ Lands program shape Nowhere machine
      (machine.execution.frame.result :: machine.stack) (index + 1) store last := by
  refine h.moveHere hi ?_
  rw [execute, push_eq_setStack, advance_setStack h.clearMarks]
  rfl

end

theorem setStack_stack (machine : Machine (List HostCall)) :
    machine.setStack machine.stack = machine := by
  obtain ⟨⟨_, _, calls, _, _, _⟩, _, _⟩ := machine
  cases calls <;> rfl

section

variable (h : Standing program shape index store machine)
include h

theorem Standing.pass {op : Op} (hi : program.code[index]? = some ⟨op, pos⟩)
    (hx : execute scene.setting machine.clearMarks op = .ok (machine.clearMarks.goTo target)) :
    ∃ last, Reaches scene.setting machine last ∧
      Lands program shape Nowhere machine machine.stack target store last := by
  refine h.moveHere hi ?_
  rw [hx, show machine.clearMarks.setStack machine.stack = machine.clearMarks from
    setStack_stack machine.clearMarks]

theorem advance_clearMarks : machine.clearMarks.advance = machine.clearMarks.goTo (index + 1) := by
  rw [advance, h.clearMarks.pc]

theorem Standing.nop (hi : program.code[index]? = some ⟨.nop, pos⟩) :
    ∃ last, Reaches scene.setting machine last ∧
      Lands program shape Nowhere machine machine.stack (index + 1) store last :=
  h.pass hi (by rw [execute, advance_clearMarks h])

theorem Standing.wait {all : Bool} {names : List String}
    (hi : program.code[index]? = some ⟨.wait all names, pos⟩)
    (hmet : WaitRequirement.isMet ⟨all, names⟩ scene.signals = true) :
    ∃ last, Reaches scene.setting machine last ∧
      Lands program shape Nowhere machine machine.stack (index + 1) store last := by
  refine h.pass hi ?_
  have hmet : WaitRequirement.isMet ⟨all, names⟩ scene.setting.signals = true := hmet
  simp only [execute, hmet, if_true, advance_clearMarks h]

theorem Standing.expectStack {count : Nat}
    (hi : program.code[index]? = some ⟨.expectStack count, pos⟩)
    (hcount : machine.stack.length = count) :
    ∃ last, Reaches scene.setting machine last ∧
      Lands program shape Nowhere machine machine.stack (index + 1) store last := by
  refine h.pass hi ?_
  have hcount : machine.clearMarks.stack.length = count := hcount
  simp only [execute, hcount, if_true, advance_clearMarks h]

end

theorem jump_eq_goTo (hruns : machine.execution.program = program) {target : Nat}
    (htarget : target ≤ program.size) : machine.jump target = .ok (machine.goTo target) := by
  simp only [Machine.jump, hruns, if_neg (Nat.not_lt.2 htarget)]

section

variable (h : Standing program shape index store machine)
include h

theorem Standing.jump (hi : program.code[index]? = some ⟨.jump target, pos⟩)
    (htarget : target ≤ program.size) :
    ∃ last, Reaches scene.setting machine last ∧
      Lands program shape Nowhere machine machine.stack target store last :=
  h.pass hi (by rw [execute, jump_eq_goTo h.clearMarks.runs htarget])

theorem Standing.jumpUnless (hi : program.code[index]? = some ⟨.jumpUnless target, pos⟩)
    (htarget : target ≤ program.size)
    {condition : Value} (hstack : machine.stack = condition :: rest) :
    ∃ last, Reaches scene.setting machine last ∧ Lands program shape Nowhere machine rest
      (if condition.truthy then index + 1 else target) store last := by
  have hstack : machine.clearMarks.stack = condition :: rest := hstack
  refine h.moveHere hi ?_
  rw [execute, popThen_of_stack hstack]
  split
  · rw [advance_setStack h.clearMarks]
  · exact jump_eq_goTo ((setStack_program _ _).trans h.clearMarks.runs) htarget

theorem Standing.assigned_runs (rest : List Value) (name : String) (value : Value) :
    (machine.assigned rest name value).advance.execution.program = program ∧
      (machine.assigned rest name value).advance.execution.pc = index + 1 ∧
      (machine.assigned rest name value).advance.status = .started ∧
      (machine.assigned rest name value).advance.stack = rest := by
  have hlike := Execution.alike_assign (machine.setStack rest).execution name value
  have hpc : (machine.assigned rest name value).execution.pc = index :=
    hlike.pc.trans ((setStack_pc _ _).trans h.pc)
  exact ⟨hlike.program.trans ((setStack_program _ _).trans h.runs), congrArg (· + 1) hpc, h.status,
    (Execution.stack_assign _ name value).trans (stack_setStack machine rest)⟩

theorem Standing.realizes_assign (hi : program.code[index]? = some ⟨.setVariable name, pos⟩)
    (hv : isHidden name = false)
    (hstack : machine.stack = value :: rest) :
    Realizes scene.setting (Eval.assign name value) store machine fun _ =>
      Lands program shape Nowhere machine rest (index + 1) := by
  intro result after he
  cases he
  have hkeeps := (keeps_popped machine rest Nowhere).trans
    (Execution.keeps_assign hv value (machine.clearMarks.setStack rest).execution)
  have hvars : Variables.ofExecution (machine.clearMarks.assigned rest name value).execution =
      store.vars.assign name value := by
    rw [assigned, Variables.ofExecution_assign hv, vars_setStack, h.clearMarks.vars]
  obtain ⟨last, hr, hl, -⟩ := h.act { store with vars := store.vars.assign name value } hi
    (execute_setVariable machine.clearMarks hstack scene.setting name) ⟨hkeeps.running, hkeeps.below⟩
    (h.clearMarks.assigned_runs rest name value) hvars h.objects h.calls
  exact ⟨last, hr, hl⟩

end

theorem Frame.keeps_setHidden (frame : Frame) (start : Nat) (role : String) (value : Value) :
    frame.Keeps (· = start) (frame.set (loopVariable start role) value) := by
  refine ⟨rfl, fun other role' hne => ?_⟩
  have hname : loopVariable start role ≠ loopVariable other role' := fun h =>
    hne (loopVariable_inj h).1.symm
  rw [Frame.get?, Frame.set, Table.find?_insert, if_neg hname]
  rfl

section

variable (h : Standing program shape index store machine)
include h

theorem Standing.setStack (stack : List Value) :
    Standing program shape index store (machine.setStack stack) where
  runs := (setStack_program machine stack).trans h.runs
  pc := (setStack_pc machine stack).trans h.pc
  status := h.status
  vars := (vars_setStack machine stack).trans h.vars
  objects := h.objects
  calls := h.calls
  top := fun start role hsome => by
    rw [(keeps_setStack machine stack Nowhere).globals_get? fun _ => id] at hsome
    exact h.top start role hsome

theorem Standing.assign_hidden {start : Nat}
    (hruns : RunsAt program machine.execution (shape start).place) (role : String) (value : Value) :
    machine.execution.assign (loopVariable start role) value =
      machine.execution.setLocal (loopVariable start role) value := by
  unfold Execution.assign
  split
  · next hc =>
    rw [h.top start role hc] at hruns
    obtain ⟨⟨_, _, calls, _, _, _⟩, _, _⟩ := machine
    cases show calls = [] from hruns
    rfl
  · rfl

theorem Standing.assignHidden {start : Nat} {role : String}
    (hi : program.code[index]? = some ⟨.setVariable (loopVariable start role), pos⟩)
    (hruns : RunsAt program machine.execution (shape start).place)
    (hstack : machine.stack = value :: rest) :
    ∃ last, Reaches scene.setting machine last ∧
      Lands program shape (· = start) machine rest (index + 1) store last ∧
      last.execution.frame.vars =
        Table.insert (loopVariable start role) value machine.execution.frame.vars := by
  let popped := machine.clearMarks.setStack rest
  have hpopped : Standing program shape index store popped := h.clearMarks.setStack rest
  have hkeeps : machine.execution.Keeps Nowhere popped.execution := keeps_popped machine rest Nowhere
  have hruns := hruns.of_keeps hkeeps
  have hlocal := hpopped.assign_hidden hruns role value
  have hset : popped.execution.Keeps (· = start)
      (popped.execution.assign (loopVariable start role) value) := by
    rw [hlocal]
    exact popped.execution.keeps_modifyFrame (Frame.keeps_setHidden _ start role value)
  obtain ⟨hprogram, hpc, hstatus, hleft⟩ :=
    h.clearMarks.assigned_runs rest (loopVariable start role) value
  refine ⟨_, h.reaches hi (execute_setVariable machine.clearMarks hstack scene.setting _)
    (congrArg Status.waitingFor hstatus),
    ⟨⟨hprogram, hpc, hstatus, ?_, h.objects, h.calls, ?_⟩, hleft,
      ((hkeeps.mono Nowhere.elim).trans hset).of_frames rfl rfl⟩, ?_⟩
  · change Variables.ofExecution (popped.execution.assign _ value) = store.vars
    rw [hlocal, ← hpopped.vars]
    exact Variables.ofExecution_modifyFrame _ fun frame =>
      Table.visible_insert_hidden (isHidden_loopVariable start role) value frame.vars
  · intro other role' hsome
    by_cases hother : popped.execution.calls = [] ∧ other = start
    · rw [hother.2]
      exact hruns.place_eq_top hother.1
    · refine hpopped.top other role' ?_
      rw [← hset.globals_get? fun hcalls heq => hother ⟨hcalls, heq⟩]
      exact hsome
  · change (popped.execution.assign _ value).frame.vars = _
    rw [hlocal, Execution.setLocal, Execution.frame_modifyFrame]
    change Table.insert _ value (popped.execution.frame.vars) = _
    rw [show popped.execution.frame = _ from Execution.frame_modifyFrame ..]
    rfl

end

end Instructions

end DurableScript
