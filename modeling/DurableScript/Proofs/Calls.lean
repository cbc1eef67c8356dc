import DurableScript.Proofs.Instructions
import DurableScript.Proofs.Lookups

namespace DurableScript

open Node Machine

def Answered (program : Program) (shape : Nat → Shape) (origin : Machine (List HostCall))
    (rest : List Value) (index : Nat) (value : Value) (store : Store)
    (machine : Machine (List HostCall)) : Prop :=
  Lands program shape Nowhere origin rest index store machine ∧
    machine.execution.frame.result = value

theorem Eval.ask_apply {pos : Option SourcePos} {call : HostCall}
    {answer : Variables → Objects → PlainReply × Objects} {store : Store}
    {writes : List HostWrite} {outcome : Except RunError Value} {objects : Objects}
    (h : answer store.vars store.objects = (⟨writes, outcome⟩, objects)) :
    ask pos call answer store = some (outcome.mapError (·.locate pos),
      ⟨writes.foldl Variables.write store.vars, objects, store.calls ++ [call]⟩) := by
  have hask : ask pos call answer store =
      ask pos call (fun _ _ => answer store.vars store.objects) store := rfl
  rw [hask, h]
  cases outcome <;> rfl

section Providers

variable {scene : Scene} {program : Program} {shape : Nat → Shape} {index : Nat} {store : Store}
  {machine : Machine (List HostCall)} {pos : Option SourcePos} {rest : List Value}

section Invoke

variable {H : Type} {setting : Setting H} {machine : Machine H} {name : String}
  {args rest : List Value} {reply : Reply} {world : World H}

theorem callFunction_eq {provider : FunctionProvider H}
    (hfind : setting.functions.find? (fun provider => provider.supports name) = some provider)
    (hstack : machine.stack = args ++ rest) (restart : Nat)
    (hinvoke : provider.invoke ((machine.setStack rest).context setting) name args
      (machine.setStack rest).world = (reply, world)) :
    callFunction setting machine name args.length restart =
      (machine.setStack rest).conclude restart reply world := by
  rw [callFunction, hfind]
  refine (popArgsThen_of_stack hstack _).trans ?_
  rw [hinvoke]

theorem callMethod_eq {provider : MethodProvider H} {object typeName : String} {value : Value}
    {looked : Machine H} (hreceiver : machine.receiver object = .ok (value, typeName, looked))
    (hfind : setting.methods.find? (fun provider => provider.supports typeName name) = some provider)
    (hstack : looked.stack = args ++ rest) (restart : Nat)
    (hinvoke : provider.invoke ((looked.setStack rest).context setting) value name args
      (looked.setStack rest).world = (reply, world)) :
    callMethod setting machine object name args.length restart =
      (looked.setStack rest).conclude restart reply world := by
  unfold callMethod
  simp only [hreceiver, hfind]
  refine (popArgsThen_of_stack hstack _).trans ?_
  exact congrArg (fun answer => (looked.setStack rest).conclude restart answer.1 answer.2) hinvoke

def opened (machine : Machine H) (args : List Value) : Machine H :=
  { machine with execution := { machine.execution with
      calls := ⟨[], args.reverse, .null, some (machine.execution.pc + 1)⟩ ::
        machine.execution.calls } }

theorem callProcedure_eq (hlimit : setting.limits.maxCallDepth = none)
    (hstack : machine.stack = args ++ rest) (entry : Nat) :
    callProcedure setting machine entry args.length =
      (opened (machine.setStack rest) args).jump entry := by
  unfold callProcedure
  rw [hlimit]
  exact popArgsThen_of_stack hstack _

end Invoke

theorem conclude_value {H : Type} (machine : Machine H) (restart : Nat) (writes : List HostWrite)
    (value : Value) (world : World H) :
    machine.conclude restart (PlainReply.reply ⟨writes, .ok value⟩) world = .ok
      (setResult ⟨writes.foldl HostWrite.run machine.execution, machine.status, world⟩
        value).advance := rfl

theorem Standing.realizes_ask (h : Standing program shape index store machine) {op : Op}
    (hi : program.code[index]? = some ⟨op, pos⟩) {found : Machine (List HostCall)} {after : Store}
    (hf : Standing program shape index after found)
    (hframes : found.execution = machine.clearMarks.execution) {call : HostCall}
    {answer : Variables → Objects → PlainReply × Objects} (restart : Nat)
    (hdiscreet : ∀ write ∈ (answer after.vars after.objects).1.writes, isHidden write.name = false)
    (hx : execute scene.setting machine.clearMarks op =
      (found.setStack rest).conclude restart (answer after.vars after.objects).1.reply
        ⟨(answer after.vars after.objects).2, after.calls ++ [call]⟩) :
    Realizes scene.setting (Eval.ask pos call answer) after machine
      (Answered program shape machine rest (index + 1)) := by
  intro result last he
  rcases hanswer : answer after.vars after.objects with ⟨⟨writes, outcome⟩, objects⟩
  rw [hanswer] at hdiscreet hx
  rw [Eval.ask_apply hanswer] at he
  cases outcome with
  | error error =>
    cases he
    exact h.fails hi hx rfl
  | ok value =>
    cases he
    rw [conclude_value] at hx
    let written := writes.foldl HostWrite.run (found.setStack rest).execution
    let answered := written.modifyFrame fun frame => { frame with result := value }
    have hlike : written.Alike (found.setStack rest).execution := Execution.alike_writes _ writes
    have hkeeps : found.execution.Keeps Nowhere answered :=
      ((keeps_setStack found rest Nowhere).trans (Execution.keeps_writes hdiscreet _)).trans
        (Execution.keeps_modifyFrame _ ⟨rfl, fun _ _ _ => rfl⟩)
    rw [hframes] at hkeeps
    have hruns : answered.program = program := by
      rw [Execution.program_modifyFrame, hlike.program, setStack_program, hf.runs]
    have hpc : answered.pc = index := by
      rw [Execution.pc_modifyFrame, hlike.pc, setStack_pc, hf.pc]
    have hstack : answered.frame.stack = rest := by
      rw [Execution.frame_modifyFrame]
      exact (Execution.stack_writes _ writes).trans (stack_setStack found rest)
    have hvars : Variables.ofExecution answered = writes.foldl Variables.write after.vars := by
      rw [← hf.vars, ← vars_setStack found rest, ← Variables.ofExecution_writes hdiscreet]
      exact Variables.ofExecution_modifyFrame written fun _ => rfl
    obtain ⟨next, hr, hl, hframe⟩ := h.act
      ⟨writes.foldl Variables.write after.vars, objects, after.calls ++ [call]⟩ hi hx
      ⟨hkeeps.running, hkeeps.below⟩ ⟨hruns, congrArg (· + 1) hpc, hf.status, hstack⟩
      hvars rfl rfl
    refine ⟨next, hr, hl, ?_⟩
    rw [hframe]
    exact congrArg Frame.result (Execution.frame_modifyFrame written _)

theorem find?_functions (scene : Scene) (name : String) :
    scene.setting.functions.find? (fun provider => provider.supports name) =
      (scene.functions.find? fun functions => functions.supports name).map
        PlainFunctions.provider := List.find?_map ..

theorem find?_methods (scene : Scene) (typeName name : String) :
    scene.setting.methods.find? (fun provider => provider.supports typeName name) =
      (scene.methods.find? fun methods => methods.supports typeName name).map
        PlainMethods.provider := List.find?_map ..

section

variable (h : Standing program shape index store machine)
include h

theorem Standing.invoke_function (functions : PlainFunctions) (name : String) (args : List Value) :
    functions.provider.invoke (machine.context scene.setting) name args machine.world =
      ((functions.answer name args store.vars store.objects).1.reply,
        ⟨(functions.answer name args store.vars store.objects).2,
          store.calls ++ [⟨none, name, args⟩]⟩) := by
  rw [← h.vars, ← h.objects, ← h.calls]
  rfl

theorem Standing.invoke_method (methods : PlainMethods) (object : Value) (name : String)
    (args : List Value) :
    methods.provider.invoke (machine.context scene.setting) object name args machine.world =
      ((methods.answer object name args store.vars store.objects).1.reply,
        ⟨(methods.answer object name args store.vars store.objects).2,
          store.calls ++ [⟨some object, name, args⟩]⟩) := by
  rw [← h.vars, ← h.objects, ← h.calls]
  rfl

theorem Standing.realizes_callFunction {name : String} {args : List Value} {restart : Nat}
    (hi : program.code[index]? = some ⟨.call name args.length restart, pos⟩)
    (hentry : program.entry? name = none) (hstack : machine.stack = args ++ rest) :
    Realizes scene.setting (Eval.callFunction scene pos name args) store machine
      (Answered program shape machine rest (index + 1)) := by
  have hstack : machine.clearMarks.stack = args ++ rest := hstack
  have hx : execute scene.setting machine.clearMarks (.call name args.length restart) =
      Machine.callFunction scene.setting machine.clearMarks name args.length restart := by
    rw [execute, h.clearMarks.runs, hentry]
  have hfind := find?_functions scene name
  unfold Eval.callFunction
  cases hf : scene.functions.find? fun functions => functions.supports name with
  | none =>
    rw [hf] at hfind
    rw [Machine.callFunction, hfind] at hx
    intro result after he
    cases he
    exact h.fails hi hx h.calls
  | some functions =>
    rw [hf] at hfind
    refine h.realizes_ask hi h.clearMarks rfl restart (functions.discreet name args _ _) ?_
    exact hx.trans (callFunction_eq hfind hstack restart
      ((h.clearMarks.setStack rest).invoke_function functions name args))

theorem Standing.realizes_receiver {op : Op} {object : String}
    (hi : program.code[index]? = some ⟨op, pos⟩)
    (hv : isHidden object = false)
    (hx : ∀ fault, machine.clearMarks.receiver object = .error fault →
      execute scene.setting machine.clearMarks op = machine.clearMarks.failWith fault) :
    Realizes scene.setting (Eval.receiver pos object) store machine fun found after last =>
      last = machine ∧ ∃ looked, Standing program shape index after looked ∧
        looked.execution = machine.clearMarks.execution ∧
        machine.clearMarks.receiver object = .ok (found.1, found.2, looked) := by
  have hl : machine.clearMarks.execution.lookup? object = store.vars.lookup? object := by
    rw [← Execution.lookup?_ofExecution hv, h.clearMarks.vars]
  intro result after he
  rw [Eval.receiver_eq, ← hl] at he
  unfold Machine.receiver Machine.readVariable at hx ⊢
  cases hfound : machine.clearMarks.execution.lookup? object with
  | none =>
    rw [hfound] at he hx
    cases he
    exact h.fails hi (hx _ rfl) h.calls
  | some value =>
    rw [hfound] at he hx
    cases value with
    | record fields =>
      cases he
      exact ⟨machine, .refl, rfl, _, h.clearMarks, rfl, rfl⟩
    | object ref =>
      cases hr : machine.world.objects.resolve ref with
      | ok found =>
        obtain ⟨host, objects⟩ := found
        simp only [Eval.bind_apply, Eval.resolve_apply, ← h.objects, hr] at he
        cases he
        refine ⟨machine, .refl, rfl, _, h.clearMarks.setObjects objects, rfl, ?_⟩
        simp only [resolve_of_ok machine.clearMarks hr, Except.map]
        rw [resolve_of_ok _ (Objects.resolve_resolve hr)]
      | error id =>
        simp only [Eval.bind_apply, Eval.resolve_apply, ← h.objects, hr] at he
        cases he
        refine h.fails hi (hx _ ?_) h.calls
        simp only [resolve_of_error machine.clearMarks hr, Except.map]
    | null | bool | int | float | str | list =>
      cases he
      exact h.fails hi (hx _ rfl) h.calls

theorem Standing.realizes_callMethod {object name : String} {args : List Value} {restart : Nat}
    (hi : program.code[index]? = some ⟨.callMethod object name args.length restart, pos⟩)
    (hv : isHidden object = false) (hstack : machine.stack = args ++ rest) :
    Realizes scene.setting (Eval.callMethod scene pos object name args) store machine
      (Answered program shape machine rest (index + 1)) := by
  have hfault (fault : RunFault) (hr : machine.clearMarks.receiver object = .error fault) :
      execute scene.setting machine.clearMarks (.callMethod object name args.length restart) =
        machine.clearMarks.failWith fault := by
    rw [execute, Machine.callMethod, hr]
  refine (h.realizes_receiver hi hv hfault).bind ?_
  rintro ⟨value, typeName⟩ after _ ⟨rfl, looked, hlooked, hframes, hreceiver⟩
  have hfind := find?_methods scene typeName name
  dsimp only
  cases hm : scene.methods.find? fun methods => methods.supports typeName name with
  | none =>
    rw [hm] at hfind
    intro result last he
    cases he
    refine h.fails hi ?_ hlooked.calls
    rw [execute, Machine.callMethod, hreceiver]
    dsimp only
    rw [hfind]
    rfl
  | some methods =>
    rw [hm] at hfind
    refine h.realizes_ask hi hlooked hframes restart (methods.discreet value name args _ _) ?_
    have hstack : looked.stack = args ++ rest := by
      rw [Machine.stack, hframes]
      exact hstack
    exact callMethod_eq hreceiver hfind hstack restart
      ((hlooked.setStack rest).invoke_method methods value name args)

end

end Providers

section Procedures

variable {scene : Scene} {program : Program} {shape : Nat → Shape} {index : Nat} {store : Store}
  {machine : Machine (List HostCall)} {pos : Option SourcePos} {rest : List Value}

theorem Execution.frame_cons_below (execution : Execution) :
    execution.frame :: execution.below = execution.calls ++ [execution.globals] := by
  obtain ⟨_, _, calls, _, _, _⟩ := execution
  cases calls <;> rfl

def Store.closeCall (store : Store) : Store :=
  { store with vars := { store.vars with locals := store.vars.locals.tail } }

def Store.openCall (store : Store) : Store :=
  { store with vars := { store.vars with locals := [] :: store.vars.locals } }

structure Entered (program : Program) (shape : Nat → Shape) (origin : Execution) (args : List Value)
    (target entry : Nat) (store : Store) (machine : Machine (List HostCall)) : Prop where
  standing : Standing program shape entry store machine
  stack : machine.stack = args.reverse
  runs : RunsAt program machine.execution .body
  returnTo : machine.execution.frame.returnTo = some target
  below : machine.execution.below = origin.frame :: origin.below

theorem Standing.enter (h : Standing program shape index store machine) {name : String}
    {args : List Value} {restart entry : Nat}
    (hi : program.code[index]? = some ⟨.call name args.length restart, pos⟩)
    (hentry : program.entry? name = some entry) (hsize : entry ≤ program.size)
    (hstack : machine.stack = args ++ rest) :
    ∃ last, Reaches scene.setting machine last ∧
      Entered program shape (machine.clearMarks.setStack rest).execution args (index + 1) entry
        store.openCall last := by
  have hstack : machine.clearMarks.stack = args ++ rest := hstack
  let popped := machine.clearMarks.setStack rest
  have hpopped : Standing program shape index store popped := h.clearMarks.setStack rest
  have hx : execute scene.setting machine.clearMarks (.call name args.length restart) =
      .ok ((opened popped args).goTo entry) := by
    rw [execute, h.clearMarks.runs, hentry]
    exact (callProcedure_eq rfl hstack entry).trans
      (jump_eq_goTo (show (opened popped args).execution.program = program from hpopped.runs) hsize)
  have hreturn : (opened popped args).execution.frame.returnTo = some (index + 1) :=
    congrArg (fun pc => some (pc + 1)) hpopped.pc
  have hlt : index + 1 ≤ program.size := by
    obtain ⟨hlt, -⟩ := Array.getElem?_eq_some_iff.1 hi
    exact hlt
  refine ⟨_, h.reaches hi hx (congrArg Status.waitingFor h.clearMarks.status), ?_, rfl, ?_, hreturn, ?_⟩
  · refine ⟨hpopped.runs, rfl, hpopped.status, ?_, h.objects, h.calls, hpopped.top⟩
    rw [Store.openCall, ← hpopped.vars]
    rfl
  · exact ⟨List.cons_ne_nil _ _, index + 1, hreturn, hlt⟩
  · rw [Execution.frame_cons_below]
    rfl

structure Back (program : Program) (shape : Nat → Shape) (origin : Execution) (value : Value)
    (store : Store) (machine : Machine (List HostCall)) : Prop where
  result : machine.execution.frame.result = value
  caller : List.Forall₂ Frame.Waits origin.below
    (machine.execution.frame :: machine.execution.below)
  standing : ∃ index, origin.frame.returnTo = some index ∧
    Standing program shape index store.closeCall machine

theorem Back.of_keeps {range : Nat → Prop} {origin middle : Execution} {value : Value}
    (h : Back program shape middle value store machine) (hk : origin.Keeps range middle) :
    Back program shape origin value store machine := by
  obtain ⟨hresult, hcaller, index, hindex, hstanding⟩ := h
  exact ⟨hresult, Execution.forall₂_waits_trans hk.below hcaller, index,
    hk.running.returnTo ▸ hindex, hstanding⟩

structure Ended (program : Program) (value : Value) (store : Store)
    (machine : Machine (List HostCall)) : Prop where
  runs : machine.execution.program = program
  pc : machine.execution.pc = program.size
  status : machine.status = ⟨false, some .returned, none, none⟩
  result : machine.execution.globals.result = value
  vars : Variables.ofExecution machine.execution = store.vars
  objects : machine.world.objects = store.objects
  calls : machine.world.host = store.calls

def Left (program : Program) (shape : Nat → Shape) (place : Place) (origin : Execution)
    (value : Value) (store : Store) (machine : Machine (List HostCall)) : Prop :=
  match place with
  | .top => Ended program value store machine
  | .entry => False
  | .body => Back program shape origin value store machine

theorem Left.of_keeps {place : Place} {range : Nat → Prop} {origin middle : Execution}
    {value : Value} (h : Left program shape place middle value store machine)
    (hk : origin.Keeps range middle) : Left program shape place origin value store machine := by
  cases place with
  | top => exact h
  | entry => exact h
  | body => exact Back.of_keeps h hk

section

variable (h : Standing program shape index store machine)
include h

theorem Standing.leave_top (hcalls : machine.execution.calls = []) (value : Value) :
    ∃ next, machine.leave value = .ok next ∧ next.status.waitingFor = none ∧
      Ended program value store next.countStep := by
  obtain ⟨⟨program', globals, calls, _, _, _⟩, status, _⟩ := machine
  cases show calls = [] from hcalls
  cases show status = .started from h.status
  cases show program' = program from h.runs
  exact ⟨_, rfl, rfl, rfl, rfl, rfl, rfl, h.vars, h.objects, h.calls⟩

theorem Standing.leave_body (hruns : RunsAt program machine.execution .body) (value : Value) :
    ∃ next, machine.leave value = .ok next ∧ next.status.waitingFor = none ∧
      Back program shape machine.execution value store next.countStep := by
  obtain ⟨hcalls, target, htarget, hsize⟩ := hruns
  obtain ⟨⟨program', globals, calls, pc, steps, interrupt⟩, status, world⟩ := machine
  cases show status = .started from h.status
  cases show program' = program from h.runs
  have hsize : ¬ program.size < target := Nat.not_lt.2 hsize
  cases calls with
  | nil => exact absurd rfl hcalls
  | cons call calls =>
    have hreturn : call.returnTo = some target := htarget
    cases calls with
    | nil =>
      refine ⟨⟨⟨program, { globals with result := value }, [], target, steps, interrupt⟩, .started,
        world⟩, ?_, rfl, rfl, ?_, target, hreturn, rfl, rfl, rfl, ?_, h.objects, h.calls, h.top⟩
      · simp [Machine.leave, setCallerResult, Machine.jump, hreturn, hsize, goTo]
      · exact .cons ⟨⟨rfl, fun _ _ _ => rfl⟩, rfl⟩ .nil
      · rw [Store.closeCall, ← h.vars]
        rfl
    | cons caller calls =>
      refine ⟨⟨⟨program, globals, { caller with result := value } :: calls, target, steps,
        interrupt⟩, .started, world⟩, ?_, rfl, rfl, ?_, target, hreturn, rfl, rfl, rfl, ?_, h.objects,
        h.calls, h.top⟩
      · simp [Machine.leave, setCallerResult, Machine.jump, hreturn, hsize, goTo]
      · exact .cons ⟨⟨rfl, fun _ _ _ => rfl⟩, rfl⟩ (Execution.forall₂_waits_refl _)
      · rw [Store.closeCall, ← h.vars]
        rfl

theorem Standing.leave {place : Place} {op : Op} (hi : program.code[index]? = some ⟨op, pos⟩)
    (hruns : RunsAt program machine.execution place)
    {stack : List Value} {value : Value}
    (hx : execute scene.setting machine.clearMarks op =
      (machine.clearMarks.setStack stack).leave value) :
    ∃ last, Reaches scene.setting machine last ∧
      Left program shape place machine.execution value store last := by
  have hkeeps := keeps_popped machine stack Nowhere
  have hpopped := h.clearMarks.setStack stack
  have hruns := hruns.of_keeps hkeeps
  cases place with
  | top =>
    obtain ⟨next, hleave, hwait, hended⟩ := hpopped.leave_top hruns value
    exact ⟨_, h.reaches hi (hx.trans hleave) hwait, hended⟩
  | entry => exact hruns.elim
  | body =>
    obtain ⟨next, hleave, hwait, hback⟩ := hpopped.leave_body hruns value
    exact ⟨_, h.reaches hi (hx.trans hleave) hwait, hback.of_keeps hkeeps⟩

theorem Standing.realizes_bind {pairs : List (String × Value)}
    (hcode : program.Holds index (emit pos (pairs.map fun pair => .setVariable pair.1)))
    (hv : ∀ pair ∈ pairs, isHidden pair.1 = false)
    (hstack : machine.stack = pairs.map Prod.snd ++ rest) :
    Realizes scene.setting (pairs.forM fun (name, value) => Eval.assign name value) store machine
      fun _ => Lands program shape Nowhere machine rest (index + pairs.length) := by
  induction pairs generalizing index store machine with
  | nil => exact .pure ⟨h, hstack, .refl _ _⟩
  | cons pair pairs ih =>
    obtain ⟨name, value⟩ := pair
    rw [List.forM]
    refine (h.realizes_assign hcode.1 (hv _ (List.mem_cons_self ..)) hstack).bind ?_
    intro _ after next hnext
    have hn : index + ((name, value) :: pairs).length = index + 1 + pairs.length := by simp; omega
    rw [hn]
    refine (ih hnext.standing hcode.2 (fun other ho => hv other (List.mem_cons_of_mem _ ho))
      hnext.stack).mono fun _ _ _ hl => hnext.trans hl

theorem Standing.realizes_bindParams {params : List String} {args : List Value}
    (hcode : program.Holds index (emit pos (params.reverse.map .setVariable)))
    (hv : ∀ name ∈ params, isHidden name = false) (hlen : args.length = params.length)
    (hstack : machine.stack = args.reverse) :
    Realizes scene.setting (Eval.bindParams params args) store machine
      fun _ => Lands program shape Nowhere machine [] (index + params.length) := by
  have hnames : (params.zip args).reverse.map Prod.fst = params.reverse := by
    rw [List.map_reverse, List.map_fst_zip (Nat.le_of_eq hlen.symm)]
  have hvalues : (params.zip args).reverse.map Prod.snd = args.reverse := by
    rw [List.map_reverse, List.map_snd_zip (Nat.le_of_eq hlen)]
  have hcount : (params.zip args).reverse.length = params.length := by simp [hlen]
  rw [← hnames, List.map_map] at hcode
  rw [← hcount]
  refine h.realizes_bind hcode ?_ ?_
  · rintro ⟨name, value⟩ hmem
    exact hv name (List.of_mem_zip (List.mem_reverse.1 hmem)).1
  · rw [hvalues, List.append_nil, hstack]

end

end Procedures

end DurableScript
