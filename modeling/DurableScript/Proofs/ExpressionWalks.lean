import DurableScript.Proofs.ExpressionValues
import DurableScript.Proofs.Lookups
import DurableScript.Proofs.Rewinding

namespace DurableScript

open Node

namespace Machine

variable {H : Type} {setting : Setting H} {program : Program} {index : Nat} {rest : List Value}
  {eval : Eval Value} {machine next done taken last : Machine H} {op : Op} {value object : Value}
  {name : String}

def resumed (machine : Machine H) : Machine H := { machine with status := .started }

def consultation (setting : Setting H) (machine : Machine H) (request : Request H) : Consultation :=
  let answer := machine.reply setting request
  ⟨⟨request.receiver, request.name, machine.stack.take request.argc⟩, answer.1, answer.2.objects⟩

def consultation? (setting : Setting H) (machine : Machine H) (op : Op) : Option Consultation :=
  (machine.clearMarks.request? setting op).map fun (request, found) =>
    found.consultation setting request

/-- Steps of a process that is resumed whenever it pauses, and the answers that it gets on the way. -/
inductive Walks (setting : Setting H) : Machine H → List Consultation → Machine H → Prop where
  | stay (machine : Machine H) : Walks setting machine [] machine
  | step {machine next last : Machine H} {instruction : Instruction} {asked : List Consultation} :
      machine.execution.instruction? = some instruction →
      machine.step setting instruction = .ok next → Walks setting next.resumed asked last →
      Walks setting machine ((machine.consultation? setting instruction.op).toList ++ asked) last

def store (machine : Machine H) : Store :=
  ⟨⟨machine.execution.globals.vars, []⟩, machine.world.objects, []⟩

structure Stands (program : Program) (index : Nat) (machine : Machine H) : Prop where
  runs : machine.execution.program = program
  flat : machine.execution.calls = []
  pc : machine.execution.pc = index

def Gives (program : Program) (index : Nat) (rest : List Value) (eval : Eval Value)
    (machine next : Machine H) : Prop :=
  ∃ value, eval machine.store = some (.ok value, next.store) ∧ next.stack = value :: rest ∧
    next.Stands program index

theorem Stands.congr (h : machine.Stands program index)
    (hexecution : taken.execution = machine.execution) : taken.Stands program index :=
  ⟨hexecution ▸ h.runs, hexecution ▸ h.flat, hexecution ▸ h.pc⟩

theorem Stands.push (h : taken.Stands program index) (value : Value) :
    (taken.push value).advance.Stands program (index + 1) ∧
      (taken.push value).advance.stack = value :: taken.stack ∧
      (taken.push value).advance.store = taken.store := by
  obtain ⟨⟨_, globals, calls, _, _, _⟩, status, world⟩ := taken
  obtain ⟨rfl, rfl, rfl⟩ := h
  exact ⟨⟨rfl, rfl, rfl⟩, rfl, rfl⟩

theorem Stands.gives_push (h : taken.Stands program index)
    (heval : eval machine.store = some (.ok value, taken.store)) (hrest : taken.stack = rest) :
    Gives program (index + 1) rest eval machine (taken.push value).advance := by
  obtain ⟨hstands, hstack, hstore⟩ := h.push value
  exact ⟨value, hstore ▸ heval, hrest ▸ hstack, hstands⟩

theorem Stands.setStack (h : machine.Stands program index) (stack : List Value) :
    (machine.setStack stack).Stands program index ∧ (machine.setStack stack).store = machine.store := by
  obtain ⟨⟨_, globals, calls, _, _, _⟩, status, world⟩ := machine
  obtain ⟨rfl, rfl, rfl⟩ := h
  exact ⟨⟨rfl, rfl, rfl⟩, rfl⟩

theorem Stands.lookup? (h : machine.Stands program index) (name : String) :
    machine.execution.lookup? name = machine.store.vars.lookup? name := by
  obtain ⟨⟨_, globals, calls, _, _, _⟩, status, world⟩ := machine
  obtain ⟨rfl, rfl, rfl⟩ := h
  rfl

theorem eval_resolve {ref : ObjectRef Value} {object : HostObject Value}
    (h : machine.resolve ref = .ok (object, taken)) (pos : Option SourcePos) :
    Eval.resolve pos ref machine.store = some (.ok object, taken.store) := by
  obtain ⟨objects, hresolve, rfl⟩ := resolve_eq_ok h
  have hstore : machine.store.objects.resolve ref = .ok (object, objects) := hresolve
  rw [Eval.resolve_apply, hstore]
  rfl

theorem resolve_again {ref : ObjectRef Value} {object : HostObject Value}
    (h : machine.resolve ref = .ok (object, taken)) : taken.resolve ref = .ok (object, taken) := by
  obtain ⟨objects, hresolve, rfl⟩ := resolve_eq_ok h
  exact resolve_of_ok _ (Objects.resolve_resolve hresolve)

theorem Stands.eval_read (h : machine.Stands program index)
    (hread : machine.readVariable name = .ok (value, taken)) (pos : Option SourcePos) :
    Eval.read pos name machine.store = some (.ok value, taken.store) := by
  obtain ⟨hlookup, hcase⟩ := readVariable_eq_ok hread
  rw [h.lookup?] at hlookup
  simp only [Eval.read_eq, hlookup]
  obtain ⟨ref, object, rfl, hresolve⟩ | ⟨hplain, rfl⟩ := hcase
  · rw [Eval.touch, Eval.bind_apply, eval_resolve hresolve pos]
    rfl
  · cases value with
    | object ref => exact absurd rfl (hplain ref)
    | _ => rfl

theorem eval_property (h : machine.property name object = (.ok value, taken))
    (pos : Option SourcePos) :
    Eval.property pos object name machine.store = some (.ok value, taken.store) := by
  obtain ⟨fields, rfl, hvalue, rfl⟩ | ⟨ref, found, rfl, hresolve, hvalue⟩ := property_eq_ok h
  · rw [Eval.property, hvalue]
    rfl
  · simp only [Eval.property, Eval.bind_apply, eval_resolve hresolve pos, hvalue]
    rfl

section

variable (h : machine.Stands program index)
include h

theorem Stands.eval_receiver {typeName : String}
    (hreceiver : machine.receiver name = .ok (value, typeName, taken)) (pos : Option SourcePos) :
    Eval.receiver pos name machine.store = some (.ok (value, typeName), taken.store) := by
  obtain ⟨read, hread, hcase⟩ := receiver_eq_ok hreceiver
  obtain ⟨hlookup, hfound⟩ := readVariable_eq_ok hread
  rw [h.lookup?] at hlookup
  rw [Eval.receiver_eq, hlookup]
  obtain ⟨fields, rfl, rfl, rfl⟩ | ⟨ref, object, rfl, hresolve, rfl⟩ := hcase
  · obtain ⟨_, _, ⟨⟩, -⟩ | ⟨-, rfl⟩ := hfound
    rfl
  · obtain ⟨_, found, ⟨⟩, hfirst⟩ | ⟨hplain, -⟩ := hfound
    · cases (resolve_again hfirst).symm.trans hresolve
      simp only [Eval.bind_apply, eval_resolve hfirst pos]
      rfl
    · exact absurd rfl (hplain ref)

theorem Stands.pushValue {literal : Literal}
    (hx : execute setting machine (.pushValue literal) = .ok done) :
    Gives program (index + 1) machine.stack (return literal.value) machine done := by
  cases hx
  exact h.gives_push rfl rfl

theorem Stands.pushVariable (hx : execute setting machine (.pushVariable name) = .ok done)
    (pos : Option SourcePos) :
    Gives program (index + 1) machine.stack (Eval.read pos name) machine done := by
  rw [execute] at hx
  split at hx
  · next hread =>
    cases hx
    have hrun := sameRun_readVariable hread
    exact (h.congr hrun.execution).gives_push (h.eval_read hread pos) hrun.stack_eq
  · cases hx

theorem Stands.operate {op : Operator} {x y : Value} (hstack : machine.stack = y :: x :: rest)
    (hx : execute setting machine (.operate op) = .ok done) (pos : Option SourcePos) :
    Gives program (index + 1) rest (Eval.operate pos op x y) machine done := by
  rw [execute, popThen_of_stack hstack, popThen_of_stack (machine.stack_setStack _),
    setStack_setStack] at hx
  obtain ⟨htaken, hstore⟩ := h.setStack rest
  split at hx
  · next value happly =>
    cases hx
    refine htaken.gives_push ?_ (machine.stack_setStack _)
    have hoperate : Eval.operate pos op x y machine.store =
        Eval.ofExcept pos (Value.apply machine.store.objects op x y) machine.store := rfl
    have hvalue : Value.apply machine.store.objects op x y = .ok value := happly
    rw [hoperate, hvalue, hstore]
    rfl
  · cases hx

theorem Stands.callBuiltin {function : Builtin} {args : List Value}
    (hstack : machine.stack = args ++ rest)
    (hx : execute setting machine (.callBuiltin function args.length) = .ok done)
    (pos : Option SourcePos) :
    Gives program (index + 1) rest (Eval.ofExcept pos (function.run args setting.signals)) machine
      done := by
  rw [execute, popArgsThen_of_stack hstack] at hx
  obtain ⟨htaken, hstore⟩ := h.setStack rest
  split at hx
  · next value hvalue =>
    cases hx
    refine htaken.gives_push ?_ (machine.stack_setStack _)
    rw [hvalue, hstore]
    rfl
  · cases hx

theorem Stands.pushProperty (hstack : machine.stack = object :: rest)
    (hx : execute setting machine (.pushProperty name) = .ok done) (pos : Option SourcePos) :
    Gives program (index + 1) rest (Eval.property pos object name) machine done := by
  rw [execute, popThen_of_stack hstack] at hx
  obtain ⟨htaken, hstore⟩ := h.setStack rest
  have hrun := sameRun_property (machine.setStack rest) name object
  split at hx
  · next value found hproperty =>
    cases hx
    rw [hproperty] at hrun
    refine (htaken.congr hrun.execution).gives_push ?_ (hrun.stack_eq.trans (machine.stack_setStack _))
    rw [← hstore]
    exact eval_property hproperty pos
  · cases hx

theorem Stands.pushResult (hx : execute setting machine .pushResult = .ok done) :
    Gives program (index + 1) machine.stack (return machine.execution.frame.result) machine done := by
  cases hx
  exact h.gives_push rfl rfl

theorem Stands.invert (hstack : machine.stack = value :: rest)
    (hx : execute setting machine .invert = .ok done) :
    Gives program (index + 1) rest (return .bool !value.truthy) machine done := by
  rw [execute, popThen_of_stack hstack] at hx
  cases hx
  obtain ⟨htaken, hstore⟩ := h.setStack rest
  refine htaken.gives_push ?_ (machine.stack_setStack _)
  rw [hstore]
  rfl

theorem Stands.written (writes : List HostWrite) (world : World H) :
    (machine.written writes world).Stands program index ∧
      (machine.written writes world).store =
        ⟨writes.foldl Variables.write machine.store.vars, world.objects, []⟩ := by
  obtain ⟨⟨_, globals, calls, _, _, _⟩, status, _⟩ := machine
  obtain ⟨rfl, rfl, rfl⟩ := h
  induction writes generalizing globals with
  | nil => exact ⟨⟨rfl, rfl, rfl⟩, rfl⟩
  | cons write writes ih =>
    cases write with
    | toFrame name value | toGlobals name value => exact ih (globals.set name value)

end

def Asks (setting : Setting H) (program : Program) (name : String) (argc restart : Nat)
    (callee : Eval (Option Value)) (op : Op) : Prop :=
  ∀ {machine done : Machine H} {index : Nat}, machine.Stands program index →
    execute setting machine op = .ok done →
      ∃ request found, machine.request? setting op = some (request, found) ∧ request.name = name ∧
        request.argc = argc ∧ request.restart = restart ∧
        callee machine.store = some (.ok request.receiver, found.store)

theorem asks_call (hentries : ∀ name, program.entry? name = none) (name : String)
    (argc restart : Nat) :
    Asks setting program name argc restart (return none) (.call name argc restart) := by
  intro machine done index h hx
  cases hr : machine.request? setting (.call name argc restart) with
  | none =>
    rw [execute_call_of_request?_eq_none hr, h.runs, hentries] at hx
    cases hx
  | some asked =>
    obtain ⟨_, _⟩ := asked
    cases request?_cases hr
    exact ⟨_, _, rfl, rfl, rfl, rfl, rfl⟩

theorem asks_callMethod (object name : String) (argc restart : Nat) (pos : Option SourcePos) :
    Asks setting program name argc restart (do return some (← Eval.receiver pos object).1)
      (.callMethod object name argc restart) := by
  intro machine done index h hx
  cases hr : machine.request? setting (.callMethod object name argc restart) with
  | none =>
    obtain ⟨fault, found, hfail, -⟩ := execute_callMethod_of_request?_eq_none hr
    cases hfail.symm.trans hx
  | some asked =>
    obtain ⟨_, found⟩ := asked
    cases request?_cases hr with
    | method hreceiver =>
      refine ⟨_, _, rfl, rfl, rfl, rfl, ?_⟩
      rw [Eval.bind_apply, h.eval_receiver hreceiver pos]
      rfl

theorem Stands.conclude (h : machine.Stands program index) {restart : Nat} {reply : Reply}
    {world : World H} (hx : machine.conclude restart reply world = .ok done) :
    done.stack = machine.stack ∧
      done.store = ⟨reply.writes.foldl Variables.write machine.store.vars, world.objects, []⟩ ∧
      ((∃ answer result, reply.outcome = .ok answer ∧ answer.result? = some result ∧
          done.Stands program (index + 1) ∧ done.execution.frame.result = result) ∨
        ∃ extra, reply.outcome = .ok (.before extra) ∧ done.Stands program restart) := by
  rw [conclude_eq] at hx
  have hstack : (machine.written reply.writes world).stack = machine.stack :=
    Execution.stack_writes _ _
  obtain ⟨hwritten, hstore⟩ := h.written reply.writes world
  rw [← hstack, ← hstore]
  generalize machine.written reply.writes world = written at hx hwritten
  obtain ⟨⟨_, globals, calls, _, _, _⟩, status, _⟩ := written
  obtain ⟨rfl, rfl, rfl⟩ := hwritten
  split at hx
  · cases hx
  · next result houtcome =>
    cases hx
    exact ⟨rfl, rfl, .inl ⟨_, result, houtcome, rfl, ⟨rfl, rfl, rfl⟩, rfl⟩⟩
  · next result _ houtcome =>
    cases hx
    exact ⟨rfl, rfl, .inl ⟨_, result, houtcome, rfl, ⟨rfl, rfl, rfl⟩, rfl⟩⟩
  · next extra houtcome =>
    split at hx
    · next hjump =>
      cases hx
      cases jump_eq_ok hjump
      exact ⟨rfl, rfl, .inr ⟨extra, houtcome, rfl, rfl, rfl⟩⟩
    · next hfail => exact absurd hx (hfail _)

theorem Stands.answered (h : machine.Stands program index) {request : Request H} {found : Machine H}
    (hr : machine.request? setting op = some (request, found))
    (hx : execute setting machine op = .ok done) :
    done.stack = machine.stack.drop request.argc ∧
      done.store = found.store.consulted (found.consultation setting request) ∧
      ((∃ answer result, (found.consultation setting request).reply.outcome = .ok answer ∧
          answer.result? = some result ∧ done.Stands program (index + 1) ∧
          done.execution.frame.result = result) ∨
        ∃ extra, (found.consultation setting request).reply.outcome = .ok (.before extra) ∧
          done.Stands program request.restart) := by
  have hrun := sameRun_request? hr
  obtain ⟨hasking, hstore⟩ := (h.congr hrun.execution).setStack (found.stack.drop request.argc)
  rw [execute_of_request? hr] at hx
  split at hx
  · cases hx
  · rw [asking, ← setStack_drop] at hx
    obtain ⟨hstack, hkept, houtcome⟩ := hasking.conclude hx
    rw [stack_setStack, hrun.stack_eq] at hstack
    rw [hstore] at hkept
    exact ⟨hstack, hkept, houtcome⟩

theorem Stands.clearMarks (h : machine.Stands program index) :
    machine.clearMarks.Stands program index := ⟨h.runs, h.flat, h.pc⟩

theorem Stands.resumed (h : done.Stands program index) :
    done.finishStep.resumed.Stands program index := by
  obtain ⟨hruns, hflat, hpc⟩ := h
  unfold finishStep
  split
  · exact ⟨hruns, hflat, hpc⟩
  · exact ⟨hruns, hflat, hpc⟩

theorem stack_resumed (done : Machine H) : done.finishStep.resumed.stack = done.stack := by
  unfold finishStep
  split <;> rfl

theorem store_resumed (done : Machine H) : done.finishStep.resumed.store = done.store := by
  unfold finishStep
  split <;> rfl

theorem result_resumed (done : Machine H) :
    done.finishStep.resumed.execution.frame.result = done.execution.frame.result := by
  unfold finishStep
  split <;> rfl

variable {instruction : Instruction} {asked : List Consultation}

theorem Stands.walk (h : machine.Stands program index) (hi : program.code[index]? = some instruction)
    (hwalk : Walks setting machine asked last) (hend : last.execution.isFinished = true) :
    ∃ done later, execute setting machine.clearMarks instruction.op = .ok done ∧
      asked = (machine.consultation? setting instruction.op).toList ++ later ∧
      Walks setting done.finishStep.resumed later last := by
  cases hwalk with
  | stay =>
    have hlt : index < program.code.size := (Array.getElem?_eq_some_iff.1 hi).1
    have hge : machine.execution.program.code.size ≤ machine.execution.pc := of_decide_eq_true hend
    rw [h.runs, h.pc] at hge
    exact absurd hlt (Nat.not_lt.2 hge)
  | step hi' hstep hwalk =>
    rw [Execution.instruction?, h.runs, h.pc] at hi'
    cases hi.symm.trans hi'
    obtain ⟨done, hx, rfl⟩ := ok_cases hstep
    exact ⟨done, _, hx, rfl, hwalk⟩

theorem consultation?_eq_none (h : op.call? = none) : machine.consultation? setting op = none := by
  cases op with
  | call | callMethod => cases h
  | _ => rfl

theorem Stands.walk_on (h : machine.Stands program index)
    (hi : program.code[index]? = some instruction) (hop : instruction.op.call? = none)
    (hwalk : Walks setting machine asked last) (hend : last.execution.isFinished = true) :
    ∃ done, execute setting machine.clearMarks instruction.op = .ok done ∧
      Walks setting done.finishStep.resumed asked last := by
  obtain ⟨done, later, hx, rfl, hon⟩ := h.walk hi hwalk hend
  rw [consultation?_eq_none hop]
  exact ⟨done, hx, hon⟩

theorem Stands.walk_gives (h : machine.Stands program index)
    (hi : program.code[index]? = some instruction) (hop : instruction.op.call? = none)
    (hgives : ∀ {done}, execute setting machine.clearMarks instruction.op = .ok done →
      Gives program (index + 1) rest eval machine.clearMarks done)
    (hwalk : Walks setting machine asked last) (hend : last.execution.isFinished = true) :
    ∃ next value, Walks setting next asked last ∧ next.Stands program (index + 1) ∧
      next.stack = value :: rest ∧ eval machine.store = some (.ok value, next.store) := by
  obtain ⟨done, hx, hon⟩ := h.walk_on hi hop hwalk hend
  obtain ⟨value, heval, hstack, hs⟩ := hgives hx
  exact ⟨_, value, hon, hs.resumed, (stack_resumed _).trans hstack, (store_resumed _).symm ▸ heval⟩

/-- The walk comes to the index, where the values of the phrase lie on the operands. -/
structure Passes (setting : Setting H) (program : Program) (index : Nat) (phrase : Phrase)
    (machine : Machine H) (asked : List Consultation) (passed : Machine H) (values : List Value)
    (later : List Consultation) : Prop where
  stands : passed.Stands program index
  stack : passed.stack = values ++ machine.stack
  count : values.length = phrase.count
  less : later.length ≤ asked.length
  denotes : phrase.Denotes setting.signals machine.store asked values passed.store later

theorem Stands.walk_properties {pos : Option SourcePos} {properties : List String}
    (h : machine.Stands program index) (hstack : machine.stack = object :: rest)
    (hcode : program.Holds index (emit pos (properties.map .pushProperty)))
    (hwalk : Walks setting machine asked last) (hend : last.execution.isFinished = true) :
    ∃ next value, Walks setting next asked last ∧
      next.Stands program (index + properties.length) ∧ next.stack = value :: rest ∧
      properties.foldlM (Eval.property pos) object machine.store = some (.ok value, next.store) := by
  induction properties generalizing machine index object with
  | nil => exact ⟨machine, object, hwalk, h, hstack, rfl⟩
  | cons name properties ih =>
    obtain ⟨next, value, hon, hnext, hstack', heval⟩ :=
      h.walk_gives hcode.1 rfl (h.clearMarks.pushProperty hstack · pos) hwalk hend
    obtain ⟨last, final, hon, hlast, hstack'', hfold⟩ := ih hnext hstack' hcode.2 hon
    refine ⟨last, final, hon, ?_, hstack'', ?_⟩
    · rw [List.length_cons, Nat.add_comm _ 1, ← Nat.add_assoc]
      exact hlast
    · rw [List.foldlM_cons, Eval.bind_apply, heval]
      exact hfold

end Machine

open Machine

variable {H : Type} {setting : Setting H} {program : Program} {machine last : Machine H}

theorem Machine.exists_passes_call {node : Node} {name : String} {args : List Node}
    {callee : Eval (Option Value)} {op : Op} {pos : Option SourcePos} {start index : Nat}
    (hnode : node.hostCall? = some (name, args, callee))
    (hasks : Asks setting program name args.length start callee op)
    (hcall : program.code[index]? = some ⟨op, pos⟩)
    (hpush : program.code[index + 1]? = some ⟨.pushResult, pos⟩)
    (hend : last.execution.isFinished = true)
    (hargs : ∀ {machine : Machine H} {asked : List Consultation}, machine.Stands program start →
      Walks setting machine asked last → ∃ passed values later,
        Passes setting program index (.arguments args) machine asked passed values later ∧
          Walks setting passed later last)
    {asked : List Consultation} (hm : machine.Stands program start)
    (hwalk : Walks setting machine asked last) :
    ∃ passed values later,
      Passes setting program (index + 2) (.value node) machine asked passed values later ∧
        Walks setting passed later last := by
  -- every time that the call is put off uses up an answer
  induction hlength : asked.length using Nat.strong_induction_on generalizing machine asked with
  | _ count ih =>
    obtain ⟨site, values, heard, hp, hsite⟩ := hargs hm hwalk
    obtain ⟨done, later, hx, hheard, hon⟩ := hp.stands.walk hcall hsite hend
    obtain ⟨request, found, hr, rfl, hargc, rfl, hcallee⟩ := hasks hp.stands.clearMarks hx
    obtain rfl : heard = found.consultation setting request :: later := by
      rw [hheard, consultation?, hr]
      rfl
    have hcount : request.argc = values.length := hargc.trans hp.count.symm
    have hfound : found.stack = values ++ machine.stack := (stack_of_request? hr).trans hp.stack
    have hmade : (found.consultation setting request).call =
        ⟨request.receiver, request.name, values⟩ := by
      rw [consultation, hfound, hcount, List.take_left]
    have hless : later.length < asked.length := hp.less
    obtain ⟨hstack, hstore, hcase⟩ := hp.stands.clearMarks.answered hr hx
    have hrest : done.stack = machine.stack := by
      rw [hstack, ← stack_of_request? hr, hfound, hcount, List.drop_left]
    obtain ⟨answer, result, hreply, hresult, hdone, hkept⟩ | ⟨extra, hreply, hdone⟩ := hcase
    · obtain ⟨next, value, hon, hnext, hpushed, heval⟩ := hdone.resumed.walk_gives hpush rfl
        hdone.resumed.clearMarks.pushResult hon hend
      obtain ⟨hvalue, hstore'⟩ := Eval.pure_apply_inj heval
      rw [store_resumed, hstore] at hstore'
      have hresumed : done.finishStep.resumed.clearMarks.stack = machine.stack :=
        (stack_resumed done).trans hrest
      rw [hresumed] at hpushed
      obtain rfl : result = value := hkept.symm.trans ((result_resumed done).symm.trans hvalue)
      refine ⟨next, [result], later, ⟨hnext, hpushed, rfl, hless.le, ?_⟩, hon⟩
      rw [← hstore']
      exact .call hnode hp.denotes hcallee hmade hreply hresult
    · obtain ⟨passed, results, rest, hp', hon⟩ := ih _ (hlength ▸ hless) hdone.resumed hon rfl
      refine ⟨passed, results, rest,
        ⟨hp'.stands, ?_, hp'.count, hp'.less.trans hless.le, ?_⟩, hon⟩
      · rw [hp'.stack, stack_resumed, hrest]
      · refine .again hnode hp.denotes hcallee hmade hreply ?_
        rw [← hstore, ← store_resumed]
        exact hp'.denotes

theorem LowersValue.exists_passes {phrase : Phrase} {start : Nat} {code : List Instruction}
    (h : LowersValue phrase start code) (hentries : ∀ name, program.entry? name = none)
    (hend : last.execution.isFinished = true) (hcode : program.Holds start code)
    {asked : List Consultation} (hm : machine.Stands program start)
    (hwalk : Walks setting machine asked last) :
    ∃ passed values later,
      Passes setting program (start + code.length) phrase machine asked passed values later ∧
        Walks setting passed later last := by
  induction h generalizing machine asked with
  | literal hl =>
    obtain ⟨next, value, hon, hnext, hstack, heval⟩ :=
      hm.walk_gives hcode.1 rfl hm.clearMarks.pushValue hwalk hend
    obtain ⟨rfl, hstore⟩ := Eval.pure_apply_inj heval
    exact ⟨next, [_], asked, ⟨hnext, hstack, rfl, le_rfl, hstore ▸ Phrase.Denotes.literal hl⟩, hon⟩
  | @ident _ name pos =>
    obtain ⟨next, value, hon, hnext, hstack, heval⟩ :=
      hm.walk_gives hcode.1 rfl (hm.clearMarks.pushVariable · pos) hwalk hend
    exact ⟨next, [value], asked, ⟨hnext, hstack, rfl, le_rfl, .ident heval⟩, hon⟩
  | @signal _ op left right pos function name hs hq =>
    obtain ⟨pushed, value, hon, hpushed, hstack, heval⟩ :=
      hm.walk_gives hcode.1 rfl hm.clearMarks.pushValue hwalk hend
    obtain ⟨rfl, hstore⟩ := Eval.pure_apply_inj heval
    have hargs : pushed.stack = [.str name] ++ machine.stack := hstack
    obtain ⟨next, value, hon, hnext, hstack, heval⟩ := hpushed.walk_gives hcode.2.1 rfl
      (hpushed.clearMarks.callBuiltin hargs · pos) hon hend
    rw [← Eval.signalComparison_of_query hq, ← hstore] at heval
    exact ⟨next, [value], asked, ⟨hnext, hstack, rfl, le_rfl, .signal hs heval⟩, hon⟩
  | @binary _ op left right pos first second hs _ _ ih₁ ih₂ =>
    simp only [Program.Holds, Along.append_iff, List.length_append, ← Nat.add_assoc] at hcode
    obtain ⟨⟨hcode₁, hcode₂⟩, hop, -⟩ := hcode
    obtain ⟨m₁, values₁, later₁, hp₁, hon⟩ := ih₁ hcode₁ hm hwalk
    obtain ⟨m₂, values₂, later₂, hp₂, hon⟩ := ih₂ hcode₂ hp₁.stands hon
    obtain ⟨x, rfl⟩ := List.length_eq_one_iff.1 hp₁.count
    obtain ⟨y, rfl⟩ := List.length_eq_one_iff.1 hp₂.count
    have hoperands : m₂.stack = y :: x :: machine.stack := by rw [hp₂.stack, hp₁.stack]; rfl
    obtain ⟨next, value, hon, hnext, hstack, heval⟩ := hp₂.stands.walk_gives hop rfl
      (hp₂.stands.clearMarks.operate hoperands · pos) hon hend
    refine ⟨next, [value], later₂, ⟨?_, hstack, rfl, hp₂.less.trans hp₁.less, ?_⟩, hon⟩
    · simpa [Nat.add_assoc] using hnext
    · exact .binary hs hp₁.denotes hp₂.denotes heval
  | @call _ name args pos pushed _ ih =>
    simp only [Program.Holds, Along.append_iff] at hcode
    obtain ⟨hargs, hcall, hpush, -⟩ := hcode
    have hnode : (Node.call name args pos).hostCall? = some (name, args, return none) := rfl
    have hpassed := exists_passes_call hnode (asks_call hentries name _ _) hcall hpush hend
      (ih hargs) hm hwalk
    simpa [emit, Nat.add_assoc] using hpassed
  | @methodCall _ object name args pos pushed _ ih =>
    simp only [Program.Holds, Along.append_iff] at hcode
    obtain ⟨hargs, hcall, hpush, -⟩ := hcode
    have hnode : (Node.methodCall object name args pos).hostCall? = some (name, args, _) := rfl
    have hpassed := exists_passes_call hnode (asks_callMethod object name _ _ pos) hcall hpush hend
      (ih hargs) hm hwalk
    simpa [emit, Nat.add_assoc] using hpassed
  | group _ ih =>
    obtain ⟨passed, values, later, hp, hon⟩ := ih hcode hm hwalk
    exact ⟨passed, values, later,
      ⟨hp.stands, hp.stack, hp.count, hp.less, .group hp.denotes⟩, hon⟩
  | @negate _ inner pos code _ ih =>
    simp only [Program.Holds, Along.append_iff] at hcode
    obtain ⟨hcode, hop, -⟩ := hcode
    obtain ⟨passed, values, later, hp, hon⟩ := ih hcode hm hwalk
    obtain ⟨value, rfl⟩ := List.length_eq_one_iff.1 hp.count
    obtain ⟨next, _, hon, hnext, hstack, heval⟩ := hp.stands.walk_gives hop rfl
      (hp.stands.clearMarks.invert hp.stack) hon hend
    obtain ⟨rfl, hstore⟩ := Eval.pure_apply_inj heval
    refine ⟨next, [_], later, ⟨?_, hstack, rfl, hp.less, ?_⟩, hon⟩
    · simpa [Nat.add_assoc] using hnext
    · exact hstore ▸ .negate hp.denotes
  | @path _ names properties object pos hnames =>
    obtain ⟨read, found, hon, hread, hstack, heval⟩ :=
      hm.walk_gives hcode.1 rfl (hm.clearMarks.pushVariable · pos) hwalk hend
    obtain ⟨next, value, hon, hnext, hstack, hfold⟩ := hread.walk_properties hstack hcode.2 hon hend
    refine ⟨next, [value], asked, ⟨?_, hstack, rfl, le_rfl, .path hnames heval hfold⟩, hon⟩
    simpa [emit, Nat.add_assoc, Nat.add_comm 1] using hnext
  | nil => exact ⟨machine, [], asked, ⟨hm, rfl, rfl, le_rfl, .nil⟩, hwalk⟩
  | @cons _ arg rest later code _ _ ih₁ ih₂ =>
    simp only [Program.Holds, Along.append_iff] at hcode
    obtain ⟨hcode₁, hcode₂⟩ := hcode
    obtain ⟨m₁, values, later₁, hp₁, hon⟩ := ih₁ hcode₁ hm hwalk
    obtain ⟨m₂, values₂, later₂, hp₂, hon⟩ := ih₂ hcode₂ hp₁.stands hon
    obtain ⟨value, rfl⟩ := List.length_eq_one_iff.1 hp₂.count
    refine ⟨m₂, value :: values, later₂, ⟨?_, ?_, ?_, hp₂.less.trans hp₁.less, ?_⟩, hon⟩
    · simpa [Nat.add_assoc] using hp₂.stands
    · rw [hp₂.stack, hp₁.stack]
      rfl
    · exact congrArg (· + 1) hp₁.count
    · exact .cons hp₁.denotes hp₂.denotes

end DurableScript
