import DurableScript.Proofs.Mirroring

namespace DurableScript

variable {H : Type}

/-- What a host intends for the calls to come: to answer, or to put a call off with something attached.
When the plan has come to its end the host answers. -/
abbrev Plan := List (Option (Option Value))

def World.planned (plan : Plan) (world : World H) : World (H × Plan) :=
  ⟨world.objects, world.host, plan⟩

def Plan.answer (answer : World H → Reply × World H) (world : World (H × Plan)) :
    Reply × World (H × Plan) :=
  match world.host.2 with
  | some extra :: rest => (⟨[], .ok (.before extra)⟩, ⟨world.objects, world.host.1, rest⟩)
  | plan =>
    let found := answer ⟨world.objects, world.host.1⟩
    (found.1, found.2.planned plan.tail)

theorem Plan.answer_of_head? {plan : Plan} (h : plan.head?.join = none)
    (answer : World H → Reply × World H) (world : World H) :
    Plan.answer answer (world.planned plan) = ((answer world).1, (answer world).2.planned plan.tail) := by
  match plan with
  | [] | none :: _ => rfl
  | some extra :: rest => cases h

def FunctionProvider.planned (provider : FunctionProvider H) : FunctionProvider (H × Plan) where
  supports := provider.supports
  invoke context name args := Plan.answer (provider.invoke context name args)

def MethodProvider.planned (provider : MethodProvider H) : MethodProvider (H × Plan) where
  supports := provider.supports
  invoke context object name args := Plan.answer (provider.invoke context object name args)

def Setting.planned (setting : Setting H) : Setting (H × Plan) where
  functions := setting.functions.map (·.planned)
  methods := setting.methods.map (·.planned)
  signals := setting.signals
  limits := setting.limits

def Runner.planned (runner : Runner H) : Runner (H × Plan) where
  execution := runner.execution
  loaded := runner.loaded
  functions := runner.functions.map (·.planned)
  methods := runner.methods.map (·.planned)
  signals := runner.signals
  status := runner.status
  limits := runner.limits

def IgnoresSteps (answer : CallContext → List Value → World H → Reply × World H) : Prop :=
  ∀ context steps args world,
    answer { context with execution := { context.execution with steps } } args world =
      answer context args world

structure Setting.IgnoresSteps (setting : Setting H) : Prop where
  functions : ∀ provider ∈ setting.functions, ∀ name,
    DurableScript.IgnoresSteps (provider.invoke · name)
  methods : ∀ provider ∈ setting.methods, ∀ object name,
    DurableScript.IgnoresSteps (provider.invoke · object name)

theorem World.bridge_planned (plan : Plan) :
    World.Bridge Eq fun (world : World H) other => other = world.planned plan := by
  rintro world _ r _ rfl rfl
  show Agree _ (world.objects.resolve r) (world.objects.resolve r)
  cases world.objects.resolve r with
  | error id => exact .error id
  | ok found =>
    exact .ok ⟨⟨rfl, rfl, Value.matchesFields_self _ fun _ _ => rfl, rfl⟩, rfl⟩

/-- The second provider answers as the first, but for what is planned. -/
def Answers (answer : CallContext → List Value → World H → Reply × World H)
    (answer' : CallContext → List Value → World (H × Plan) → Reply × World (H × Plan)) : Prop :=
  IgnoresSteps answer ∧ ∀ context args, answer' context args = Plan.answer (answer context args)

theorem Setting.IgnoresSteps.parallels {setting : Setting H} (h : setting.IgnoresSteps) :
    setting.Parallels Eq Answers setting.planned where
  functions := List.forall₂_map_right_iff.2 <| List.forall₂_same.2 fun provider hprovider =>
    ⟨rfl, fun name => ⟨h.functions provider hprovider name, fun _ _ => rfl⟩⟩
  methods := List.forall₂_map_right_iff.2 <| List.forall₂_same.2 fun provider hprovider =>
    ⟨rfl, fun name {value value'} hvalue => by
      cases hvalue.eq
      exact ⟨h.methods provider hprovider value name, fun _ _ => rfl⟩⟩
  signals := rfl
  maxCallDepth := rfl

theorem Reply.matches_self (reply : Reply) : reply.Matches Eq reply := by
  have hself (value : Value) : value.Matches Eq value := Value.matches_self value fun _ _ => rfl
  have hoption (extra : Option Value) : Option.Rel (Value.Matches Eq) extra extra := by
    cases extra with
    | none => exact .none
    | some value => exact .some (hself value)
  refine ⟨List.forall₂_same.2 fun write _ => ?_, ?_⟩
  · cases write with
    | toFrame name value => exact .toFrame name (hself value)
    | toGlobals name value => exact .toGlobals name (hself value)
  · cases reply.outcome with
    | error error => exact .error error
    | ok answer =>
      cases answer with
      | value result => exact .ok (.value (hself result))
      | before extra => exact .ok (.before (hoption extra))
      | after result extra => exact .ok (.after (hself result) (hoption extra))

namespace Machine

abbrev Planned (plan : Plan) : Machine H → Machine (H × Plan) → Prop :=
  Mirrors Eq fun world other => other = world.planned plan

variable {setting : Setting H} {machine : Machine H} {other : Machine (H × Plan)} {plan : Plan}

theorem Planned.execution_eq (h : Planned plan machine other) :
    other.execution = { machine.execution with steps := other.execution.steps } :=
  h.execution.eq

theorem Planned.stack_eq (h : Planned plan machine other) : other.stack = machine.stack := by
  rw [stack, h.execution_eq]
  rfl

theorem Planned.finishStep (h : Planned plan machine other) :
    Planned plan machine.finishStep other.finishStep := by
  unfold Machine.finishStep
  rw [h.status.waitingFor]
  split
  · exact h
  · exact h.countStep

section Host

variable {request : Request H} {request' : Request (H × Plan)}
  (h : Planned plan machine other) (hrequest : request.Matches Eq Answers request')

include h hrequest

theorem Planned.asking_eq : (other.asking request').execution =
    { (machine.asking request).execution with steps := other.execution.steps } := by
  rw [asking, hrequest.argc, h.execution_eq]
  obtain ⟨⟨_, _, calls, _, _, _⟩, _, _⟩ := machine
  cases calls <;> rfl

theorem Planned.reply_eq : other.reply setting.planned request' =
    Plan.answer (request.answer ((machine.asking request).context setting)
      (machine.stack.take request.argc)) (machine.world.planned plan) := by
  have hcontext : (other.asking request').context setting.planned =
      { (machine.asking request).context setting with
        execution := { (machine.asking request).execution with steps := other.execution.steps } } := by
    rw [context, h.asking_eq hrequest, show (other.asking request').status = _ from h.status.eq]
    rfl
  obtain ⟨hsteps, hanswer⟩ := hrequest.answer
  rw [reply, hanswer, hrequest.argc, h.stack_eq, hcontext, show other.world = _ from h.world]
  congr 1
  funext world
  exact hsteps ((machine.asking request).context setting) other.execution.steps _ world

theorem Planned.conclude (hplan : plan.head?.join = none) :
    ((machine.asking request).conclude request.restart (machine.reply setting request).1
        (machine.reply setting request).2).Mirrors Eq
      (fun world other => other = world.planned plan.tail)
      ((other.asking request').conclude request'.restart (other.reply setting.planned request').1
        (other.reply setting.planned request').2) := by
  have hexecution : (machine.asking request).execution.Resembles Eq
      (other.asking request').execution := by
    rw [asking, asking, hrequest.argc]
    exact h.execution.dropOperands request.argc
  rw [h.reply_eq hrequest, Plan.answer_of_head? hplan, hrequest.restart]
  exact Mirrors.conclude hexecution h.status (Reply.matches_self _) rfl request.restart

end Host

section Asked

variable {op : Op} {request : Request H} {request' : Request (H × Plan)} {found : Machine H}
  {found' : Machine (H × Plan)} (hlimit : setting.limits.maxCycles = none)
  (hasked : machine.clearMarks.request? setting op = some (request, found))
  (hasked' : other.clearMarks.request? setting.planned op = some (request', found'))
  (hrequest : request.Matches Eq Answers request') (hfound : Planned plan found found')

include hlimit hasked hasked' hrequest hfound

theorem Planned.call?_of_asked : other.call? setting.planned op = machine.call? setting op := by
  have hlimit' : setting.planned.limits.maxCycles = none := hlimit
  have hreceiver : request'.receiver = request.receiver := by
    have hreceiver := hrequest.receiver
    generalize request.receiver = receiver at hreceiver ⊢
    generalize request'.receiver = receiver' at hreceiver ⊢
    cases hreceiver with
    | none => rfl
    | some hvalue => rw [hvalue.eq]
  have hworld : found'.world = found.world.planned plan := hfound.world
  unfold call?
  rw [limitReached?_eq_none hlimit, limitReached?_eq_none hlimit', hasked, hasked']
  dsimp only
  rw [hfound.stack_eq, hrequest.argc, hrequest.name, hreceiver, hworld]
  rfl

omit hlimit in
theorem Planned.execute_of_asked (hplan : plan.head?.join = none)
    (hargs : ¬ found.stack.length < request.argc) :
    (execute setting machine.clearMarks op).Mirrors Eq
      (fun world other => other = world.planned plan.tail)
      (execute setting.planned other.clearMarks op) := by
  rw [execute_of_request? hasked, execute_of_request? hasked', hfound.stack_eq, hrequest.argc,
    if_neg hargs, if_neg hargs]
  exact hfound.conclude hrequest hplan

end Asked

variable (hlimit : setting.limits.maxCycles = none)

include hlimit

theorem Planned.step_of_execute {instruction : Instruction}
    (h : (execute setting machine.clearMarks instruction.op).Mirrors Eq
      (fun world other => other = world.planned plan)
      (execute setting.planned other.clearMarks instruction.op)) :
    (machine.step setting instruction).Rel (Planned plan) (Planned plan)
      (other.step setting.planned instruction) := by
  have hlimit' : setting.planned.limits.maxCycles = none := hlimit
  have hpos := h.atPos instruction.pos
  rw [step_eq hlimit, step_eq hlimit']
  generalize (execute setting machine.clearMarks instruction.op).atPos instruction.pos = outcome
    at hpos ⊢
  generalize (execute setting.planned other.clearMarks instruction.op).atPos instruction.pos = outcome'
    at hpos ⊢
  cases hpos with
  | ok hdone => exact .ok (Planned.finishStep hdone)
  | fail error hfailed => exact .fail error hfailed

variable (hsetting : setting.IgnoresSteps)

include hsetting

theorem Planned.call?_eq (h : Planned plan machine other) (op : Op) :
    other.call? setting.planned op = machine.call? setting op := by
  have hparallels := hsetting.parallels
  have hbridge : World.Bridge Eq fun (world : World H) other => other = world.planned plan :=
    World.bridge_planned plan
  cases hasked : machine.clearMarks.request? setting op with
  | none =>
    have hasked' := h.clearMarks.request?_eq_none hparallels hbridge hasked
    unfold call?
    rw [hasked, hasked']
    cases machine.limitReached? setting <;> cases other.limitReached? setting.planned <;> rfl
  | some asked =>
    obtain ⟨request, found⟩ := asked
    obtain ⟨request', found', hasked', hrequest, hfound⟩ :=
      h.clearMarks.exists_request? hparallels hbridge hasked
    exact Planned.call?_of_asked hlimit hasked hasked' hrequest hfound

theorem Planned.step (h : Planned plan machine other) {instruction : Instruction}
    (hplan : machine.call? setting instruction.op ≠ none → plan.head?.join = none) :
    (machine.step setting instruction).Rel
      (Planned (plan.drop (machine.call? setting instruction.op).toList.length))
      (Planned (plan.drop (machine.call? setting instruction.op).toList.length))
      (other.step setting.planned instruction) := by
  have hparallels := hsetting.parallels
  have hbridge : World.Bridge Eq fun (world : World H) other => other = world.planned plan :=
    World.bridge_planned plan
  have hclear : Planned plan machine.clearMarks other.clearMarks := h.clearMarks
  refine Planned.step_of_execute hlimit ?_
  unfold call? at hplan ⊢
  rw [limitReached?_eq_none hlimit] at hplan ⊢
  cases hasked : machine.clearMarks.request? setting instruction.op with
  | none =>
    refine hclear.execute hparallels hbridge hasked ?_
    intro operator left right rest left' right' rest' _ _ _ hleft hright
    rw [hleft.eq, hright.eq, show other.clearMarks.world = _ from hclear.world]
    show Agree _ (Value.apply machine.clearMarks.world.objects operator left right)
      (Value.apply machine.clearMarks.world.objects operator left right)
    cases Value.apply machine.clearMarks.world.objects operator left right with
    | error fault => exact .error fault
    | ok value => exact .ok (Value.matches_self value fun _ _ => rfl)
  | some asked =>
    obtain ⟨request, found⟩ := asked
    obtain ⟨request', found', hasked', hrequest, hfound⟩ :=
      hclear.exists_request? hparallels hbridge hasked
    rw [hasked] at hplan
    dsimp only at hplan ⊢
    split
    · next hargs =>
      rw [execute_of_request? hasked, execute_of_request? hasked', Planned.stack_eq hfound,
        hrequest.argc, if_pos hargs, if_pos hargs]
      exact (hfound.setStack .nil).failWith _
    · next hargs =>
      rw [if_neg hargs] at hplan
      show Outcome.Mirrors Eq (fun world other => other = world.planned (plan.drop 1)) _ _
      rw [List.drop_one]
      exact Planned.execute_of_asked hasked hasked' hrequest hfound (hplan (by simp)) hargs

theorem Planned.lockstep : Lockstep setting setting.planned (Planned []) (Planned []) where
  next? h := h.next?_eq
  settle h := h.settle
  step {machine other instruction} h _ := by
    have hstep := @Planned.step H setting machine other [] hlimit hsetting h instruction fun _ => rfl
    rw [List.drop_nil] at hstep
    exact hstep

end Machine

end DurableScript
