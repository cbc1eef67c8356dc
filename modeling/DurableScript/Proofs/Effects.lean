import DurableScript.Proofs.Lookups
import DurableScript.Proofs.Requests

/-!
All that an instruction can do. What instructions keep is proved by cases on their effects.
-/

namespace DurableScript

namespace Op

def needs : Op → Nat
  | operate _ => 2
  | setVariable _ | jumpUnless _ | ret true | pushProperty _ | invert => 1
  | call _ argc _ | callMethod _ _ argc _ | callBuiltin _ argc => argc
  | _ => 0

def spent : Op → Nat
  | operate _ => 2
  | callBuiltin _ argc => argc
  | pushProperty _ => 1
  | _ => 0

def call? : Op → Option (Nat × Nat)
  | call _ argc restart | callMethod _ _ argc restart => some (argc, restart)
  | _ => none

def computes : Op → Bool
  | pushValue _ | pushVariable _ | operate _ | call .. | callMethod .. | callBuiltin ..
  | pushResult | pushProperty _ | invert => true
  | _ => false

def jump? : Op → Option Nat
  | jump target | jumpUnless target => some target
  | _ => none

def goesOn : Op → Bool
  | jump _ | ret _ => false
  | _ => true

theorem goesOn_of_computes {op : Op} (h : op.computes = true) : op.goesOn = true := by
  cases op <;> first | rfl | cases h

theorem mem_targets_of_jump? {op : Op} {target : Nat} (h : op.jump? = some target) :
    target ∈ op.targets := by
  cases op with
  | jump | jumpUnless =>
    cases h
    exact List.mem_singleton_self _
  | _ => cases h

theorem computes_of_call? {op : Op} {argc restart : Nat} (h : op.call? = some (argc, restart)) :
    op.computes = true := by
  cases op with
  | call | callMethod => rfl
  | _ => cases h

theorem goesOn_of_call? {op : Op} {argc restart : Nat} (h : op.call? = some (argc, restart)) :
    op.goesOn = true := goesOn_of_computes (computes_of_call? h)

end Op

namespace Execution

variable {execution mid after : Execution}

structure KeepsCallers (execution after : Execution) : Prop where
  program : after.program = execution.program
  nil : execution.calls = [] → after.calls = []
  cons : ∀ call rest, execution.calls = call :: rest →
    (∃ call', after.calls = call' :: rest ∧ call'.returnTo = call.returnTo) ∧
      after.globals = { execution.globals with vars := after.globals.vars }

theorem KeepsCallers.trans (h : execution.KeepsCallers mid) (h' : mid.KeepsCallers after) :
    execution.KeepsCallers after where
  program := h'.program.trans h.program
  nil hcalls := h'.nil (h.nil hcalls)
  cons call rest hcalls := by
    obtain ⟨⟨call', hcalls', hreturn⟩, hglobals⟩ := h.cons call rest hcalls
    obtain ⟨⟨call'', hcalls'', hreturn'⟩, hglobals'⟩ := h'.cons call' rest hcalls'
    refine ⟨⟨call'', hcalls'', hreturn'.trans hreturn⟩, ?_⟩
    rw [hglobals', hglobals]

structure Stays (execution after : Execution) : Prop extends execution.KeepsCallers after where
  pc : after.pc = execution.pc
  steps : after.steps = execution.steps
  mark : after.lastInterrupt = execution.lastInterrupt

theorem Stays.trans (h : execution.Stays mid) (h' : mid.Stays after) : execution.Stays after :=
  ⟨h.toKeepsCallers.trans h'.toKeepsCallers, h'.pc.trans h.pc, h'.steps.trans h.steps,
    h'.mark.trans h.mark⟩

theorem stays_modifyFrame (execution : Execution) {f : Frame → Frame}
    (hreturn : ∀ frame, (f frame).returnTo = frame.returnTo) :
    execution.Stays (execution.modifyFrame f) := by
  obtain ⟨_, _, calls, _, _, _⟩ := execution
  cases calls with
  | nil => exact ⟨⟨rfl, fun _ => rfl, nofun⟩, rfl, rfl, rfl⟩
  | cons call rest =>
    refine ⟨⟨rfl, nofun, ?_⟩, rfl, rfl, rfl⟩
    rintro _ _ ⟨⟩
    exact ⟨⟨f call, rfl, hreturn call⟩, rfl⟩

theorem stays_dropOperands (execution : Execution) (count : Nat) :
    execution.Stays (execution.dropOperands count) :=
  execution.stays_modifyFrame (f := fun frame => { frame with stack := frame.stack.drop count })
    fun _ => rfl

theorem Stays.of_eq (h : after = execution) : execution.Stays after := by
  subst h
  exact ⟨⟨rfl, id, fun call _ hcalls => ⟨⟨call, hcalls, rfl⟩, rfl⟩⟩, rfl, rfl, rfl⟩

theorem stays_setGlobal (execution : Execution) (name : String) (value : Value) :
    execution.Stays (execution.setGlobal name value) :=
  ⟨⟨rfl, id, fun call _ hcalls => ⟨⟨call, hcalls, rfl⟩, rfl⟩⟩, rfl, rfl, rfl⟩

theorem stays_setLocal (execution : Execution) (name : String) (value : Value) :
    execution.Stays (execution.setLocal name value) :=
  execution.stays_modifyFrame (f := (·.set name value)) fun _ => rfl

theorem stays_assign (execution : Execution) (name : String) (value : Value) :
    execution.Stays (execution.assign name value) := by
  unfold assign
  split
  · exact execution.stays_setGlobal name value
  · exact execution.stays_setLocal name value

theorem stays_writes (execution : Execution) (writes : List HostWrite) :
    execution.Stays (writes.foldl HostWrite.run execution) := by
  induction writes generalizing execution with
  | nil => exact .of_eq rfl
  | cons write rest ih =>
    refine Stays.trans ?_ (ih (write.run execution))
    cases write with
    | toFrame name value => exact execution.stays_setLocal name value
    | toGlobals name value => exact execution.stays_setGlobal name value

def opened (execution : Execution) (argc : Nat) (call : Frame) : Execution :=
  { execution.dropOperands argc with calls := call :: (execution.dropOperands argc).calls }

end Execution

namespace Machine

variable {H : Type} {setting : Setting H} {machine next : Machine H} {op : Op} {count : Nat}
  {taken found : Machine H} {request : Request H}

structure Takes (machine : Machine H) (count : Nat) (taken : Machine H) : Prop where
  execution : taken.execution = machine.execution.dropOperands count
  status : taken.status = machine.status

theorem execution_setStack {rest : List Value} (h : machine.stack.drop count = rest) :
    (machine.setStack rest).execution = machine.execution.dropOperands count := by
  rw [← h, setStack_drop]

theorem takes_none (machine : Machine H) : machine.Takes 0 machine :=
  ⟨machine.execution.dropOperands_zero.symm, rfl⟩

theorem takes_setStack {rest : List Value} (h : machine.stack.drop count = rest) :
    machine.Takes count (machine.setStack rest) := ⟨execution_setStack h, rfl⟩

theorem Takes.trans (h : machine.Takes count taken) (hrun : taken.SameRun found) :
    machine.Takes count found :=
  ⟨hrun.execution.trans h.execution, hrun.status.trans h.status⟩

theorem Takes.stack_eq (h : machine.Takes count taken) :
    taken.stack = machine.stack.drop count := by
  rw [stack, h.execution, Execution.stack_dropOperands]
  rfl

theorem Takes.stays (h : machine.Takes count taken) :
    machine.execution.Stays taken.execution := h.execution ▸ machine.execution.stays_dropOperands count

theorem stays_setStack (machine : Machine H) (stack : List Value) :
    machine.execution.Stays (machine.setStack stack).execution :=
  machine.execution.stays_modifyFrame (f := fun frame => { frame with stack := stack }) fun _ => rfl

theorem stays_push (machine : Machine H) (value : Value) :
    machine.execution.Stays (machine.push value).execution :=
  machine.execution.stays_modifyFrame (f := (·.push value)) fun _ => rfl

theorem stays_setResult (machine : Machine H) (value : Value) :
    machine.execution.Stays (machine.setResult value).execution :=
  machine.execution.stays_modifyFrame (f := fun frame => { frame with result := value }) fun _ => rfl

theorem stack_setResult (machine : Machine H) (value : Value) :
    (machine.setResult value).stack = machine.stack := by
  simp [setResult, modifyFrame, stack]

theorem argc_eq_needs (hr : machine.request? setting op = some (request, found)) :
    request.argc = op.needs := by
  cases request?_cases hr <;> rfl

theorem request?_eq_none_of_entry {name : String} {argc restart entry : Nat}
    (h : machine.execution.program.entry? name = some entry) :
    machine.request? setting (.call name argc restart) = none := by
  rw [request?, h]

theorem call?_of_request? (hr : machine.request? setting op = some (request, found)) :
    op.call? = some (request.argc, request.restart) := by
  cases request?_cases hr <;> rfl

def Asked (setting : Setting H) (machine : Machine H) (op : Op) (request : Request H)
    (outcome : Except RunError Answer) (said : Machine H) : Prop :=
  ∃ found, machine.request? setting op = some (request, found) ∧
    request.argc ≤ found.stack.length ∧ (found.reply setting request).1.outcome = outcome ∧
    said = (found.asking request).written (found.reply setting request).1.writes
      (found.reply setting request).2

namespace Asked

variable {request : Request H} {outcome : Except RunError Answer} {said : Machine H}

theorem call? (h : Asked setting machine op request outcome said) :
    op.call? = some (request.argc, request.restart) := by
  obtain ⟨found, hr, -⟩ := h
  exact call?_of_request? hr

theorem entry? {name : String} {argc restart : Nat}
    (h : Asked setting machine (.call name argc restart) request outcome said) :
    machine.execution.program.entry? name = none := by
  obtain ⟨found, hr, -⟩ := h
  cases hentry : machine.execution.program.entry? name with
  | none => rfl
  | some entry => cases (request?_eq_none_of_entry hentry).symm.trans hr

section

variable (h : Asked setting machine op request outcome said)
include h

theorem restart_mem_targets : request.restart ∈ op.targets := by
  obtain ⟨found, hr, -⟩ := h
  exact Machine.restart_mem_targets hr

theorem status : said.status = machine.status := by
  obtain ⟨found, hr, -, -, rfl⟩ := h
  exact (sameRun_request? hr).status

theorem stays : machine.execution.Stays said.execution := by
  obtain ⟨found, hr, -, -, rfl⟩ := h
  rw [written, asking, (sameRun_request? hr).execution]
  exact (machine.execution.stays_dropOperands _).trans (Execution.stays_writes _ _)

theorem stack_eq : said.stack = machine.stack.drop op.needs := by
  obtain ⟨found, hr, -, -, rfl⟩ := h
  rw [stack, written, Execution.stack_writes, asking, Execution.stack_dropOperands,
    (sameRun_request? hr).execution, argc_eq_needs hr]
  rfl

end

end Asked

def callee (machine : Machine H) (argc : Nat) : Frame :=
  ⟨[], (machine.stack.take argc).reverse, .null, some (machine.execution.pc + 1)⟩

def entered (machine : Machine H) (argc : Nat) : Machine H :=
  { machine with execution := machine.execution.opened argc (machine.callee argc) }

def withCalls (machine : Machine H) (calls : List Frame) : Machine H :=
  { machine with execution := { machine.execution with calls := calls } }

def yield? (machine : Machine H) (hasValue : Bool) : Option Value :=
  if hasValue then machine.stack.head? else some .null

/-- What becomes of a machine when it executes an instruction. -/
inductive Effect (setting : Setting H) (machine : Machine H) : Op → Outcome H → Prop where
  | pushes {op : Op} {taken : Machine H} (value : Value) : op.computes = true → op.call? = none →
      machine.Takes op.needs taken → machine.world.Precedes taken.world →
      Effect setting machine op (.ok (taken.push value).advance)
  | advances {op : Op} {taken : Machine H} : op.computes = false → op.goesOn = true →
      machine.Takes op.needs taken → Effect setting machine op (.ok taken.advance)
  | jumps {op : Op} {taken : Machine H} {target : Nat} : op.jump? = some target →
      machine.Takes op.needs taken → Effect setting machine op (.ok (taken.goTo target))
  | assigns {name : String} {taken : Machine H} (value : Value) : machine.Takes 1 taken →
      Effect setting machine (.setVariable name)
        (.ok (advance { taken with execution := taken.execution.assign name value }))
  | stops : Effect setting machine .stop (.ok (machine.advance.pause .stop))
  | waits {wait : WaitRequirement} : wait.isMet setting.signals = false →
      Effect setting machine (.wait wait.all wait.names)
        (.ok (pause { machine with status := { machine.status with waitingFor := some wait } } .wait))
  | enters {name : String} {argc restart entry : Nat} :
      machine.execution.program.entry? name = some entry → argc ≤ machine.stack.length →
      Effect setting machine (.call name argc restart) (.ok ((machine.entered argc).goTo entry))
  | returns {hasValue : Bool} {taken : Machine H} {call : Frame} {rest : List Frame} (value : Value) :
      machine.yield? hasValue = some value → machine.Takes (Op.ret hasValue).needs taken →
      taken.execution.calls = call :: rest →
      call.returnTo.getD taken.execution.program.size ≤ taken.execution.program.size →
      Effect setting machine (.ret hasValue) (.ok (((taken.withCalls rest).setResult value).goTo
        (call.returnTo.getD taken.execution.program.size)))
  | ends {hasValue : Bool} {taken : Machine H} (value : Value) :
      machine.yield? hasValue = some value → machine.Takes (Op.ret hasValue).needs taken →
      taken.execution.calls = [] → Effect setting machine (.ret hasValue)
        (.ok (((taken.setResult value).goTo taken.execution.program.size).pause .returned))
  | answers {op : Op} {request : Request H} {said : Machine H} (result : Value) :
      Asked setting machine op request (.ok (.value result)) said →
      Effect setting machine op (.ok (said.setResult result).advance)
  | interrupts {op : Op} {request : Request H} {said : Machine H} {extra : Option Value}
      (result : Value) : Asked setting machine op request (.ok (.after result extra)) said →
      Effect setting machine op (.ok ((said.setResult result).advance.interrupted .after extra))
  | repeats {op : Op} {request : Request H} {said : Machine H} {extra : Option Value} :
      Asked setting machine op request (.ok (.before extra)) said →
      Effect setting machine op (.ok ((said.goTo request.restart).interrupted .before extra))
  | refuses {op : Op} {request : Request H} {said : Machine H} {error : RunError} :
      Asked setting machine op request (.error error) said →
      Effect setting machine op (.fail error said)
  | lacks {op : Op} {found : Machine H} {stack : List Value} : machine.stack.length < op.needs →
      machine.SameRun found →
      Effect setting machine op (.fail (.ofFault .stackUnderflow) (found.setStack stack))
  | fails {op : Op} {taken : Machine H} {fault : RunFault} : machine.request? setting op = none →
      machine.Takes op.spent taken → fault.isOperational = true →
      Effect setting machine op (.fail (.ofFault fault) taken)
  | miscounts {count : Nat} : machine.stack.length ≠ count →
      Effect setting machine (.expectStack count)
        (.fail (.ofFault (.stackCount count machine.stack.length)) machine)
  | misses {op : Op} {taken : Machine H} {target : Nat} : op.jump? = some target →
      machine.Takes op.needs taken → taken.execution.program.size < target →
      Effect setting machine op
        (.fail (.ofFault (.jumpOutOfRange target taken.execution.program.size)) taken)
  | overruns {name : String} {argc restart entry : Nat} :
      machine.execution.program.entry? name = some entry → argc ≤ machine.stack.length →
      machine.execution.program.size < entry →
      Effect setting machine (.call name argc restart) (.fail (.ofFault
        (.jumpOutOfRange entry machine.execution.program.size)) (machine.entered argc))
  | deepens {name : String} {argc restart entry limit : Nat} :
      machine.execution.program.entry? name = some entry →
      setting.limits.maxCallDepth = some limit → limit < machine.execution.depth →
      Effect setting machine (.call name argc restart) (.fail (.ofFault (.callDepth limit)) machine)
  | dangles {hasValue : Bool} {taken : Machine H} {call : Frame} {rest : List Frame} {target : Nat}
      (value : Value) : machine.yield? hasValue = some value →
      machine.Takes (Op.ret hasValue).needs taken → taken.execution.calls = call :: rest →
      call.returnTo = some target → taken.execution.program.size < target →
      Effect setting machine (.ret hasValue) (.fail (.ofFault
        (.jumpOutOfRange target taken.execution.program.size)) ((taken.withCalls rest).setResult value))
  | strays {op : Op} {request : Request H} {said : Machine H} {extra : Option Value} :
      Asked setting machine op request (.ok (.before extra)) said →
      said.execution.program.size < request.restart →
      Effect setting machine op
        (.fail (.ofFault (.jumpOutOfRange request.restart said.execution.program.size)) said)

theorem effect_jump {taken : Machine H} {target : Nat} (hop : op.jump? = some target)
    (h : machine.Takes op.needs taken) : Effect setting machine op (taken.jump target) := by
  unfold jump
  dsimp only
  split
  · next hlt => exact .misses hop h hlt
  · exact .jumps hop h

theorem setStack_self (machine : Machine H) : machine.setStack machine.stack = machine := by
  obtain ⟨⟨_, _, calls, _, _, _⟩, _, _⟩ := machine
  cases calls <;> rfl

theorem effect_callProcedure {name : String} {argc restart entry : Nat}
    (hentry : machine.execution.program.entry? name = some entry) :
    Effect setting machine (.call name argc restart) (callProcedure setting machine entry argc) := by
  unfold callProcedure
  dsimp only
  split
  · next limit hlimit =>
    split at hlimit
    · next hmax =>
      split at hlimit
      · next hlt =>
        cases hlimit
        exact .deepens hentry hmax hlt
      · cases hlimit
    · cases hlimit
  · unfold popArgsThen
    split
    · next hlt => exact .lacks hlt ⟨rfl, rfl⟩
    · next henough =>
      have hpc : (machine.execution.dropOperands argc).pc = machine.execution.pc := by
        rw [Execution.dropOperands, Execution.pc_modifyFrame]
      have hprogram : (machine.entered argc).execution.program = machine.execution.program := by
        rw [entered, Execution.opened, Execution.dropOperands, Execution.program_modifyFrame]
      rw [setStack_drop]
      show Effect _ _ _ (jump ⟨machine.execution.opened argc
        ⟨[], _, .null, some ((machine.execution.dropOperands argc).pc + 1)⟩, _, _⟩ entry)
      rw [hpc]
      show Effect _ _ _ ((machine.entered argc).jump entry)
      unfold jump
      dsimp only
      rw [hprogram]
      split
      · next hlt => exact .overruns hentry (Nat.not_lt.1 henough) hlt
      · exact .enters hentry (Nat.not_lt.1 henough)

theorem leave_eq (machine : Machine H) (value : Value) : machine.leave value =
    match machine.execution.calls with
    | call :: rest => ((machine.withCalls rest).setResult value).jump
        (call.returnTo.getD machine.execution.program.size)
    | [] => .ok (((machine.setResult value).goTo machine.execution.program.size).pause .returned) := by
  obtain ⟨⟨_, _, calls, _, _, _⟩, _, _⟩ := machine
  match calls with
  | [] | [_] | _ :: _ :: _ => rfl

theorem effect_leave {hasValue : Bool} {value : Value}
    (hvalue : machine.yield? hasValue = some value)
    (htaken : machine.Takes (Op.ret hasValue).needs taken) :
    Effect setting machine (.ret hasValue) (taken.leave value) := by
  rw [leave_eq]
  split
  · next call rest hcalls =>
    have hprogram : ((taken.withCalls rest).setResult value).execution.program =
        taken.execution.program := Execution.program_modifyFrame _ _
    unfold jump
    rw [hprogram]
    dsimp only
    split
    · next hlt =>
      cases hreturn : call.returnTo with
      | none => exact absurd (hreturn ▸ hlt) (Nat.lt_irrefl _)
      | some target => exact .dangles value hvalue htaken hcalls hreturn (hreturn ▸ hlt)
    · next hle => exact .returns value hvalue htaken hcalls (Nat.not_lt.1 hle)
  · next hcalls => exact .ends value hvalue htaken hcalls

theorem effect_popThen {f : Value → Machine H → Outcome H} (hneeds : 0 < op.needs)
    (h : ∀ value rest, machine.stack = value :: rest →
      Effect setting machine op (f value (machine.setStack rest))) :
    Effect setting machine op (machine.popThen f) := by
  unfold popThen
  split
  · next hstack =>
    have hlacks : Effect setting machine op (.fail _ (machine.setStack machine.stack)) :=
      .lacks (by rwa [hstack]) ⟨rfl, rfl⟩
    rwa [setStack_self] at hlacks
  · next value rest hstack => exact h value rest hstack

theorem effect_request (hr : machine.request? setting op = some (request, found)) :
    Effect setting machine op (execute setting machine op) := by
  rw [execute_of_request? hr]
  split
  · next hlt =>
    refine .lacks ?_ (sameRun_request? hr)
    rw [← argc_eq_needs hr, ← stack_of_request? hr]
    exact hlt
  · next henough =>
    have hasked : Asked setting machine op request (found.reply setting request).1.outcome _ :=
      ⟨found, hr, Nat.not_lt.1 henough, rfl, rfl⟩
    rw [conclude_eq]
    split
    · next hsaid => exact .refuses (hsaid ▸ hasked)
    · next hsaid => exact .answers _ (hsaid ▸ hasked)
    · next hsaid => exact .interrupts _ (hsaid ▸ hasked)
    · next hsaid =>
      rw [hsaid] at hasked
      by_cases hlt : ((found.asking request).written (found.reply setting request).1.writes
          (found.reply setting request).2).execution.program.size < request.restart
      · simp only [jump, if_pos hlt]
        exact .strays hasked hlt
      · simp only [jump, if_neg hlt]
        exact .repeats hasked

theorem effect_execute (setting : Setting H) (machine : Machine H) (op : Op) :
    Effect setting machine op (execute setting machine op) := by
  have hworld : machine.world.Precedes machine.world := .refl _
  cases op with
  | pushValue | pushResult => exact .pushes _ rfl rfl machine.takes_none hworld
  | pushVariable name =>
    rw [execute]
    split
    · next hread =>
      exact .pushes _ rfl rfl (machine.takes_none.trans (sameRun_readVariable hread))
        (precedes_readVariable hread)
    · next hread => exact .fails rfl machine.takes_none (operational_readVariable _ _ _ hread)
  | operate op =>
    rw [execute]
    refine effect_popThen Nat.two_pos fun right rest hright => ?_
    unfold popThen
    split
    · exact .lacks (by simp_all [Op.needs]) ⟨rfl, rfl⟩
    · next left rest' hleft =>
      rw [stack_setStack] at hleft
      rw [setStack_setStack]
      have htaken : machine.Takes 2 (machine.setStack rest') :=
        takes_setStack (by rw [hright, hleft]; rfl)
      dsimp only
      split
      · exact .pushes _ rfl rfl htaken hworld
      · next hfault => exact .fails rfl htaken (Operational.apply _ _ _ _ _ hfault)
  | setVariable name =>
    rw [execute]
    refine effect_popThen Nat.one_pos fun value rest hstack => ?_
    exact .assigns value (takes_setStack (by rw [hstack]; rfl))
  | call name argc restart =>
    cases hr : machine.request? setting (.call name argc restart) with
    | some asked => exact effect_request hr
    | none =>
      rw [execute_call_of_request?_eq_none hr]
      split
      · next hentry => exact effect_callProcedure hentry
      · exact .fails hr machine.takes_none rfl
  | callMethod object name argc restart =>
    cases hr : machine.request? setting (.callMethod object name argc restart) with
    | some asked => exact effect_request hr
    | none =>
      obtain ⟨fault, found, hx, hfound, hfault⟩ := execute_callMethod_of_request?_eq_none hr
      rw [hx]
      exact .fails hr (machine.takes_none.trans hfound) hfault
  | jumpUnless target =>
    rw [execute]
    refine effect_popThen Nat.one_pos fun condition rest hstack => ?_
    have htaken : machine.Takes 1 (machine.setStack rest) := takes_setStack (by rw [hstack]; rfl)
    split
    · exact .advances rfl rfl htaken
    · exact effect_jump rfl htaken
  | stop => exact .stops
  | jump target => exact effect_jump rfl machine.takes_none
  | callBuiltin function argc =>
    rw [execute]
    unfold popArgsThen
    split
    · next hlt => exact .lacks hlt ⟨rfl, rfl⟩
    · have htaken : machine.Takes argc (machine.setStack (machine.stack.drop argc)) :=
        takes_setStack rfl
      dsimp only
      split
      · exact .pushes _ rfl rfl htaken hworld
      · next hfault => exact .fails rfl htaken (Operational.run _ _ _ _ hfault)
  | nop => exact .advances rfl rfl machine.takes_none
  | wait all names =>
    rw [execute]
    dsimp only
    split
    · exact .advances rfl rfl machine.takes_none
    · next hunmet => exact .waits (Bool.eq_false_iff.2 hunmet)
  | expectStack count =>
    rw [execute]
    split
    · exact .advances rfl rfl machine.takes_none
    · next hcount => exact .miscounts hcount
  | ret hasValue =>
    cases hasValue with
    | true =>
      rw [execute]
      refine effect_popThen Nat.one_pos fun value rest hstack => ?_
      exact effect_leave (congrArg List.head? hstack) (takes_setStack (by rw [hstack]; rfl))
    | false => exact effect_leave rfl machine.takes_none
  | pushProperty name =>
    rw [execute]
    refine effect_popThen Nat.one_pos fun object rest hstack => ?_
    have htaken : machine.Takes 1 (machine.setStack rest) := takes_setStack (by rw [hstack]; rfl)
    have hrun := sameRun_property (machine.setStack rest) name object
    have hfault := operational_property (machine.setStack rest) name object
    split
    · next hp =>
      rw [hp] at hrun
      have hlooked : (machine.setStack rest).world.Precedes _ := precedes_property hp
      exact .pushes _ rfl rfl (htaken.trans hrun) hlooked
    · next hp =>
      rw [hp] at hrun hfault
      exact .fails rfl (htaken.trans hrun) (hfault _ rfl)
  | invert =>
    rw [execute]
    refine effect_popThen Nat.one_pos fun value rest hstack => ?_
    exact .pushes _ rfl rfl (takes_setStack (by rw [hstack]; rfl)) hworld

theorem effect_of_ok (h : execute setting machine op = .ok next) :
    Effect setting machine op (.ok next) := h ▸ effect_execute setting machine op

end Machine

end DurableScript
