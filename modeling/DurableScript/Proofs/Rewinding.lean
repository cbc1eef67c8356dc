import DurableScript.Proofs.ArgumentCode
import DurableScript.Proofs.Lookups

/-!
The history of an execution. When the host puts off a call, the execution is again where it was when
it last began with the arguments of the call: at the same place, with the same frames and operands.
-/

namespace DurableScript

variable {program : Program} {shape : Nat → Shape} {table : Table Procedure}
  {instruction : Instruction}

structure Level where
  index : Nat
  stack : List Value

def levelsFrom (size : Nat) (bottom : List Value) : Nat → List Frame → List Level
  | index, [] => [⟨index, bottom⟩]
  | index, call :: rest =>
    ⟨index, call.stack⟩ :: levelsFrom size bottom (call.returnTo.getD size) rest

namespace Execution

def levels (execution : Execution) : List Level :=
  levelsFrom execution.program.size execution.globals.stack execution.pc execution.calls

def lower (execution : Execution) : List Level := execution.levels.tail

theorem levels_eq_cons (execution : Execution) :
    execution.levels = ⟨execution.pc, execution.frame.stack⟩ :: execution.lower := by
  obtain ⟨_, _, calls, _, _, _⟩ := execution
  cases calls <;> rfl

theorem length_levels (execution : Execution) : execution.levels.length = execution.depth := by
  have hlength (size : Nat) (bottom : List Value) (calls : List Frame) :
      ∀ index, (levelsFrom size bottom index calls).length = calls.length + 1 := by
    induction calls with
    | nil => exact fun _ => rfl
    | cons call rest ih => exact fun _ => congrArg (· + 1) (ih _)
  exact hlength _ _ _ _

theorem stacks_eq_reverse (execution : Execution) :
    execution.frames.map Frame.stack = (execution.levels.map Level.stack).reverse := by
  have hstacks (size : Nat) (bottom : List Value) (calls : List Frame) :
      ∀ index, (levelsFrom size bottom index calls).map Level.stack =
        calls.map Frame.stack ++ [bottom] := by
    induction calls with
    | nil => exact fun _ => rfl
    | cons call rest ih => exact fun _ => congrArg (call.stack :: ·) (ih _)
  rw [levels, hstacks, frames, List.map_cons, List.map_reverse, List.reverse_append]
  rfl

structure Abreast (execution other : Execution) : Prop where
  program : execution.program = other.program
  pc : execution.pc = other.pc
  lower : execution.lower = other.lower

namespace Abreast

theorem of_eq {execution other : Execution} (h : execution = other) : execution.Abreast other := by
  subst h
  exact ⟨rfl, rfl, rfl⟩

theorem trans {a b c : Execution} (h : a.Abreast b) (h' : b.Abreast c) : a.Abreast c :=
  ⟨h.program.trans h'.program, h.pc.trans h'.pc, h.lower.trans h'.lower⟩

end Abreast

theorem Stays.abreast {execution other : Execution} (h : execution.Stays other) :
    other.Abreast execution := by
  refine ⟨h.program, h.pc, ?_⟩
  unfold lower levels
  cases hcalls : execution.calls with
  | nil =>
    rw [h.nil hcalls]
    rfl
  | cons call rest =>
    obtain ⟨⟨call', hcalls', hreturn⟩, hglobals⟩ := h.cons call rest hcalls
    rw [hcalls', hglobals, h.program, levelsFrom, levelsFrom, hreturn]
    rfl

theorem levels_writes (execution : Execution) (writes : List HostWrite) :
    (writes.foldl HostWrite.run execution).levels = execution.levels := by
  have habreast := (execution.stays_writes writes).abreast
  rw [levels_eq_cons, levels_eq_cons, habreast.pc, habreast.lower, stack_writes]

end Execution

inductive Moves (program : Program) (op : Op) : List Level → List Level → Prop where
  | stay {levels : List Level} : Moves program op levels levels
  | on {index : Nat} {stack : List Value} {lower : List Level} (pushed : List Value) :
      op.goesOn = true → Moves program op (⟨index, stack⟩ :: lower)
        (⟨index + 1, pushed ++ stack.drop op.needs⟩ :: lower)
  | jump {index target : Nat} {stack : List Value} {lower : List Level} : op.jump? = some target →
      Moves program op (⟨index, stack⟩ :: lower) (⟨target, stack.drop op.needs⟩ :: lower)
  | again {index argc restart : Nat} {stack : List Value} {lower : List Level} :
      op.call? = some (argc, restart) →
      Moves program op (⟨index, stack⟩ :: lower) (⟨restart, stack.drop op.needs⟩ :: lower)
  | enter {index entry argc restart : Nat} {name : String} {stack args : List Value}
      {lower : List Level} : op = .call name argc restart → program.entry? name = some entry →
      Moves program op (⟨index, stack⟩ :: lower)
        (⟨entry, args⟩ :: ⟨index + 1, stack.drop op.needs⟩ :: lower)
  | leave {hasValue : Bool} {level : Level} {lower : List Level} : op = .ret hasValue →
      Moves program op (level :: lower) lower
  | finish {hasValue : Bool} {level : Level} {stack : List Value} : op = .ret hasValue →
      Moves program op [level] [⟨program.size, stack⟩]

namespace Machine

variable {H : Type} {setting : Setting H} {machine next : Machine H} {op : Op}

theorem popThen_eq_ok {f : Value → Machine H → Outcome H} (h : machine.popThen f = .ok next) :
    ∃ value rest, machine.stack = value :: rest ∧ f value (machine.setStack rest) = .ok next := by
  unfold popThen at h
  split at h
  · cases h
  · next value rest hstack => exact ⟨value, rest, hstack, h⟩

theorem popArgsThen_eq_ok {argc : Nat} {f : List Value → Machine H → Outcome H}
    (h : machine.popArgsThen argc f = .ok next) :
    f (machine.stack.take argc) (machine.setStack (machine.stack.drop argc)) = .ok next := by
  unfold popArgsThen at h
  split at h
  · cases h
  · exact h

theorem jump_eq_ok {target : Nat} (h : machine.jump target = .ok next) :
    next = machine.goTo target := by
  unfold jump at h
  dsimp only at h
  split at h
  · cases h
  · cases h
    rfl

theorem exists_push_of_computes (hop : op.computes = true) (hcall : op.call? = none)
    (h : execute setting machine op = .ok next) :
    ∃ (taken : Machine H) (value : Value), next = (taken.push value).advance ∧
      taken.execution = machine.execution.dropOperands op.needs ∧ taken.status = machine.status ∧
      machine.world.Precedes taken.world := by
  cases effect_of_ok h with
  | pushes value _ _ htaken hworld => exact ⟨_, value, rfl, htaken.execution, htaken.status, hworld⟩
  | advances hother => cases hop.symm.trans hother
  | jumps hjump =>
    cases op with
    | jump | jumpUnless => cases hop
    | _ => cases hjump
  | enters => cases hcall
  | answers _ hasked | interrupts _ hasked | repeats hasked => cases hcall.symm.trans hasked.call?
  | assigns | stops | waits | returns | ends => cases hop

theorem levels_goTo (machine : Machine H) (index : Nat) :
    (machine.goTo index).execution.levels = ⟨index, machine.stack⟩ :: machine.execution.lower := by
  obtain ⟨⟨_, _, calls, _, _, _⟩, _, _⟩ := machine
  cases calls <;> rfl

variable {program : Program}

theorem moves_advance (hop : op.goesOn = true) {done : Machine H}
    (habreast : done.execution.Abreast machine.execution) (pushed : List Value)
    (hstack : done.stack = pushed ++ machine.stack.drop op.needs) :
    Moves program op machine.execution.levels done.advance.execution.levels := by
  rw [Machine.advance, levels_goTo, machine.execution.levels_eq_cons, hstack, habreast.lower,
    habreast.pc]
  exact .on pushed hop

theorem moves_push (hop : op.goesOn = true) {taken : Machine H}
    (hexecution : taken.execution = machine.execution.dropOperands op.needs) (value : Value) :
    Moves program op machine.execution.levels (taken.push value).advance.execution.levels := by
  rw [push_eq_setStack]
  refine moves_advance hop ((stays_setStack taken _).abreast.trans ?_) [value] ?_
  · rw [hexecution]
    exact (machine.execution.stays_dropOperands op.needs).abreast
  · rw [stack_setStack, stack, hexecution, Execution.stack_dropOperands]
    rfl

theorem moves_goTo {target : Nat} {done : Machine H}
    (habreast : done.execution.Abreast machine.execution)
    (hstack : done.stack = machine.stack.drop op.needs)
    (htarget : op.jump? = some target ∨ ∃ argc, op.call? = some (argc, target)) :
    Moves program op machine.execution.levels (done.goTo target).execution.levels := by
  rw [levels_goTo, machine.execution.levels_eq_cons, habreast.lower, hstack]
  obtain hjump | ⟨argc, hcall⟩ := htarget
  · exact .jump hjump
  · exact .again hcall

section Asked

variable {request : Request H} {found : Machine H}
  (hr : machine.request? setting op = some (request, found)) (writes : List HostWrite)
  (world : World H)

include hr

theorem stays_asked :
    machine.execution.Stays ((found.asking request).written writes world).execution := by
  refine .trans ?_ (Execution.stays_writes _ writes)
  rw [asking, (sameRun_request? hr).execution]
  exact machine.execution.stays_dropOperands request.argc

theorem stack_asked :
    ((found.asking request).written writes world).stack = machine.stack.drop op.needs := by
  rw [stack, written, Execution.stack_writes, asking, Execution.stack_dropOperands,
    (sameRun_request? hr).execution, argc_eq_needs hr]
  rfl

end Asked

theorem levels_withCalls {call : Frame} {rest : List Frame} (h : machine.execution.calls = call :: rest)
    (value : Value) : (((machine.withCalls rest).setResult value).goTo
      (call.returnTo.getD machine.execution.program.size)).execution.levels =
        machine.execution.lower := by
  rw [Execution.lower, Execution.levels, Execution.levels, h]
  cases rest <;> rfl

theorem moves_execute (h : execute setting machine op = .ok next) :
    Moves machine.execution.program op machine.execution.levels next.execution.levels := by
  have hanswers {request : Request H} {outcome : Except RunError Answer} {said : Machine H}
      (hasked : Asked setting machine op request outcome said) (result : Value) :
      Moves machine.execution.program op machine.execution.levels
        (said.setResult result).advance.execution.levels :=
    moves_advance (Op.goesOn_of_call? hasked.call?)
      (hasked.stays.trans (stays_setResult _ result)).abreast []
      ((stack_setResult _ result).trans hasked.stack_eq)
  cases effect_of_ok h with
  | pushes value hop _ htaken => exact moves_push (Op.goesOn_of_computes hop) htaken.execution value
  | advances _ hop htaken => exact moves_advance hop htaken.stays.abreast [] htaken.stack_eq
  | jumps hjump htaken => exact moves_goTo htaken.stays.abreast htaken.stack_eq (.inl hjump)
  | assigns value htaken =>
    refine moves_advance rfl (htaken.stays.trans (Execution.stays_assign _ _ value)).abreast [] ?_
    rw [stack, Execution.stack_assign]
    exact htaken.stack_eq
  | stops => exact moves_advance rfl (.of_eq rfl) [] rfl
  | waits => exact .stay
  | @enters name argc restart entry hentry =>
    let taken : Machine H := ⟨machine.execution.dropOperands argc, machine.status, machine.world⟩
    have htaken : machine.Takes argc taken := ⟨rfl, rfl⟩
    have hlevels : ((machine.entered argc).goTo entry).execution.levels =
        ⟨entry, (machine.stack.take argc).reverse⟩ ::
          (taken.goTo (machine.execution.pc + 1)).execution.levels := rfl
    rw [hlevels, levels_goTo, htaken.stack_eq, htaken.stays.abreast.lower, machine.execution.levels_eq_cons]
    exact .enter rfl hentry
  | returns value _ htaken hcalls =>
    rw [levels_withCalls hcalls, htaken.stays.abreast.lower, machine.execution.levels_eq_cons]
    exact .leave rfl
  | @ends _ taken value _ htaken hcalls =>
    have habreast := (htaken.stays.trans (stays_setResult taken value)).abreast
    have hlower : machine.execution.lower = [] := by
      rw [← htaken.stays.abreast.lower, Execution.lower, Execution.levels, hcalls]
      rfl
    show Moves _ _ _ ((taken.setResult value).goTo taken.execution.program.size).execution.levels
    rw [levels_goTo, habreast.lower, htaken.stays.program, machine.execution.levels_eq_cons, hlower]
    exact .finish rfl
  | answers result hasked | interrupts result hasked => exact hanswers hasked result
  | @repeats _ request said _ hasked =>
    show Moves _ _ _ (said.goTo request.restart).execution.levels
    exact moves_goTo hasked.stays.abreast hasked.stack_eq (.inr ⟨_, hasked.call?⟩)

variable {instruction : Instruction}

theorem moves_step (h : machine.step setting instruction = .ok next) :
    Moves machine.execution.program instruction.op machine.execution.levels next.execution.levels := by
  obtain ⟨done, hx, rfl⟩ := ok_cases h
  have hmoves : Moves machine.clearMarks.execution.program instruction.op
      machine.clearMarks.execution.levels done.execution.levels := moves_execute hx
  unfold finishStep
  split <;> exact hmoves

theorem moves_fail {error : RunError} {failed : Machine H}
    (hready : machine.clearMarks.Ready instruction.op)
    (h : machine.step setting instruction = .fail error failed)
    (hlost : machine.lost setting instruction = 0) :
    Moves machine.execution.program instruction.op machine.execution.levels
      failed.execution.levels := by
  obtain ⟨limit, -, -, rfl | hdone⟩ | ⟨hx, -⟩ := execution_of_fail hready h
  · exact .stay
  · exact moves_step hdone
  · rw [hx, Execution.levels_writes, hlost, Execution.dropOperands_zero]
    exact .stay

end Machine

/-- What has become of an execution of the program, the newest first: the host has written variables
and has run it, each time with any providers, signals and limits. Where a step has failed, no operands
were lost. -/
inductive Chronicle (program : Program) : List Execution → Prop where
  | start : Chronicle program [.start program]
  | write {execution : Execution} {past : List Execution} (write : HostWrite) :
      Chronicle program (execution :: past) →
      Chronicle program (write.run execution :: execution :: past)
  | step {H : Type} {setting : Setting H} {machine next : Machine H} {instruction : Instruction}
      {past : List Execution} : Chronicle program (machine.execution :: past) →
      machine.next? = some instruction → machine.step setting instruction = .ok next →
      Chronicle program (next.execution :: machine.execution :: past)
  | fail {H : Type} {setting : Setting H} {machine failed : Machine H} {instruction : Instruction}
      {error : RunError} {past : List Execution} : Chronicle program (machine.execution :: past) →
      machine.next? = some instruction → machine.step setting instruction = .fail error failed →
      machine.lost setting instruction = 0 →
      Chronicle program (failed.execution :: machine.execution :: past)

/-- The history has been at `index`, with this stack over the lower levels. It has not left the lower
levels since, and has gone on within the bound. -/
def Visited (history : List Execution) (index bound : Nat) (stack : List Value) (lower : List Level) :
    Prop :=
  ∃ recent visit older, history = recent ++ visit :: older ∧ visit.levels = ⟨index, stack⟩ :: lower ∧
    ∀ execution ∈ recent, ∃ above level, execution.levels = above ++ level :: lower ∧
      (above = [] → index < level.index ∧ level.index ≤ bound)

section Visited

variable {history : List Execution} {execution : Execution} {index bound : Nat} {stack : List Value}
  {above lower : List Level} {level : Level}

theorem visited_self (h : execution.levels = ⟨index, stack⟩ :: lower) :
    Visited (execution :: history) index bound stack lower :=
  ⟨[], execution, history, rfl, h, nofun⟩

theorem Visited.cons (h : Visited history index bound stack lower)
    (hlevels : execution.levels = above ++ level :: lower)
    (hbound : above = [] → index < level.index ∧ level.index ≤ bound) :
    Visited (execution :: history) index bound stack lower := by
  obtain ⟨recent, visit, older, rfl, hvisit, hrecent⟩ := h
  exact ⟨execution :: recent, visit, older, rfl, hvisit,
    List.forall_mem_cons.2 ⟨⟨above, level, hlevels, hbound⟩, hrecent⟩⟩

end Visited

/-- A frame that is among the arguments of a call has begun with them, and what lay on its stack then
is still there. -/
def Begun (program : Program) (shape : Nat → Shape) (history : List Execution) (level : Level)
    (lower : List Level) : Prop :=
  ∀ call argc restart, program.callAt? call = some (argc, restart) → restart < level.index →
    level.index ≤ call → ∃ stack, stack <:+ level.stack ∧
      stack.length = (shape restart).operands ∧ Visited history restart call stack lower

def Traced (program : Program) (shape : Nat → Shape) (history : List Execution) : List Level → Prop
  | [] => True
  | level :: lower => Begun program shape history level lower ∧ Traced program shape history lower

section Traced

variable {program : Program} {shape : Nat → Shape} {table : Table Procedure}
  {history past : List Execution} {execution next : Execution} {instruction : Instruction}
  {level : Level} {lower : List Level}

theorem Begun.cons (h : Begun program shape history level lower)
    (hsuffix : level :: lower <:+ next.levels) :
    Begun program shape (next :: history) level lower := by
  intro call argc restart hcall hlt hle
  obtain ⟨stack, hstack, hlength, hvisited⟩ := h call argc restart hcall hlt hle
  obtain ⟨above, hlevels⟩ := hsuffix
  exact ⟨stack, hstack, hlength, hvisited.cons hlevels.symm fun _ => ⟨hlt, hle⟩⟩

theorem Traced.cons {levels : List Level} (h : Traced program shape history levels)
    (hsuffix : levels <:+ next.levels) : Traced program shape (next :: history) levels := by
  induction levels with
  | nil => trivial
  | cons level lower ih =>
    exact ⟨h.1.cons hsuffix, ih h.2 ((List.suffix_cons level lower).trans hsuffix)⟩

theorem suffix_drop {small large : List Value} {count : Nat} (h : small <:+ large)
    (hlength : small.length + count ≤ large.length) : small <:+ large.drop count := by
  obtain ⟨front, rfl⟩ := h
  rw [List.length_append] at hlength
  rw [List.drop_append_of_le_length (by omega)]
  exact List.suffix_append _ _

theorem begun_entry (hc : Compiled program shape table) (hl : program.WellLaid) {name : String}
    {entry : Nat} (hentry : program.entry? name = some entry) (args : List Value) :
    Begun program shape history ⟨entry, args⟩ lower := by
  intro call argc restart hcall hlt hle
  obtain ⟨_, _, _, -, hcode, -⟩ := hc.standsAt hentry
  have hexpect := hcode.1
  obtain rfl | hlt' := Nat.eq_or_lt_of_le hle
  · rw [Program.callAt?, hexpect] at hcall
    cases hcall
  · obtain ⟨found, hat, hcomputes, -⟩ := hl.exists_argument hc hcall (Nat.le_of_lt hlt) hlt'
    obtain rfl := Option.some.inj (hat.symm.trans hexpect)
    cases hcomputes

theorem begun_of_clear {index : Nat} (h : program.Clear index) (stack : List Value) :
    Begun program shape history ⟨index, stack⟩ lower := fun call argc restart hcall hlt hle =>
  absurd (h call argc restart hcall hle) (Nat.not_le.2 hlt)

section Step

variable (hc : Compiled program shape table) (hl : program.WellLaid)
  (hrest : execution.Resting program shape table) (hi : execution.instruction? = some instruction)
  {index : Nat} {stack : List Value} (hlevels : execution.levels = ⟨index, stack⟩ :: lower)
  (h : Begun program shape (execution :: past) ⟨index, stack⟩ lower)

include hc hl hrest hi hlevels h

theorem Begun.advance {call argc restart : Nat} (hcall : program.callAt? call = some (argc, restart))
    (hle : restart ≤ index) (hlt : index < call) :
    ∃ kept, kept <:+ stack.drop instruction.op.needs ∧ kept.length = (shape restart).operands ∧
      Visited (execution :: past) restart call kept lower := by
  obtain ⟨⟨rfl, rfl⟩, -⟩ : (execution.pc = index ∧ execution.frame.stack = stack) ∧ _ := by
    simpa [Execution.levels_eq_cons] using hlevels
  obtain ⟨found, hat, hcomputes, habove, -⟩ := hl.exists_argument hc hcall hle hlt
  obtain rfl : found = instruction := by
    rw [Execution.instruction?, hrest.runs] at hi
    exact Option.some.inj (hat.symm.trans hi)
  have hlength : execution.frame.stack.length = (shape execution.pc).operands :=
    (hrest.settled_of_straight hi (Op.straight_of_computes hcomputes)).nested.length_stack
  obtain rfl | hlt' := Nat.eq_or_lt_of_le hle
  · have hzero : found.op.needs = 0 := by omega
    rw [hzero, List.drop_zero]
    exact ⟨_, List.suffix_refl _, hlength, visited_self hlevels⟩
  · obtain ⟨kept, hsuffix, hheight, hvisited⟩ := h call argc restart hcall hlt' (Nat.le_of_lt hlt)
    exact ⟨kept, suffix_drop hsuffix (by rw [hheight, hlength]; exact habove), hheight, hvisited⟩

theorem Begun.on (pushed : List Value) : Begun program shape (execution :: past)
    ⟨index + 1, pushed ++ stack.drop instruction.op.needs⟩ lower := by
  intro call argc restart hcall hlt hle
  obtain ⟨kept, hsuffix, hrest⟩ :=
    h.advance hc hl hrest hi hlevels hcall (Nat.le_of_lt_succ hlt) hle
  exact ⟨kept, hsuffix.trans (List.suffix_append _ _), hrest⟩

theorem Begun.again {again back : Nat} (hagain : instruction.op.call? = some (again, back)) :
    Begun program shape (execution :: past) ⟨back, stack.drop instruction.op.needs⟩ lower := by
  intro call argc restart hcall hlt hle
  obtain ⟨⟨rfl, -⟩, -⟩ : (execution.pc = index ∧ execution.frame.stack = stack) ∧ _ := by
    simpa [Execution.levels_eq_cons] using hlevels
  have hhere : program.callAt? execution.pc = some (again, back) := by
    rw [Execution.instruction?, hrest.runs] at hi
    rw [Program.callAt?, hi]
    exact hagain
  have hback := hl.restart_le hhere
  have hbehind : execution.pc < call := by
    by_contra hnot
    obtain rfl | hlt' := Nat.eq_or_lt_of_le (Nat.le_of_not_lt hnot)
    · rw [hhere] at hcall
      cases hcall
      exact Nat.lt_irrefl _ hlt
    · -- A call among the arguments takes its own from there.
      obtain ⟨found, hat, -, -, hcalls⟩ := hl.exists_argument hc hhere hle hlt'
      rw [Program.callAt?, hat] at hcall
      exact Nat.not_le.2 hlt (hcalls argc restart hcall)
  exact h.advance hc hl hrest hi hlevels hcall ((Nat.le_of_lt hlt).trans hback) hbehind

end Step

theorem Traced.step (hc : Compiled program shape table) (hl : program.WellLaid)
    (hrest : execution.Resting program shape table)
    (hi : execution.instruction? = some instruction)
    (h : Traced program shape (execution :: past) execution.levels)
    (hmoves : Moves program instruction.op execution.levels next.levels) :
    Traced program shape (next :: execution :: past) next.levels := by
  generalize hbefore : execution.levels = before at h hmoves
  generalize hafter : next.levels = after at hmoves
  refine Traced.cons ?_ (hafter ▸ List.suffix_refl _)
  cases hmoves with
  | stay => exact h
  | on pushed _ => exact ⟨h.1.on hc hl hrest hi hbefore pushed, h.2⟩
  | jump hjump =>
    have hat : program.code[execution.pc]? = some instruction := by
      rw [← hi, Execution.instruction?, hrest.runs]
    exact ⟨begun_of_clear ((hl _ _ hat).clear _ hjump) _, h.2⟩
  | again hagain => exact ⟨h.1.again hc hl hrest hi hbefore hagain, h.2⟩
  | enter _ hentry => exact ⟨begun_entry hc hl hentry _, h.1.on hc hl hrest hi hbefore [], h.2⟩
  | leave _ => exact h.2
  | finish _ => exact ⟨begun_of_clear program.clear_size _, trivial⟩

end Traced

theorem Machine.kept_of_resting {H : Type} {machine : Machine H}
    (h : machine.execution.Resting program shape table) (hn : machine.next? = some instruction) :
    machine.Kept program shape table := by
  obtain hs | he | he := h
  · exact .inl hs
  · exact .inr (.inl ⟨running_of_next? hn, he⟩)
  · cases he.instruction?_eq_none.symm.trans (instruction?_of_next? hn)

theorem Chronicle.traced {history : List Execution} (h : Chronicle program history)
    (hc : Compiled program shape table) (hl : program.WellLaid) (hstart : shape 0 = ⟨0, .top⟩) :
    ∀ execution past, history = execution :: past →
      execution.Resting program shape table ∧ Traced program shape history execution.levels := by
  induction h with
  | start =>
    rintro _ _ ⟨⟩
    exact ⟨.inl (Execution.settled_start hstart), fun _ _ _ _ hlt => absurd hlt (Nat.not_lt_zero _),
      trivial⟩
  | @write execution past write _ ih =>
    rintro _ _ ⟨⟩
    obtain ⟨hrest, htraced⟩ := ih execution past rfl
    have hlevels : (write.run execution).levels = execution.levels := execution.levels_writes [write]
    refine ⟨hrest.of_alike (execution.alike_write write), ?_⟩
    rw [hlevels]
    exact htraced.cons (hlevels ▸ List.suffix_refl _)
  | @step _ setting machine next instruction past _ hn hs ih =>
    rintro _ _ ⟨⟩
    obtain ⟨hrest, htraced⟩ := ih machine.execution past rfl
    have hstep : (machine.step setting instruction).Meets _ _ :=
      Machine.meets_step hc (Machine.kept_of_resting hrest hn) hn
    rw [hs] at hstep
    refine ⟨Machine.Kept.resting hstep, ?_⟩
    exact htraced.step hc hl hrest (Machine.instruction?_of_next? hn) (hrest.runs ▸ Machine.moves_step hs)
  | @fail _ setting machine failed instruction error past _ hn hs hlost ih =>
    rintro _ _ ⟨⟩
    obtain ⟨hrest, htraced⟩ := ih machine.execution past rfl
    have hkept := Machine.kept_of_resting hrest hn
    have hready : machine.clearMarks.Ready instruction.op := hkept.clearMarks.ready hc hn
    refine ⟨hkept.resting_of_fail hc hn hs hlost, ?_⟩
    exact htraced.step hc hl hrest (Machine.instruction?_of_next? hn)
      (hrest.runs ▸ Machine.moves_fail hready hs hlost)

theorem Chronicle.visited_call {execution : Execution} {past : List Execution} {argc restart : Nat}
    (h : Chronicle program (execution :: past)) (hc : Compiled program shape table)
    (hl : program.WellLaid) (hstart : shape 0 = ⟨0, .top⟩)
    (hi : execution.instruction? = some instruction)
    (hcall : instruction.op.call? = some (argc, restart)) :
    Visited (execution :: past) restart execution.pc (execution.frame.stack.drop argc)
      execution.lower := by
  obtain ⟨hrest, htraced⟩ := h.traced hc hl hstart execution past rfl
  have hat : program.callAt? execution.pc = some (argc, restart) := by
    rw [Program.callAt?, ← hrest.runs, ← Execution.instruction?, hi]
    exact hcall
  have hlength : execution.frame.stack.length = (shape restart).operands + argc :=
    (hrest.settled_of_straight hi
      (Op.straight_of_computes (Op.computes_of_call? hcall))).nested.length_stack.trans
      (hc.operands_callAt? hat)
  rw [execution.levels_eq_cons] at htraced
  obtain rfl | hlt := Nat.eq_or_lt_of_le (hl.restart_le hat)
  · have hzero : argc = 0 := by
      have hoperands := hc.operands_callAt? hat
      omega
    rw [hzero, List.drop_zero]
    exact visited_self execution.levels_eq_cons
  · obtain ⟨stack, hsuffix, hheight, hvisited⟩ :=
      htraced.1 _ argc restart hat hlt (Nat.le_refl _)
    have hcount : execution.frame.stack.length - stack.length = argc := by omega
    rw [← hcount, ← List.suffix_iff_eq_drop.1 hsuffix]
    exact hvisited

namespace Machine

variable {H : Type} {setting : Setting H} {machine found : Machine H} {request : Request H}
  {instruction : Instruction} {extra : Option Value}

def putOff (setting : Setting H) (machine : Machine H) (request : Request H) (extra : Option Value) :
    Machine H :=
  ((((machine.asking request).written (machine.reply setting request).1.writes
    (machine.reply setting request).2).goTo request.restart).interrupted .before extra).countStep

theorem step_of_pause {done : Machine H} (hlimit : machine.limitReached? setting = none)
    (hx : execute setting machine.clearMarks instruction.op = .ok done)
    (hwaiting : done.status.waitingFor = none) (hpaused : done.status.running = false) :
    machine.step setting instruction = .ok done.countStep := by
  have hrunning : done.countStep.status.running = false := hpaused
  simp only [step, hlimit, hx, Outcome.atPos, hwaiting, Option.isSome_none, Bool.false_eq_true,
    reduceIte, checkLimit, hrunning, Bool.false_and]
  split <;> rfl

theorem step_of_before (hlimit : machine.limitReached? setting = none)
    (hr : machine.clearMarks.request? setting instruction.op = some (request, found))
    (hargs : request.argc ≤ machine.stack.length)
    (htarget : request.restart ≤ machine.execution.program.size)
    (hanswer : (found.reply setting request).1.outcome = .ok (.before extra)) :
    machine.step setting instruction = .ok (found.putOff setting request extra) := by
  have hstack : ¬ found.stack.length < request.argc := by
    rw [stack_of_request? hr]
    exact Nat.not_lt.2 hargs
  have hwaiting : found.status.waitingFor = none := by rw [(sameRun_request? hr).status]; rfl
  have hsize : ¬ ((found.asking request).written (found.reply setting request).1.writes
      (found.reply setting request).2).execution.program.size < request.restart := by
    rw [(stays_asked hr _ _).program]
    exact Nat.not_lt.2 htarget
  refine step_of_pause hlimit ?_ hwaiting rfl
  rw [execute_of_request? hr, if_neg hstack, conclude_eq, hanswer]
  dsimp only
  rw [jump, if_neg hsize]

theorem levels_putOff (hr : machine.clearMarks.request? setting instruction.op = some (request, found)) :
    (found.putOff setting request extra).execution.levels =
      ⟨request.restart, machine.stack.drop request.argc⟩ :: machine.execution.lower := by
  have hlevels : (found.putOff setting request extra).execution.levels = _ :=
    levels_goTo ((found.asking request).written (found.reply setting request).1.writes
      (found.reply setting request).2) request.restart
  rw [hlevels, stack_asked hr, (stays_asked hr _ _).abreast.lower, argc_eq_needs hr]
  rfl

end Machine

theorem Execution.pc_of_levels {execution : Execution} {level : Level} {lower : List Level}
    (h : execution.levels = level :: lower) : execution.pc = level.index := by
  rw [levels_eq_cons] at h
  exact congrArg Level.index (List.cons.inj h).1

theorem Chronicle.exists_visit {H : Type} {setting : Setting H} {machine found : Machine H}
    {request : Request H} (extra : Option Value) {past : List Execution}
    (h : Chronicle program (machine.execution :: past)) (hc : Compiled program shape table)
    (hl : program.WellLaid) (hstart : shape 0 = ⟨0, .top⟩) (hn : machine.next? = some instruction)
    (hr : machine.clearMarks.request? setting instruction.op = some (request, found)) :
    ∃ recent visit older, machine.execution :: past = recent ++ visit :: older ∧
      visit.pc = request.restart ∧
      (found.putOff setting request extra).execution.frames.map Frame.stack =
        visit.frames.map Frame.stack ∧
      ∀ execution ∈ recent, visit.depth ≤ execution.depth ∧ (execution.depth = visit.depth →
        request.restart < execution.pc ∧ execution.pc ≤ machine.execution.pc) := by
  obtain ⟨recent, visit, older, hhistory, hvisit, hrecent⟩ :=
    h.visited_call hc hl hstart (Machine.instruction?_of_next? hn) (Machine.call?_of_request? hr)
  refine ⟨recent, visit, older, hhistory, Execution.pc_of_levels hvisit, ?_, ?_⟩
  · rw [Execution.stacks_eq_reverse, Execution.stacks_eq_reverse, Machine.levels_putOff hr, hvisit]
    rfl
  · intro execution hmem
    obtain ⟨above, level, hlevels, hbound⟩ := hrecent execution hmem
    have hdepth : execution.depth = above.length + visit.depth := by
      rw [← Execution.length_levels, ← Execution.length_levels, hlevels, hvisit, List.length_append]
      rfl
    refine ⟨by omega, fun hsame => ?_⟩
    obtain rfl : above = [] := List.length_eq_zero_iff.1 (by omega)
    rw [Execution.pc_of_levels hlevels]
    exact hbound rfl

end DurableScript
