import DurableScript.Proofs.CallFrames
import DurableScript.Proofs.CycleLimit

namespace DurableScript

variable {H : Type}

def Setting.within (limit? : Option Nat) (setting : Setting H) : Setting H :=
  { setting with limits := { setting.limits with maxCallDepth := limit? } }

def Runner.within (limit? : Option Nat) (runner : Runner H) : Runner H :=
  { runner with limits := { runner.limits with maxCallDepth := limit? } }

theorem Setting.within_self {setting : Setting H} {limit? : Option Nat}
    (h : setting.limits.maxCallDepth = limit?) : setting.within limit? = setting := by
  subst h
  rfl

namespace Machine

variable {setting : Setting H} {machine next last : Machine H} {instruction : Instruction} {op : Op}
  {limit : Nat} {more? : Option Nat}

def KeepsWithin (setting : Setting H) (limit : Nat) (machine : Machine H) : Prop :=
  ∀ last, Reaches setting machine last → last.execution.calls.length ≤ limit ∧
    ∀ instruction, last.next? = some instruction →
      (last.step setting instruction).machine.execution.calls.length ≤ limit

/-- The machine comes to a call of a procedure with as many calls open as the limit allows. -/
structure Cramped (setting : Setting H) (limit : Nat) (machine : Machine H)
    (instruction : Instruction) : Prop where
  steps : machine.limitReached? setting = none
  entry : ∃ entry, instruction.op.entry? machine.execution.program = some entry
  depth : limit < machine.execution.depth

theorem execute_within (setting : Setting H) (limit : Nat) (machine : Machine H) (op : Op) :
    execute (setting.within (some limit)) machine op =
      if (op.entry? machine.execution.program).isSome ∧ limit < machine.execution.depth then
        machine.failWith (.callDepth limit)
      else execute (setting.within none) machine op := by
  cases op with
  | call name argc restart =>
    rw [execute, execute, Op.entry?]
    cases machine.execution.program.entry? name with
    | none => rfl
    | some entry =>
      simp only [callProcedure, Setting.within, Option.isSome_some, true_and]
      by_cases hdeep : limit < machine.execution.depth
      · simp only [if_pos hdeep]
      · simp only [if_neg hdeep]
  | ret hasValue => cases hasValue <;> rfl
  | _ => rfl

theorem step_of_cramped (h : machine.Cramped setting limit instruction) :
    machine.step (setting.within (some limit)) instruction =
      .fail ⟨.callDepth limit, instruction.pos⟩ machine.clearMarks := by
  obtain ⟨entry, hentry⟩ := h.entry
  have hsteps : machine.limitReached? (setting.within (some limit)) = none := h.steps
  have hopen : (instruction.op.entry? machine.clearMarks.execution.program).isSome ∧
      limit < machine.clearMarks.execution.depth := ⟨Option.isSome_of_eq_some hentry, h.depth⟩
  rw [step, hsteps, execute_within, if_pos hopen]
  rfl

theorem step_of_not_cramped (h : ¬ machine.Cramped setting limit instruction) :
    machine.step (setting.within (some limit)) instruction =
      machine.step (setting.within none) instruction := by
  have hsame : machine.limitReached? (setting.within (some limit)) =
      machine.limitReached? (setting.within none) := rfl
  rw [step, step, hsame]
  cases hsteps : machine.limitReached? (setting.within none) with
  | some steps => rfl
  | none =>
    have hroom : ¬ ((instruction.op.entry? machine.clearMarks.execution.program).isSome ∧
        limit < machine.clearMarks.execution.depth) := fun hopen =>
      h ⟨hsteps, Option.isSome_iff_exists.1 hopen.1, hopen.2⟩
    rw [execute_within, if_neg hroom]
    rfl

theorem step_of_within (hmore : Exceeds limit more?)
    (hs : machine.step (setting.within (some limit)) instruction = .ok next) :
    machine.step (setting.within more?) instruction = .ok next := by
  have hroom : ¬ machine.Cramped setting limit instruction := fun hcramped => by
    rw [step_of_cramped hcramped] at hs
    cases hs
  rw [step_of_not_cramped hroom] at hs
  cases more? with
  | none => exact hs
  | some more =>
    rw [step_of_not_cramped fun hcramped => hroom ⟨hcramped.steps, hcramped.entry,
      (hmore more rfl).trans hcramped.depth⟩]
    exact hs

theorem Reaches.of_within (hmore : Exceeds limit more?)
    (h : Reaches (setting.within (some limit)) machine last) :
    Reaches (setting.within more?) machine last := by
  induction h with
  | refl => exact .refl
  | step hn hs _ ih => exact .step hn (step_of_within hmore hs) ih

theorem calls_step_le (setting : Setting H) (hn : machine.next? = some instruction)
    (h : machine.execution.calls.length ≤ limit) :
    (machine.step (setting.within (some limit)) instruction).machine.execution.calls.length ≤
      limit := by
  by_cases hcramped : machine.Cramped setting limit instruction
  · rw [step_of_cramped hcramped]
    exact h
  cases hsteps : machine.limitReached? (setting.within (some limit)) with
  | some steps =>
    rw [step, hsteps]
    exact h
  | none =>
    obtain ⟨steps, hstep⟩ := exists_machine_step hsteps instruction
    have hi : machine.clearMarks.execution.instruction? = some instruction := instruction?_of_next? hn
    have hdepth := (shift_execute (setting.within (some limit)) hi).2
    rw [hstep]
    cases hentry : instruction.op.entry? machine.clearMarks.execution.program with
    | none =>
      rw [hentry] at hdepth
      exact Nat.le_of_succ_le_succ (hdepth.trans (Nat.succ_le_succ h))
    | some entry =>
      have hroom : machine.execution.depth ≤ limit :=
        Nat.not_lt.1 fun hdeep => hcramped ⟨hsteps, ⟨entry, hentry⟩, hdeep⟩
      rw [hentry] at hdepth
      exact Nat.le_of_succ_le_succ (hdepth.trans (Nat.succ_le_succ hroom))

theorem keepsWithin (setting : Setting H) (h : machine.execution.calls.length ≤ limit) :
    KeepsWithin (setting.within (some limit)) limit machine := by
  intro last hr
  have hlast : last.execution.calls.length ≤ limit := by
    refine hr.preserves (P := fun machine => machine.execution.calls.length ≤ limit) ?_ h
    intro machine next instruction hle hn hs
    have hstep := calls_step_le setting hn hle
    rwa [hs] at hstep
  exact ⟨hlast, fun instruction hn => calls_step_le setting hn hlast⟩

theorem depth_callProcedure (hlimit : setting.limits.maxCallDepth = none) {argc : Nat}
    (h : argc ≤ machine.stack.length) (entry : Nat) :
    (callProcedure setting machine entry argc).machine.execution.depth =
      machine.execution.depth + 1 := by
  have hjump (called : Machine H) : (called.jump entry).machine.execution.depth =
      called.execution.depth := by
    unfold jump
    dsimp only
    split <;> rfl
  rw [callProcedure, hlimit]
  dsimp only
  rw [popArgsThen, if_neg (Nat.not_lt.2 h), hjump]
  exact congrArg (· + 1) (stays_setStack machine _).depth_eq

theorem Cramped.opens (h : machine.Cramped setting limit instruction) :
    (machine.step (setting.within none) instruction).machine.execution.calls.length =
        machine.execution.calls.length + 1 ∨
      machine.stack.length < instruction.op.needs ∧
        (machine.step (setting.within none) instruction).error? =
          some ⟨.stackUnderflow, instruction.pos⟩ := by
  obtain ⟨op, pos⟩ := instruction
  obtain ⟨hsteps, ⟨entry, hentry⟩, -⟩ := h
  cases op with
  | call name argc restart =>
    have hentry : machine.clearMarks.execution.program.entry? name = some entry := hentry
    have hx : execute (setting.within none) machine.clearMarks (.call name argc restart) =
        callProcedure (setting.within none) machine.clearMarks entry argc := by
      rw [execute, hentry]
    have hsteps : machine.limitReached? (setting.within none) = none := hsteps
    by_cases henough : argc ≤ machine.stack.length
    · obtain ⟨steps, hstep⟩ := exists_machine_step hsteps ⟨.call name argc restart, pos⟩
      have henough : argc ≤ machine.clearMarks.stack.length := henough
      have hdepth : (callProcedure (setting.within none) machine.clearMarks entry
          argc).machine.execution.depth = machine.execution.depth + 1 :=
        depth_callProcedure rfl henough entry
      rw [← hx] at hdepth
      rw [hstep]
      exact .inl (Nat.succ_inj.1 hdepth)
    · refine .inr ⟨Nat.not_le.1 henough, ?_⟩
      have hlacks : callProcedure (setting.within none) machine.clearMarks entry argc =
          (machine.clearMarks.setStack []).failWith .stackUnderflow :=
        if_pos (Nat.not_le.1 henough)
      rw [step, hsteps, hx, hlacks]
      rfl
  | _ => cases hentry

theorem hostReports_of_step_fail {error : RunError} {other : Nat}
    (hs : machine.step (setting.within none) instruction = .fail error next)
    (hfault : error.fault = .callDepth other) :
    machine.clearMarks.HostReports setting instruction.op error.fault := by
  obtain ⟨op, pos⟩ := instruction
  have houtcome := stepOutcome (setting.within none) machine ⟨op, pos⟩
  rw [hs] at houtcome
  cases houtcome with
  | reached | spends => cases hfault
  | fails _ hx =>
    rw [RunError.fault_locate] at hfault ⊢
    have heffect := effect_execute (setting.within none) machine.clearMarks op
    rw [show execute _ _ op = _ from hx] at heffect
    cases heffect with
    | refuses hasked =>
      obtain ⟨found, hr, -, hsaid, -⟩ := hasked
      exact ⟨_, found, _, hr, hsaid, rfl⟩
    | @fails _ _ fault _ _ hoperational =>
      obtain rfl : fault = .callDepth other := hfault
      cases hoperational
    | deepens _ hlimit => cases hlimit
    | _ => cases hfault

def Roomy (setting : Setting H) (limit : Nat) (machine : Machine H) : Prop :=
  ∀ last instruction, Reaches (setting.within (some limit)) machine last →
    last.next? = some instruction → ¬ last.Cramped setting limit instruction

section

variable (h : machine.Roomy setting limit)
include h

theorem Roomy.step_eq (hn : machine.next? = some instruction) :
    machine.step (setting.within (some limit)) instruction =
      machine.step (setting.within none) instruction :=
  step_of_not_cramped (h machine instruction .refl hn)

theorem Roomy.of_step (hn : machine.next? = some instruction)
    (hs : machine.step (setting.within none) instruction = .ok next) : next.Roomy setting limit :=
  fun last instruction hr => h last instruction (.step hn ((h.step_eq hn).trans hs) hr)

theorem Roomy.reaches (hr : Reaches (setting.within none) machine last) :
    Reaches (setting.within (some limit)) machine last := by
  induction hr with
  | refl => exact .refl
  | step hn hs _ ih => exact .step hn ((h.step_eq hn).trans hs) (ih (h.of_step hn hs))

theorem Roomy.runFor_eq (fuel : Nat) :
    runFor (setting.within (some limit)) fuel machine = runFor (setting.within none) fuel machine := by
  induction fuel generalizing machine with
  | zero => rw [runFor, runFor]
  | succ fuel ih =>
    cases hn : machine.next? with
    | none => rw [runFor_of_next?_eq_none hn, runFor_of_next?_eq_none hn]
    | some instruction =>
      rw [runFor_succ hn, runFor_succ hn, h.step_eq hn]
      cases hs : machine.step (setting.within none) instruction with
      | fail error failed => rfl
      | ok next => exact ih (h.of_step hn hs)

end

theorem runFor_clearMarks (hsteps : machine.limitReached? setting = none)
    (hn : machine.next? = some instruction) (fuel : Nat) :
    runFor setting fuel machine.clearMarks = runFor setting fuel machine := by
  have hn' : machine.clearMarks.next? = some instruction := hn
  have hsteps' : machine.clearMarks.limitReached? setting = none := hsteps
  have hstep : machine.clearMarks.step setting instruction = machine.step setting instruction := by
    rw [step, step, hsteps, hsteps']
    rfl
  cases fuel with
  | zero => rw [runFor, runFor, hn, hn']
  | succ fuel => rw [runFor_succ hn, runFor_succ hn', hstep]

theorem KeepsWithin.calls_le {fuel : Nat} {outcome : Outcome H} (h : KeepsWithin setting limit machine)
    (hrun : runFor setting fuel machine = some outcome) :
    outcome.machine.execution.calls.length ≤ limit := by
  cases outcome with
  | ok last =>
    obtain ⟨paused, hr, -, rfl⟩ := reaches_of_runFor_ok hrun
    rw [Outcome.machine, execution_settle]
    exact (h paused hr).1
  | fail error failed =>
    obtain ⟨last, instruction, hr, hn, hs⟩ := reaches_of_runFor_fail hrun
    have hfailed := (h last hr).2 instruction hn
    rwa [hs] at hfailed

end Machine

namespace Runner.Resumes

open Machine

variable {runner : Runner H} {limit : Nat} {execution? : Option Execution} {execution : Execution}
  {world : World H}

theorem within (h : runner.Resumes execution? execution) (limit? : Option Nat) :
    (runner.within limit?).Resumes execution? execution := by
  cases execution? <;> exact h

theorem resume_of_roomy (h : runner.Resumes execution? execution)
    (hlimit : runner.limits.maxCallDepth = some limit)
    (hroomy : Roomy runner.setting limit ⟨execution, .started, world⟩) (fuel : Nat) :
    runner.resume fuel world execution? =
      ((runner.within none).resume fuel world execution?).map fun result =>
        (result.1, result.2.1.within (some limit), result.2.2) := by
  have hself : runner.within (some limit) = runner := by
    rw [Runner.within, ← hlimit]
  have hlimit : runner.setting.limits.maxCallDepth = some limit := hlimit
  have hrun := hroomy.runFor_eq fuel
  rw [Setting.within_self hlimit] at hrun
  rw [h.resume_eq_map, (h.within none).resume_eq_map, hrun, Option.map_map]
  refine congrFun (congrArg Option.map (funext fun outcome => ?_)) _
  nth_rewrite 1 [← hself]
  rfl

theorem resume_of_cramped {last : Machine H} {instruction : Instruction}
    (h : runner.Resumes execution? execution) (hlimit : runner.limits.maxCallDepth = some limit)
    (hr : Reaches runner.setting ⟨execution, .started, world⟩ last)
    (hn : last.next? = some instruction) (hcramped : last.Cramped runner.setting limit instruction) :
    ∃ next, (∃ taken, ∀ fuel, runner.resume (fuel + taken) world execution? =
        some (some ⟨.callDepth limit, instruction.pos⟩, next, last.world)) ∧
      next.execution = last.execution.unmarked ∧
      ∀ more?, Exceeds limit more? → ∃ taken, ∀ fuel,
        (next.within more?).resume fuel last.world none =
          (runner.within more?).resume (fuel + taken) world execution? := by
  have hself : runner.setting.within (some limit) = runner.setting := Setting.within_self hlimit
  have hstep := step_of_cramped hcramped
  rw [hself] at hstep
  refine ⟨((runner.holding execution).absorb (.fail ⟨.callDepth limit, instruction.pos⟩
    last.clearMarks)).1, ?_, rfl, fun more? hmore => ?_⟩
  · obtain ⟨taken, htaken⟩ := hr.runFor
    refine ⟨taken + 1, fun fuel => ?_⟩
    rw [h.resume_eq_map, Nat.add_comm taken, ← Nat.add_assoc, htaken, runFor_succ hn, hstep]
    rfl
  · have hstarted : last.status = .started := hr.status_eq rfl (running_of_next? hn)
    have hclear : last.clearMarks = ⟨last.execution.unmarked, .started, last.world⟩ := by
      rw [clearMarks, hstarted]
      rfl
    rw [← hself] at hr
    obtain ⟨taken, htaken⟩ := (hr.of_within hmore).runFor
    have hsteps : last.limitReached? (runner.within more?).setting = none := hcramped.steps
    have hgoes (fuel : Nat) : runFor (runner.within more?).setting (fuel + taken)
          ⟨execution, .started, world⟩ =
        runFor (runner.within more?).setting fuel ⟨last.execution.unmarked, .started, last.world⟩ := by
      rw [← hclear, runFor_clearMarks hsteps hn]
      exact htaken fuel
    refine ⟨taken, fun fuel => ?_⟩
    rw [(h.within more?).resume_eq_map, hgoes]
    rfl

end Runner.Resumes

open Machine in
/-- A run under a limit on open calls that starts within it stays within it, also where it fails. It
fails by the limit just when the run without one comes to a call of a procedure with as many calls open
as the limit allows: it stops there with all operands in place and the same world, and resumed from
there under a higher limit it goes on as if that limit had held from the beginning. Without a limit the
call opens one more frame, or it lacks arguments, and a compiled program lacks none as long as no
failed step has lost any. Otherwise the run is the one without a limit, which stays within the limit,
too, and then only a provider can have reported that a limit was exceeded. -/
theorem call_depth_limit_is_exact {runner : Runner H} {limit : Nat} {execution? : Option Execution}
    {execution : Execution} (hlimit : runner.limits.maxCallDepth = some limit)
    (hresumes : runner.Resumes execution? execution) (hdepth : execution.calls.length ≤ limit)
    (world : World H) :
    KeepsWithin runner.setting limit ⟨execution, .started, world⟩ ∧
    (∀ fuel error? next after, runner.resume fuel world execution? = some (error?, next, after) →
      next.execution.calls.length ≤ limit) ∧
    ((∃ last instruction next,
        Reaches (runner.within none).setting ⟨execution, .started, world⟩ last ∧
        last.next? = some instruction ∧ last.Cramped runner.setting limit instruction ∧
        last.execution.calls.length = limit ∧
        (∃ taken, ∀ fuel, runner.resume (fuel + taken) world execution? =
          some (some ⟨.callDepth limit, instruction.pos⟩, next, last.world)) ∧
        next.execution = last.execution.unmarked ∧
        (∀ more?, Exceeds limit more? → ∃ taken, ∀ fuel,
          (next.within more?).resume fuel last.world none =
            (runner.within more?).resume (fuel + taken) world execution?) ∧
        let free := last.step (runner.within none).setting instruction
        (free.machine.execution.calls.length = limit + 1 ∨
          last.stack.length < instruction.op.needs ∧
            free.error? = some ⟨.stackUnderflow, instruction.pos⟩) ∧
        ∀ (tree : Node) before program, (tree.compile before = .ok program ∨
          tree.compileExpression before = .ok program) → Retried (.start program) execution →
            free.machine.execution.calls.length = limit + 1) ∨
      KeepsWithin (runner.within none).setting limit ⟨execution, .started, world⟩ ∧
      (∀ fuel, runner.resume fuel world execution? =
        ((runner.within none).resume fuel world execution?).map fun result =>
          (result.1, result.2.1.within (some limit), result.2.2)) ∧
      ∀ fuel error next after other,
        runner.resume fuel world execution? = some (some error, next, after) →
        error.fault = .callDepth other → ∃ reached instruction,
          Reaches runner.setting ⟨execution, .started, world⟩ reached ∧
          reached.next? = some instruction ∧
          reached.clearMarks.HostReports runner.setting instruction.op error.fault) := by
  have hself : runner.setting.within (some limit) = runner.setting := Setting.within_self hlimit
  have hkeeps : KeepsWithin runner.setting limit ⟨execution, .started, world⟩ :=
    hself ▸ keepsWithin runner.setting hdepth
  refine ⟨hkeeps, fun fuel error? next after hrun => ?_, ?_⟩
  · rw [hresumes.resume_eq_map] at hrun
    obtain ⟨outcome, houtcome, hresult⟩ := Option.map_eq_some_iff.1 hrun
    cases hresult
    exact hkeeps.calls_le houtcome
  by_cases hroomy : Roomy runner.setting limit ⟨execution, .started, world⟩
  · have hfree {last : Machine H}
        (hr : Reaches (runner.within none).setting ⟨execution, .started, world⟩ last) :
        Reaches runner.setting ⟨execution, .started, world⟩ last := hself ▸ hroomy.reaches hr
    have hsame {last : Machine H} {instruction : Instruction}
        (hr : Reaches runner.setting ⟨execution, .started, world⟩ last)
        (hn : last.next? = some instruction) : last.step runner.setting instruction =
          last.step (runner.within none).setting instruction := by
      rw [← hself] at hr
      have hstep := step_of_not_cramped (hroomy last instruction hr hn)
      rwa [hself] at hstep
    refine .inr ⟨fun last hr => ⟨(hkeeps last (hfree hr)).1, fun instruction hn => ?_⟩,
      hresumes.resume_of_roomy hlimit hroomy, fun fuel error next after other hrun hfault => ?_⟩
    · rw [← hsame (hfree hr) hn]
      exact (hkeeps last (hfree hr)).2 instruction hn
    · obtain ⟨reached, instruction, failed, hr, hn, hs, -⟩ := hresumes.exists_fail hrun
      rw [hsame hr hn] at hs
      exact ⟨reached, instruction, hr, hn, hostReports_of_step_fail hs hfault⟩
  · simp only [Roomy, not_forall, not_not] at hroomy
    obtain ⟨last, instruction, hr, hn, hcramped⟩ := hroomy
    have hmost : Exceeds limit none := nofun
    have hfree := hr.of_within hmost
    rw [hself] at hr
    have hcalls : last.execution.calls.length = limit :=
      Nat.le_antisymm (hkeeps last hr).1 (Nat.le_of_lt_succ hcramped.depth)
    have hopens := hcramped.opens
    rw [hcalls] at hopens
    obtain ⟨next, hfails, hnext, hmore⟩ := hresumes.resume_of_cramped hlimit hr hn hcramped
    refine .inl ⟨last, instruction, next, hfree, hn, hcramped, hcalls, hfails, hnext, hmore, hopens,
      fun tree before program hcompile hretried => hopens.resolve_right fun hlacks => ?_⟩
    obtain ⟨shape, table, hc, hstart⟩ := Program.exists_compiled hcompile
    have hrest := hretried.resting hc (.inl (Execution.settled_start hstart))
    have hready := (hr.kept_of_next? hc hrest hn).ready hc hn
    exact absurd hready.operands (Nat.not_le.2 hlacks.1)

def oneCall : Runner Unit := ⟨.start countdownProgram, true, [], [], [], .idle, ⟨none, some 1⟩⟩

theorem call_depth_limit_is_exact_countdown :
    oneCall.limits.maxCallDepth = some 1 ∧ oneCall.Resumes none (.start countdownProgram) ∧
      (Execution.start countdownProgram).calls.length ≤ 1 ∧
      ∃ (last : Machine Unit) (instruction : Instruction) (next : Runner Unit),
        last.execution.calls.length = 1 ∧
        (∃ taken, ∀ fuel, oneCall.resume (fuel + taken) ⟨.empty, ()⟩ none =
          some (some ⟨.callDepth 1, instruction.pos⟩, next, last.world)) ∧
        next.execution = last.execution.unmarked ∧
        (last.step (oneCall.within none).setting instruction).machine.execution.calls.length = 2 ∧
        ∃ taken, ∀ fuel, (next.within (some 2)).resume fuel last.world none =
          (oneCall.within (some 2)).resume (fuel + taken) ⟨.empty, ()⟩ none := by
  have hresumes : oneCall.Resumes none (.start countdownProgram) := ⟨rfl, rfl⟩
  have hcompile : countdown.compile [] = .ok countdownProgram := rfl
  obtain ⟨-, -, hcut | ⟨-, hsame, -⟩⟩ :=
    call_depth_limit_is_exact rfl hresumes (Nat.zero_le 1) ⟨.empty, ()⟩
  · obtain ⟨last, instruction, next, -, -, -, hcalls, hfails, hnext, hmore, -, hopens⟩ := hcut
    refine ⟨rfl, hresumes, Nat.zero_le 1, last, instruction, next, hcalls, hfails, hnext,
      hopens _ _ _ (.inl hcompile) .origin, hmore (some 2) ?_⟩
    rintro _ ⟨⟩
    decide
  · have hlimited : (oneCall.resume 40 ⟨.empty, ()⟩ none).map Prod.fst =
        some (some ⟨.callDepth 1, none⟩) := by decide +kernel
    have hfree : ((oneCall.within none).resume 40 ⟨.empty, ()⟩ none).map Prod.fst = some none := by
      decide +kernel
    rw [hsame, Option.map_map] at hlimited
    cases hfree.symm.trans hlimited

def passOn : Node :=
  .root [.procedure "p" ["x", "y"] [] none,
    .call "p" [.call "ask" [.int 7 none] none, .int 1 none] none] none

def passOnProgram : Program := (passOn.compile []).toOption.getD .empty

/-- The argument of a call that the host does not answer is lost. When the host is up again the
procedure lacks an argument: no frame is opened without a limit, and yet the limit is said to be
exceeded. -/
theorem call_depth_limit_hides_lost_argument :
    ∃ (runner again limited free : Runner Unit), passOn.compile [] = .ok passOnProgram ∧
      runner.limits.maxCallDepth = some 0 ∧ runner.Resumes none (.start passOnProgram) ∧
      (∃ failed, runner.resume 9 ⟨.empty, ()⟩ none =
        some (some ⟨.host "down", none⟩, failed, ⟨.empty, ()⟩) ∧
        again = { failed with functions := [echo] }) ∧ again.execution.calls = [] ∧
      again.resume 9 ⟨.empty, ()⟩ none =
        some (some ⟨.callDepth 0, none⟩, limited, ⟨.empty, ()⟩) ∧
      (again.within none).resume 9 ⟨.empty, ()⟩ none =
        some (some ⟨.stackUnderflow, none⟩, free, ⟨.empty, ()⟩) ∧
      Machine.KeepsWithin (again.within none).setting 0 ⟨again.execution, .started, ⟨.empty, ()⟩⟩ := by
  refine ⟨⟨.start passOnProgram, true, [down], [], [], .idle, ⟨none, some 0⟩⟩, _, _, _, rfl, rfl,
    ⟨rfl, rfl⟩, ⟨_, rfl, rfl⟩, rfl, rfl, rfl, ?_⟩
  have hstep {machine next : Machine Unit} {setting : Setting Unit} {instruction : Instruction}
      (hcalls : machine.execution.calls = []) (hnext : next.execution.calls = [])
      (hn : machine.next? = some instruction) (hs : machine.step setting instruction = .ok next)
      (h : Machine.KeepsWithin setting 0 next) : Machine.KeepsWithin setting 0 machine := by
    refine Machine.Reaches.forall_of_step ⟨Nat.le_of_eq (congrArg _ hcalls), fun _ hn' => ?_⟩ hn hs h
    cases hn.symm.trans hn'
    rw [hs]
    exact Nat.le_of_eq (congrArg _ hnext)
  refine hstep rfl rfl rfl rfl (hstep rfl rfl rfl rfl fun last hr => ?_)
  cases hr with
  | refl =>
    refine ⟨Nat.le_refl 0, fun instruction hn => ?_⟩
    cases hn
    exact Nat.le_refl 0
  | step hn hs =>
    cases hn
    cases hs

end DurableScript
