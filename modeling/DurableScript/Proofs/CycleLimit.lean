import DurableScript.Proofs.FailedSteps

namespace DurableScript

variable {H : Type}

def Setting.upTo (limit? : Option Nat) (setting : Setting H) : Setting H :=
  { setting with limits := { setting.limits with maxCycles := limit? } }

def Runner.upTo (limit? : Option Nat) (runner : Runner H) : Runner H :=
  { runner with limits := { runner.limits with maxCycles := limit? } }

theorem Setting.upTo_self {setting : Setting H} {limit? : Option Nat}
    (h : setting.limits.maxCycles = limit?) : setting.upTo limit? = setting := by
  subst h
  rfl

def Exceeds (limit : Nat) (more? : Option Nat) : Prop := ∀ more, more? = some more → limit < more

namespace Machine

def isSpent (limit : Nat) (machine : Machine H) : Bool :=
  decide (limit ≤ machine.execution.steps) &&
    (machine.status.running && !machine.execution.isFinished)

def HostReports (setting : Setting H) (machine : Machine H) (op : Op) (fault : RunFault) : Prop :=
  ∃ request found error, machine.request? setting op = some (request, found) ∧
    (found.reply setting request).1.outcome = .error error ∧ error.fault = fault

def Hearsay (setting : Setting H) (machine : Machine H) (op : Op) (fault : RunFault) : Prop :=
  ∀ limit, fault = .cycleLimit limit → machine.HostReports setting op fault

theorem hearsay_of_isOperational {setting : Setting H} {machine : Machine H} {op : Op}
    {fault : RunFault} (h : fault.isOperational = true) : machine.Hearsay setting op fault := by
  rintro limit rfl
  cases h

end Machine

namespace Outcome

open Machine

variable {machine next : Machine H} {bad : RunFault → Prop} {outcome : Outcome H}

/-- An instruction does not count itself, and it either leaves the status alone or pauses. What
holds of the fault, if there is one. -/
structure Timed (machine : Machine H) (bad : RunFault → Prop) (outcome : Outcome H) : Prop where
  steps : outcome.machine.execution.steps = machine.execution.steps
  status : outcome.machine.status = machine.status ∨ outcome.machine.status.running = false
  fault : ∀ error, outcome.error? = some error → bad error.fault

theorem timed_ok (hsteps : next.execution.steps = machine.execution.steps)
    (hstatus : next.status = machine.status) : (ok next).Timed machine bad :=
  ⟨hsteps, .inl hstatus, nofun⟩

theorem timed_fail {error : RunError} (hsteps : next.execution.steps = machine.execution.steps)
    (hstatus : next.status = machine.status) (hbad : bad error.fault) :
    (fail error next).Timed machine bad := by
  refine ⟨hsteps, .inl hstatus, fun other hother => ?_⟩
  cases hother
  exact hbad

theorem timed_paused (h : next.execution.steps = machine.execution.steps)
    (hpaused : next.status.running = false) : (ok next).Timed machine bad :=
  ⟨h, .inr hpaused, nofun⟩

end Outcome

namespace Machine

open Outcome

variable {setting : Setting H} {machine next : Machine H} {op : Op} {bad : RunFault → Prop}

theorem timed_execute (setting : Setting H) (machine : Machine H) (op : Op) :
    (execute setting machine op).Timed machine (machine.Hearsay setting op) := by
  have heffect := effect_execute setting machine op
  generalize execute setting machine op = outcome at heffect ⊢
  cases heffect with
  | pushes value _ _ htaken =>
    exact timed_ok (htaken.stays.trans (stays_push _ value)).steps htaken.status
  | advances _ _ htaken | jumps _ htaken => exact timed_ok htaken.stays.steps htaken.status
  | assigns value htaken =>
    exact timed_ok (htaken.stays.trans (Execution.stays_assign _ _ value)).steps htaken.status
  | stops | waits => exact timed_paused rfl rfl
  | enters => exact timed_ok (machine.execution.stays_dropOperands _).steps rfl
  | returns value _ htaken =>
    exact timed_ok ((stays_setResult (withCalls _ _) value).steps.trans htaken.stays.steps) htaken.status
  | ends value _ htaken => exact timed_paused (htaken.stays.trans (stays_setResult _ value)).steps rfl
  | answers result hasked =>
    exact timed_ok (hasked.stays.trans (stays_setResult _ result)).steps hasked.status
  | interrupts result hasked =>
    exact timed_paused (hasked.stays.trans (stays_setResult _ result)).steps rfl
  | repeats hasked => exact timed_paused hasked.stays.steps rfl
  | refuses hasked =>
    refine timed_fail hasked.stays.steps hasked.status fun _ _ => ?_
    obtain ⟨found, hr, -, hsaid, -⟩ := hasked
    exact ⟨_, found, _, hr, hsaid, rfl⟩
  | lacks _ hrun =>
    exact timed_fail ((stays_setStack _ _).steps.trans (by rw [hrun.execution])) hrun.status nofun
  | fails _ htaken hoperational =>
    exact timed_fail htaken.stays.steps htaken.status (hearsay_of_isOperational hoperational)
  | miscounts | deepens => exact timed_fail rfl rfl nofun
  | misses _ htaken => exact timed_fail htaken.stays.steps htaken.status nofun
  | overruns => exact timed_fail (machine.execution.stays_dropOperands _).steps rfl nofun
  | dangles value _ htaken =>
    exact timed_fail ((stays_setResult (withCalls _ _) value).steps.trans htaken.stays.steps)
      htaken.status nofun
  | strays hasked => exact timed_fail hasked.stays.steps hasked.status nofun

variable {instruction : Instruction}

theorem running_of_waitingFor {done : Machine H} {wait : WaitRequirement}
    (hx : execute setting machine.clearMarks instruction.op = .ok done)
    (hwaiting : done.status.waitingFor = some wait) : done.status.running = false := by
  have htimed := timed_execute setting machine.clearMarks instruction.op
  rw [hx] at htimed
  refine htimed.status.resolve_left fun hstatus => ?_
  rw [show done.status = machine.clearMarks.status from hstatus] at hwaiting
  cases hwaiting

theorem time_of_step_ok (h : machine.step setting instruction = .ok next) :
    next.execution.steps = machine.execution.steps + 1 ∧
        (next.status = machine.clearMarks.status ∨ next.status.running = false) ∨
      next.execution.steps = machine.execution.steps ∧ next.status.running = false := by
  obtain ⟨done, hx, rfl⟩ := ok_cases h
  have htimed := timed_execute setting machine.clearMarks instruction.op
  rw [hx] at htimed
  have hsteps : done.execution.steps = machine.execution.steps := htimed.steps
  cases hwaiting : done.status.waitingFor with
  | none =>
    rw [finishStep_of_none hwaiting]
    exact .inl ⟨congrArg (· + 1) hsteps, htimed.status⟩
  | some wait =>
    simp only [finishStep, hwaiting]
    exact .inr ⟨hsteps, running_of_waitingFor hx hwaiting⟩

theorem status_of_step (h : machine.status = .started)
    (hs : machine.step setting instruction = .ok next) :
    next.status = .started ∨ next.status.running = false := by
  have hclear : machine.clearMarks.status = .started := by
    rw [clearMarks, h]
    rfl
  obtain ⟨-, hstatus⟩ | ⟨-, hpaused⟩ := time_of_step_ok hs
  · exact hstatus.imp_left (·.trans hclear)
  · exact .inr hpaused

theorem time_of_step_fail {error : RunError} {failed : Machine H}
    (h : machine.step setting.uncounted instruction = .fail error failed) :
    failed.execution.steps = machine.execution.steps ∧
      machine.clearMarks.Hearsay setting instruction.op error.fault := by
  have htimed := timed_execute setting machine.clearMarks instruction.op
  rw [step_eq rfl, execute_uncounted] at h
  cases hx : execute setting machine.clearMarks instruction.op with
  | ok done =>
    rw [hx] at h
    cases h
  | fail raised left =>
    rw [hx] at h htimed
    cases h
    exact ⟨htimed.steps, raised.fault_locate _ ▸ htimed.fault raised rfl⟩

theorem checkLimit_upTo (limit : Nat) (machine : Machine H) (pos : Option SourcePos) :
    machine.checkLimit (setting.upTo (some limit)) pos =
      if machine.isSpent limit then .fail ⟨.cycleLimit limit, pos⟩ machine else .ok machine := by
  simp only [checkLimit, limitReached?, Setting.upTo, isSpent]
  by_cases hreached : limit ≤ machine.execution.steps <;> simp [hreached]

theorem step_upTo (limit : Nat) (machine : Machine H) (instruction : Instruction) :
    machine.step (setting.upTo (some limit)) instruction =
      if limit ≤ machine.execution.steps then .fail ⟨.cycleLimit limit, instruction.pos⟩ machine
      else
        match machine.step setting.uncounted instruction with
        | .ok next =>
          if next.isSpent limit then .fail ⟨.cycleLimit limit, instruction.pos⟩ next else .ok next
        | failed => failed := by
  have hexecute : execute (setting.upTo (some limit)) machine.clearMarks instruction.op =
      execute setting machine.clearMarks instruction.op := by
    cases instruction.op <;> rfl
  have hlimit : machine.limitReached? (setting.upTo (some limit)) =
      if limit ≤ machine.execution.steps then some limit else none := rfl
  rw [step, hlimit, step_eq rfl, execute_uncounted, hexecute]
  split_ifs
  · rfl
  cases hx : execute setting machine.clearMarks instruction.op with
  | fail error failed => rfl
  | ok done =>
    simp only [Outcome.atPos]
    cases hwaiting : done.status.waitingFor with
    | none =>
      rw [finishStep_of_none hwaiting, checkLimit_upTo]
      rfl
    | some wait =>
      -- a machine that waits has paused, so that no limit stops it
      have hpaused : done.isSpent limit = false := by
        simp [isSpent, running_of_waitingFor hx hwaiting]
      simp [finishStep, hwaiting, hpaused]

theorem exists_next?_of_isSpent {limit : Nat} (h : machine.isSpent limit = true) :
    ∃ instruction, machine.next? = some instruction := by
  simp only [isSpent, Execution.isFinished, Bool.and_eq_true, Bool.not_eq_true',
    decide_eq_true_eq, decide_eq_false_iff_not, Nat.not_le] at h
  exact ⟨_, (if_pos h.2.1).trans (Array.getElem?_eq_getElem h.2.2)⟩

theorem isSpent_of_next? {limit : Nat} (hn : machine.next? = some instruction)
    (hreached : limit ≤ machine.execution.steps) : machine.isSpent limit = true := by
  have hlt : machine.execution.pc < machine.execution.program.size :=
    (Array.getElem?_eq_some_iff.1 (instruction?_of_next? hn)).1
  simpa [isSpent, hreached, running_of_next? hn, Execution.isFinished] using hlt

theorem Reaches.eq_or_step (h : Reaches setting machine next) :
    next = machine ∨ ∃ instruction between, machine.next? = some instruction ∧
      machine.step setting instruction = .ok between ∧ Reaches setting between next := by
  cases h with
  | refl => exact .inl rfl
  | step hn hs hr => exact .inr ⟨_, _, hn, hs, hr⟩

/-- How a run under a limit ends: where the run without one spends the limit, or as that run does. -/
inductive Limited (setting : Setting H) (limit : Nat) (machine : Machine H) : Outcome H → Prop where
  | cut {last : Machine H} {pos : Option SourcePos} :
      (∀ more?, Exceeds limit more? → Reaches (setting.upTo more?) machine last) →
      last.isSpent limit = true → last.execution.steps = max limit machine.execution.steps →
      Limited setting limit machine (.fail ⟨.cycleLimit limit, pos⟩ last)
  | whole {outcome : Outcome H} :
      (∀ last, Reaches setting.uncounted machine last → last.isSpent limit = false) →
      (∀ fuel, limit - machine.execution.steps < fuel →
        runFor setting.uncounted fuel machine = some outcome) →
      machine.execution.steps ≤ outcome.machine.execution.steps →
      outcome.machine.execution.steps ≤ max limit machine.execution.steps →
      Limited setting limit machine outcome

theorem step_of_exceeds {limit : Nat} {more? : Option Nat} (hmore : Exceeds limit more?)
    (hs : machine.step setting.uncounted instruction = .ok next)
    (hmachine : machine.execution.steps < limit) (hnext : next.execution.steps ≤ limit) :
    machine.step (setting.upTo more?) instruction = .ok next := by
  cases more? with
  | none => exact hs
  | some more =>
    have hlt := hmore more rfl
    have hspent : next.isSpent more = false := by
      have : ¬ more ≤ next.execution.steps := by omega
      simp [isSpent, this]
    rw [step_upTo, if_neg (by omega), hs]
    simp [hspent]

namespace Limited

variable {limit : Nat} {outcome : Outcome H}

theorem of_next?_eq_none (hn : machine.next? = none) :
    Limited setting limit machine (.ok machine.settle) := by
  have hsettle : machine.settle.execution.steps = machine.execution.steps :=
    congrArg Execution.steps machine.execution_settle
  refine .whole (fun last hr => ?_) (fun fuel _ => runFor_of_next?_eq_none hn fuel)
    (Nat.le_of_eq hsettle.symm) (hsettle ▸ Nat.le_max_right ..)
  obtain rfl | ⟨_, _, hn', -⟩ := hr.eq_or_step
  · rw [Bool.eq_false_iff]
    intro hspent
    obtain ⟨instruction, hsome⟩ := exists_next?_of_isSpent hspent
    rw [hn] at hsome
    cases hsome
  · rw [hn] at hn'
    cases hn'

theorem of_step_fail {error : RunError} {failed : Machine H} (hlt : machine.execution.steps < limit)
    (hn : machine.next? = some instruction)
    (hs : machine.step setting.uncounted instruction = .fail error failed) :
    Limited setting limit machine (.fail error failed) := by
  have hsteps := (time_of_step_fail hs).1
  refine .whole (fun last hr => ?_) (fun fuel hfuel => ?_) (Nat.le_of_eq hsteps.symm)
    (hsteps ▸ Nat.le_max_right ..)
  · obtain rfl | ⟨_, _, hn', hs', -⟩ := hr.eq_or_step
    · simp [isSpent, Nat.not_le.2 hlt]
    · rw [hn] at hn'
      cases hn'
      rw [hs] at hs'
      cases hs'
  · obtain ⟨fuel, rfl⟩ := Nat.exists_eq_succ_of_ne_zero (Nat.ne_zero_of_lt hfuel)
    rw [runFor_succ hn, hs]

theorem of_step_ok (h : Limited setting limit next outcome) (hlt : machine.execution.steps < limit)
    (hn : machine.next? = some instruction)
    (hs : machine.step setting.uncounted instruction = .ok next)
    (hfuel : (∀ fuel, limit - next.execution.steps < fuel →
        runFor setting.uncounted fuel next = some outcome) →
      ∀ fuel, limit - machine.execution.steps < fuel + 1 →
        runFor setting.uncounted fuel next = some outcome) :
    Limited setting limit machine outcome := by
  have hle : machine.execution.steps ≤ next.execution.steps ∧ next.execution.steps ≤ limit := by
    rcases time_of_step_ok hs with ⟨h, -⟩ | ⟨h, -⟩ <;> omega
  cases h with
  | cut hreaches hspent hsteps =>
    refine .cut (fun more? hmore => ?_) hspent (by omega)
    exact .step hn (step_of_exceeds hmore hs hlt hle.2) (hreaches more? hmore)
  | whole hnever hrun hfrom hto =>
    refine .whole (fun last hr => ?_) (fun fuel hbound => ?_) (by omega) (by omega)
    · obtain rfl | ⟨_, _, hn', hs', hr⟩ := hr.eq_or_step
      · simp [isSpent, Nat.not_le.2 hlt]
      · rw [hn] at hn'
        cases hn'
        rw [hs] at hs'
        cases hs'
        exact hnever last hr
    · obtain ⟨fuel, rfl⟩ := Nat.exists_eq_succ_of_ne_zero (Nat.ne_zero_of_lt hbound)
      rw [runFor_succ hn, hs]
      exact hfuel hrun fuel hbound

end Limited

theorem exists_limited (setting : Setting H) (limit : Nat) (machine : Machine H) :
    ∃ outcome, Limited setting limit machine outcome ∧
      ∀ fuel, limit - machine.execution.steps < fuel →
        runFor (setting.upTo (some limit)) fuel machine = some outcome := by
  -- by induction on the steps that the limit still leaves
  induction hleft : limit - machine.execution.steps generalizing machine with
  | zero =>
    cases hn : machine.next? with
    | none =>
      exact ⟨_, .of_next?_eq_none hn, fun fuel _ => runFor_of_next?_eq_none hn fuel⟩
    | some instruction =>
      have hreached : limit ≤ machine.execution.steps := by omega
      refine ⟨.fail ⟨.cycleLimit limit, instruction.pos⟩ machine,
        .cut (fun _ _ => .refl) (isSpent_of_next? hn hreached) (by omega), fun fuel hfuel => ?_⟩
      obtain ⟨fuel, rfl⟩ := Nat.exists_eq_succ_of_ne_zero (Nat.ne_zero_of_lt hfuel)
      rw [runFor_succ hn, step_upTo, if_pos hreached]
  | succ left ih =>
    have hlt : machine.execution.steps < limit := by omega
    cases hn : machine.next? with
    | none =>
      exact ⟨_, .of_next?_eq_none hn, fun fuel _ => runFor_of_next?_eq_none hn fuel⟩
    | some instruction =>
      have hstep := @step_upTo H setting limit machine instruction
      rw [if_neg (Nat.not_le.2 hlt)] at hstep
      have hrun {fuel : Nat} (hfuel : left + 1 < fuel) :
          ∃ less, left < less ∧ fuel = less + 1 := ⟨fuel - 1, by omega, by omega⟩
      cases hs : machine.step setting.uncounted instruction with
      | fail error failed =>
        rw [hs] at hstep
        refine ⟨_, .of_step_fail hlt hn hs, fun fuel hfuel => ?_⟩
        obtain ⟨less, -, rfl⟩ := hrun hfuel
        rw [runFor_succ hn, hstep]
      | ok next =>
        rw [hs] at hstep
        obtain ⟨hsteps, -⟩ | ⟨hsteps, hpaused⟩ := time_of_step_ok hs
        · cases hspent : next.isSpent limit with
          | true =>
            have hreached : limit ≤ next.execution.steps := by
              simp only [isSpent, Bool.and_eq_true, decide_eq_true_eq] at hspent
              exact hspent.1
            refine ⟨.fail ⟨.cycleLimit limit, instruction.pos⟩ next, .cut (fun more? hmore => ?_)
              hspent (by omega), fun fuel hfuel => ?_⟩
            · exact .single hn (step_of_exceeds hmore hs hlt (by omega))
            · obtain ⟨less, -, rfl⟩ := hrun hfuel
              simp only [runFor_succ hn, hstep, hspent, if_true]
          | false =>
            obtain ⟨outcome, hlimited, hgoes⟩ := ih next (by omega)
            refine ⟨outcome, hlimited.of_step_ok hlt hn hs fun h fuel hfuel => h fuel (by omega),
              fun fuel hfuel => ?_⟩
            obtain ⟨less, hless, rfl⟩ := hrun hfuel
            simp only [runFor_succ hn, hstep, hspent]
            exact hgoes less hless
        · have hspent : next.isSpent limit = false := by simp [isSpent, hpaused]
          have hnone : next.next? = none := if_neg (by simp [hpaused])
          refine ⟨_, (Limited.of_next?_eq_none hnone).of_step_ok hlt hn hs
            fun _ fuel _ => runFor_of_next?_eq_none hnone fuel, fun fuel hfuel => ?_⟩
          obtain ⟨less, -, rfl⟩ := hrun hfuel
          simp only [runFor_succ hn, hstep, hspent]
          exact runFor_of_next?_eq_none hnone less

theorem Reaches.status_eq {last : Machine H} (h : Reaches setting machine last)
    (hstatus : machine.status = .started) (hrunning : last.status.running = true) :
    last.status = .started := by
  induction h with
  | refl => exact hstatus
  | @step machine next last instruction hn hs hr ih =>
    rcases status_of_step hstatus hs with hnext | hpaused
    · exact ih hnext hrunning
    · obtain rfl | ⟨_, _, hn', -⟩ := hr.eq_or_step
      · rw [hpaused] at hrunning
        cases hrunning
      · rw [next?, hpaused] at hn'
        cases hn'

theorem hostReports_of_runFor {fuel limit : Nat} {error : RunError} {failed : Machine H}
    (h : runFor setting.uncounted fuel machine = some (.fail error failed))
    (hfault : error.fault = .cycleLimit limit) :
    ∃ last instruction, Reaches setting.uncounted machine last ∧ last.next? = some instruction ∧
      last.clearMarks.HostReports setting instruction.op error.fault := by
  obtain ⟨last, instruction, hr, hn, hs⟩ := reaches_of_runFor_fail h
  exact ⟨last, instruction, hr, hn, (time_of_step_fail hs).2 limit hfault⟩

end Machine

namespace Runner

variable {runner : Runner H} {execution? : Option Execution} {execution : Execution}

theorem Resumes.upTo (h : runner.Resumes execution? execution) (limit? : Option Nat) :
    (runner.upTo limit?).Resumes execution? execution := by
  cases execution? <;> exact h

theorem Resumes.resume_eq_map (h : runner.Resumes execution? execution) (fuel : Nat)
    (world : World H) : runner.resume fuel world execution? =
      (Machine.runFor runner.setting fuel ⟨execution, .started, world⟩).map fun outcome =>
        (outcome.error?, (runner.holding execution).absorb outcome) :=
  (h.resume_eq fuel world).trans (if_pos rfl)

end Runner

/-- What hosts make of an execution under a limit on steps: they write variables, run and resume it,
each time with any providers and signals. -/
inductive Budgeted (limit : Nat) (origin : Execution) : Execution → Prop where
  | origin : Budgeted limit origin origin
  | write {execution : Execution} (write : HostWrite) :
      Budgeted limit origin execution → Budgeted limit origin (write.run execution)
  | resume {H : Type} {runner next : Runner H} {execution? : Option Execution}
      {execution : Execution} {error? : Option RunError} {fuel : Nat} {world after : World H} :
      Budgeted limit origin execution → runner.limits.maxCycles = some limit →
      runner.Resumes execution? execution →
      runner.resume fuel world execution? = some (error?, next, after) →
      Budgeted limit origin next.execution

open Machine in
theorem Runner.Resumes.steps_le {runner next : Runner H} {execution? : Option Execution}
    {execution : Execution} {error? : Option RunError} {limit fuel : Nat} {world after : World H}
    (h : runner.Resumes execution? execution) (hlimit : runner.limits.maxCycles = some limit)
    (hrun : runner.resume fuel world execution? = some (error?, next, after)) :
    execution.steps ≤ next.execution.steps ∧
      next.execution.steps ≤ max limit execution.steps := by
  rw [h.resume_eq_map] at hrun
  obtain ⟨outcome, houtcome, hresult⟩ := Option.map_eq_some_iff.1 hrun
  cases hresult
  obtain ⟨limited, hlimited, hends⟩ :=
    exists_limited runner.setting limit ⟨execution, .started, world⟩
  rw [Setting.upTo_self hlimit] at hends
  cases runFor_unique houtcome (hends _ (Nat.lt_succ_self _))
  cases hlimited with
  | cut _ _ hsteps => exact ⟨hsteps ▸ Nat.le_max_right .., Nat.le_of_eq hsteps⟩
  | whole _ _ hfrom hto => exact ⟨hfrom, hto⟩

theorem Budgeted.steps_le {limit : Nat} {origin execution : Execution}
    (h : Budgeted limit origin execution) :
    origin.steps ≤ execution.steps ∧ execution.steps ≤ max limit origin.steps := by
  induction h with
  | origin => exact ⟨Nat.le_refl _, Nat.le_max_right ..⟩
  | @write execution write _ ih =>
    have hsteps : (write.run execution).steps = execution.steps := (execution.stays_writes [write]).steps
    rwa [hsteps]
  | resume _ hlimit hresumes hrun ih =>
    have := hresumes.steps_le hlimit hrun
    omega

open Machine in
/-- A run under a limit on steps always ends, within as many steps as the limit leaves it and one
more. It fails by the limit just when the run without one comes to a place where the limit is reached
and the program has neither ended nor paused: it stops there, with the same execution and the same
world, and resumed from there under a higher limit it goes on as if that limit had held from the
beginning. Otherwise it ends as the run without a limit does, and then only a provider can have
reported that a limit was reached. However often an execution is resumed, its steps never exceed the
limit, or their number at the beginning. -/
theorem cycle_limit_is_exact {runner : Runner H} {limit : Nat} {execution? : Option Execution}
    {execution : Execution} (hlimit : runner.limits.maxCycles = some limit)
    (hresumes : runner.Resumes execution? execution) (world : World H) :
    (∃ error? last after,
      (∀ fuel, limit - execution.steps < fuel →
        runner.resume fuel world execution? = some (error?, last, after)) ∧
      ((∃ cut pos, Reaches runner.setting.uncounted ⟨execution, .started, world⟩ cut ∧
          cut.isSpent limit = true ∧ cut.execution.steps = max limit execution.steps ∧
          error? = some ⟨.cycleLimit limit, pos⟩ ∧ last.execution = cut.execution ∧
          after = cut.world ∧
          ∀ more?, Exceeds limit more? → ∃ taken, ∀ fuel,
            (last.upTo more?).resume fuel after none =
              (runner.upTo more?).resume (fuel + taken) world execution?) ∨
        (∀ reached, Reaches runner.setting.uncounted ⟨execution, .started, world⟩ reached →
          reached.isSpent limit = false) ∧
        (∀ fuel, limit - execution.steps < fuel → (runner.upTo none).resume fuel world execution? =
          some (error?, last.upTo none, after)) ∧
        ∀ error other, error? = some error → error.fault = .cycleLimit other →
          ∃ reached instruction,
            Reaches runner.setting.uncounted ⟨execution, .started, world⟩ reached ∧
            reached.next? = some instruction ∧
            reached.clearMarks.HostReports runner.setting instruction.op error.fault)) ∧
    ∀ later, Budgeted limit execution later →
      execution.steps ≤ later.steps ∧ later.steps ≤ max limit execution.steps := by
  refine ⟨?_, fun later h => h.steps_le⟩
  obtain ⟨outcome, hlimited, hends⟩ :=
    exists_limited runner.setting limit ⟨execution, .started, world⟩
  rw [Setting.upTo_self hlimit] at hends
  have hresume (fuel : Nat) (hfuel : limit - execution.steps < fuel) :
      runner.resume fuel world execution? =
        some (outcome.error?, (runner.holding execution).absorb outcome) := by
    rw [hresumes.resume_eq_map, hends fuel hfuel]
    rfl
  refine ⟨_, _, _, hresume, ?_⟩
  cases hlimited with
  | @cut cut pos hreaches hspent hsteps =>
    have hfree := hreaches none nofun
    have hrunning : cut.status.running = true := by
      simp only [isSpent, Bool.and_eq_true] at hspent
      exact hspent.2.1
    have hcut : cut = ⟨cut.execution, .started, cut.world⟩ := by
      rw [← hfree.status_eq rfl hrunning]
    refine .inl ⟨cut, pos, hfree, hspent, hsteps, rfl, rfl, rfl, fun more? hmore => ?_⟩
    obtain ⟨taken, htaken⟩ := (hreaches more? hmore).runFor
    refine ⟨taken, fun fuel => ?_⟩
    rw [(hresumes.upTo more?).resume_eq_map]
    have hsame : runFor (runner.upTo more?).setting (fuel + taken) ⟨execution, .started, world⟩ =
        runFor (runner.upTo more?).setting fuel ⟨cut.execution, .started, cut.world⟩ :=
      (htaken fuel).trans (by rw [← hcut]; rfl)
    rw [hsame]
    rfl
  | whole hnever hrun =>
    refine .inr ⟨hnever, fun fuel hfuel => ?_, fun error other herror hfault => ?_⟩
    · have hfree : runFor (runner.upTo none).setting fuel ⟨execution, .started, world⟩ =
          some outcome := hrun fuel hfuel
      rw [(hresumes.upTo none).resume_eq_map, hfree]
      rfl
    · cases outcome with
      | ok last => cases herror
      | fail raised failed =>
        cases herror
        exact hostReports_of_runFor (hrun _ (Nat.lt_succ_self _)) hfault

def counting : FunctionProvider Nat where
  supports := (· == "ask")
  invoke _ _ _ world := (⟨[], .ok (.value .null)⟩, ⟨world.objects, world.host + 1⟩)

def askForever : Execution :=
  .start ⟨#[⟨.call "ask" 0 0, none⟩, ⟨.jump 0, none⟩], []⟩

def threeSteps : Runner Nat := (Runner.ofLimits ⟨some 3, none⟩).addFunctions counting

theorem cycle_limit_is_exact_askForever :
    threeSteps.limits.maxCycles = some 3 ∧ threeSteps.Resumes (some askForever) askForever ∧
      ∃ last, threeSteps.resume 4 ⟨.empty, 0⟩ (some askForever) =
          some (some ⟨.cycleLimit 3, none⟩, last, ⟨.empty, 2⟩) ∧ last.execution.steps = 3 ∧
        ∃ taken, ∀ fuel, (last.upTo (some 5)).resume fuel ⟨.empty, 2⟩ none =
          (threeSteps.upTo (some 5)).resume (fuel + taken) ⟨.empty, 0⟩ (some askForever) := by
  have hresumes : threeSteps.Resumes (some askForever) askForever := rfl
  obtain ⟨⟨error?, last, after, hends, hcut | ⟨hnever, -⟩⟩, -⟩ :=
    cycle_limit_is_exact rfl hresumes ⟨.empty, 0⟩
  · obtain ⟨cut, pos, -, -, hsteps, rfl, hlast, rfl, hmore⟩ := hcut
    have hrun := hends 4 (by decide)
    have hresult := Option.some.inj hrun.symm
    have hpos : pos = none := congrArg RunError.pos (Option.some.inj (congrArg Prod.fst hresult))
    have hafter : cut.world = ⟨.empty, 2⟩ := congrArg (fun result => result.2.2) hresult
    rw [hafter] at hrun hmore
    rw [hpos] at hrun
    refine ⟨rfl, hresumes, last, hrun, hlast ▸ hsteps, hmore (some 5) ?_⟩
    rintro _ ⟨⟩
    decide
  · have hreaches : Machine.Reaches threeSteps.setting.uncounted
        ⟨askForever, .started, ⟨.empty, 0⟩⟩ _ :=
      .step rfl rfl (.step rfl rfl (.step rfl rfl .refl))
    cases hnever _ hreaches

end DurableScript
