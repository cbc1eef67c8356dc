import DurableScript.Proofs.Interruption

namespace DurableScript

variable {H : Type}

structure Execution.Agrees (execution other : Execution) : Prop where
  globals : execution.globals = other.globals
  calls : execution.calls = other.calls
  pc : execution.pc = other.pc
  steps : execution.steps = other.steps

def Outcome.Ended (outcome : Outcome H) : Prop :=
  outcome.error?.isSome ∨ outcome.machine.execution.isFinished

namespace Machine

variable {setting : Setting H} {machine : Machine H}

theorem execution_settle (machine : Machine H) : machine.settle.execution = machine.execution := by
  unfold settle
  split <;> rfl

theorem world_settle (machine : Machine H) : machine.settle.world = machine.world := by
  unfold settle
  split <;> rfl

theorem runFor_mono {fuel : Nat} {outcome : Outcome H}
    (h : runFor setting fuel machine = some outcome) :
    runFor setting (fuel + 1) machine = some outcome := by
  induction fuel generalizing machine with
  | zero =>
    cases hn : machine.next? with
    | none => rwa [runFor_of_next?_eq_none hn] at h ⊢
    | some instruction =>
      rw [runFor, hn] at h
      cases h
  | succ fuel ih =>
    cases hn : machine.next? with
    | none => rwa [runFor_of_next?_eq_none hn] at h ⊢
    | some instruction =>
      rw [runFor_succ hn] at h ⊢
      cases hs : machine.step setting instruction with
      | fail error failed => simpa only [hs] using h
      | ok next =>
        simp only [hs] at h ⊢
        exact ih h

theorem runFor_unique {fuel other : Nat} {outcome outcome' : Outcome H}
    (h : runFor setting fuel machine = some outcome)
    (h' : runFor setting other machine = some outcome') : outcome = outcome' := by
  have hmono {fuel more : Nat} {outcome : Outcome H} (hle : fuel ≤ more)
      (h : runFor setting fuel machine = some outcome) :
      runFor setting more machine = some outcome := by
    induction hle with
    | refl => exact h
    | step _ ih => exact runFor_mono ih
  have hsame := (hmono (Nat.le_max_left fuel other) h).symm.trans
    (hmono (Nat.le_max_right fuel other) h')
  exact Option.some.inj hsame

end Machine

namespace Runner

def ofSetting (setting : Setting H) : Runner H :=
  ⟨.empty, false, setting.functions, setting.methods, setting.signals, .idle, setting.limits⟩

def isOver (result : Option RunError × Runner H × World H) : Bool :=
  result.1.isSome || result.2.1.execution.isFinished

/-- Resumes a run after every pause until it is over; none if that takes more than so many
resumptions, or more than `fuel` steps in one of them. -/
def resumeUntilOver (fuel : Nat) : Nat → Option RunError × Runner H × World H →
    Option (Option RunError × Runner H × World H)
  | 0, result => if isOver result then some result else none
  | resumes + 1, result =>
    if isOver result then some result
    else (result.2.1.resume fuel result.2.2 none).bind (resumeUntilOver fuel resumes)

variable {runner : Runner H} {fuel resumes : Nat} {machine : Machine H} {outcome : Outcome H}
  {start result : Option RunError × Runner H × World H}

theorem resumeUntilOver_of_isOver (h : isOver result) (fuel resumes : Nat) :
    resumeUntilOver fuel resumes result = some result := by
  cases resumes <;> rw [resumeUntilOver, if_pos h]

theorem run_mono {world : World H} (h : runner.run fuel world = some result) :
    runner.run (fuel + 1) world = some result := by
  unfold run at h ⊢
  split
  · next hl =>
    rw [if_pos hl] at h
    obtain ⟨outcome, ho, rfl⟩ := Option.map_eq_some_iff.1 h
    rw [Machine.runFor_mono ho]
    rfl
  · next hl => rwa [if_neg hl] at h

theorem run_unique {world : World H} {other : Nat} {result' : Option RunError × Runner H × World H}
    (h : runner.run fuel world = some result) (h' : runner.run other world = some result') :
    result = result' := by
  unfold run at h h'
  split at h
  · next hl =>
    rw [if_pos hl] at h'
    obtain ⟨outcome, ho, rfl⟩ := Option.map_eq_some_iff.1 h
    obtain ⟨outcome', ho', rfl⟩ := Option.map_eq_some_iff.1 h'
    rw [Machine.runFor_unique ho ho']
  · next hl =>
    rw [if_neg hl] at h'
    exact Option.some.inj (h.symm.trans h')

theorem resumeUntilOver_mono (h : resumeUntilOver fuel resumes start = some result) :
    resumeUntilOver (fuel + 1) resumes start = some result := by
  induction resumes generalizing start with
  | zero => exact h
  | succ resumes ih =>
    rw [resumeUntilOver] at h ⊢
    split
    · next hover => rwa [if_pos hover] at h
    · next hover =>
      rw [if_neg hover] at h
      obtain ⟨between, hrun, hrest⟩ := Option.bind_eq_some_iff.1 h
      have hrun' : start.2.1.resume (fuel + 1) start.2.2 none = some between := run_mono hrun
      rw [hrun']
      exact ih hrest

def goesOn (runner : Runner H) (fuel resumes : Nat) (machine : Machine H) :
    Option (Option RunError × Runner H × World H) :=
  (Machine.runFor runner.setting fuel machine).bind fun outcome =>
    resumeUntilOver fuel resumes (outcome.error?, runner.absorb outcome)

theorem run_bind_resumeUntilOver (h : runner.loaded = true) (fuel resumes : Nat) (world : World H) :
    (runner.run fuel world).bind (resumeUntilOver fuel resumes) =
      runner.goesOn fuel resumes (runner.machine world) := by
  rw [run, if_pos h, Option.bind_map]
  rfl

theorem goesOn_of_ended (hrun : Machine.runFor runner.setting fuel machine = some outcome)
    (h : outcome.Ended) (resumes : Nat) :
    runner.goesOn fuel resumes machine = some (outcome.error?, runner.absorb outcome) := by
  have hover : isOver (outcome.error?, runner.absorb outcome) := by
    rw [isOver, Bool.or_eq_true]
    exact h
  rw [goesOn, hrun]
  exact resumeUntilOver_of_isOver hover fuel resumes

def EndsAlike (runner : Runner H) (machine : Machine H) (outcome : Outcome H) : Prop :=
  ∃ fuel resumes last,
    runner.goesOn fuel resumes machine = some (outcome.error?, last, outcome.machine.world) ∧
      last.execution.Agrees outcome.machine.execution

namespace EndsAlike

variable {instruction : Instruction} {next : Machine H}

theorem of_fail {error : RunError} (hn : machine.next? = some instruction)
    (hs : machine.step runner.setting instruction = .fail error next)
    (hx : next.execution.Agrees outcome.machine.execution)
    (hw : next.world = outcome.machine.world) (he : outcome.error? = some error) :
    runner.EndsAlike machine outcome := by
  have hrun : Machine.runFor runner.setting 1 machine = some (.fail error next) := by
    rw [Machine.runFor_succ hn, hs]
  refine ⟨1, 0, (runner.absorb (.fail error next)).1, ?_, hx⟩
  rw [goesOn_of_ended hrun (.inl rfl), he, ← hw]
  rfl

theorem of_finished (hn : machine.next? = none) (hf : machine.execution.isFinished)
    (hx : machine.execution.Agrees next.execution) (hw : machine.world = next.world) :
    runner.EndsAlike machine (.ok next.settle) := by
  have hend : (Outcome.ok machine.settle).Ended := by
    right
    rw [← hf]
    exact congrArg Execution.isFinished machine.execution_settle
  refine ⟨0, 0, (runner.absorb (.ok machine.settle)).1, ?_, ?_⟩
  · rw [goesOn_of_ended (Machine.runFor_of_next?_eq_none hn 0) hend]
    show some (none, _, machine.settle.world) = some (none, _, next.settle.world)
    rw [machine.world_settle, next.world_settle, hw]
    rfl
  · show machine.settle.execution.Agrees next.settle.execution
    rwa [machine.execution_settle, next.execution_settle]

theorem of_step (hn : machine.next? = some instruction)
    (hs : machine.step runner.setting instruction = .ok next)
    (h : runner.EndsAlike next outcome) : runner.EndsAlike machine outcome := by
  obtain ⟨fuel, resumes, last, hgoes, hlast⟩ := h
  obtain ⟨found, hrun, hrest⟩ := Option.bind_eq_some_iff.1 hgoes
  refine ⟨fuel + 1, resumes, last, ?_, hlast⟩
  rw [goesOn, Machine.runFor_succ hn, hs]
  exact Option.bind_eq_some_iff.2 ⟨found, hrun, resumeUntilOver_mono hrest⟩

theorem of_pause (hloaded : runner.loaded = true) (hn : machine.next? = none)
    (hf : ¬ machine.execution.isFinished)
    (h : (runner.absorb (.ok machine)).1.EndsAlike ⟨machine.execution, .started, machine.world⟩
      outcome) : runner.EndsAlike machine outcome := by
  obtain ⟨fuel, resumes, last, hgoes, hlast⟩ := h
  have hsettle : machine.settle = machine := by simp [Machine.settle, hf]
  have hover : ¬ isOver ((none : Option RunError), runner.absorb (.ok machine)) := by
    rw [isOver, Bool.or_eq_true]
    exact not_or.2 ⟨nofun, hf⟩
  have hloaded' : (runner.absorb (.ok machine)).1.loaded = true := hloaded
  refine ⟨fuel, resumes + 1, last, ?_, hlast⟩
  rw [goesOn, Machine.runFor_of_next?_eq_none hn, hsettle]
  show resumeUntilOver fuel (resumes + 1) (none, runner.absorb (.ok machine)) = _
  rw [resumeUntilOver, if_neg hover, ← hgoes]
  exact run_bind_resumeUntilOver hloaded' fuel resumes machine.world

end EndsAlike

end Runner

namespace Machine

open Runner

variable {setting : Setting H} {schedule : Schedule} {program : Program}
  {machine other : Machine (H × List HostCall)}

theorem Twins.agrees (h : Twins program machine other) :
    other.execution.Agrees machine.execution := by
  obtain ⟨mark, hx⟩ := h.execution
  rw [hx]
  exact ⟨rfl, rfl, rfl, rfl⟩

theorem Twins.program_eq (h : Twins program machine other) : other.execution.program = program := by
  obtain ⟨mark, hx⟩ := h.execution
  rw [hx]
  rfl

theorem Twins.refl (h : machine.status = .started) :
    Twins machine.execution.program machine machine := ⟨h, h, ⟨_, rfl⟩, rfl⟩

theorem program_of_step (hlimit : setting.limits.maxCycles = none)
    (hs : machine.status = .started) {instruction : Instruction}
    {next : Machine (H × List HostCall)}
    (hstep : machine.step (setting.scheduled .never) instruction = .ok next) :
    next.execution.program = machine.execution.program := by
  have htell : setting.CannotTell machine.execution.program machine.execution.program :=
    ⟨fun _ _ _ _ _ _ h => by rw [← h]; rfl, fun _ _ _ _ _ _ _ h => by rw [← h]; rfl⟩
  have hi : instruction.WithStop instruction := .same
  have hp := (Twins.refl hs).parallel_step .never hlimit (.refl _) htell hi
  rw [hstep] at hp
  exact hp.program_eq

theorem next?_eq_none_iff {H : Type} {machine : Machine H} (h : machine.status = .started) :
    machine.next? = none ↔ machine.execution.isFinished := by
  rw [next?, h, Execution.isFinished, decide_eq_true_iff]
  exact Array.getElem?_eq_none_iff

theorem Twins.isFinished_eq (h : Twins program machine other)
    (hsize : program.size = machine.execution.program.size) :
    other.execution.isFinished = machine.execution.isFinished := by
  unfold Execution.isFinished
  rw [h.program_eq, h.agrees.pc, hsize]

theorem Twins.exists_next? (h : Twins program machine other)
    (hstops : machine.execution.program.WithStops program) {instruction : Instruction}
    (hn : machine.next? = some instruction) :
    ∃ found, other.next? = some found ∧ instruction.WithStop found := by
  rw [next?, h.started] at hn
  rw [next?, h.started', Execution.instruction?, h.program_eq, h.agrees.pc]
  exact hstops.instruction_of_some hn

theorem Twins.endsAlike_of_none (h : Twins program machine other)
    (hsize : program.size = machine.execution.program.size) (hn : machine.next? = none)
    (runner : Runner (H × List HostCall)) : runner.EndsAlike other (.ok machine.settle) := by
  have hf : other.execution.isFinished := by
    rw [h.isFinished_eq hsize]
    exact (next?_eq_none_iff h.started).1 hn
  exact .of_finished ((next?_eq_none_iff h.started').2 hf) hf h.agrees h.world

theorem next?_of_not_running {machine : Machine H} (h : machine.status.running = false) :
    machine.next? = none := by
  simp [next?, h]

theorem Twins.endsAlike {runner : Runner (H × List HostCall)} (h : Twins program machine other)
    (hsetting : runner.setting = setting.scheduled schedule) (hloaded : runner.loaded = true)
    (hlimit : setting.limits.maxCycles = none)
    (hstops : machine.execution.program.WithStops program)
    (htell : setting.CannotTell machine.execution.program program) {fuel : Nat}
    {outcome : Outcome (H × List HostCall)}
    (hrun : runFor (setting.scheduled .never) fuel machine = some outcome) (hend : outcome.Ended) :
    runner.EndsAlike other outcome := by
  induction fuel generalizing machine other runner with
  | zero =>
    cases hn : machine.next? with
    | none =>
      rw [runFor_of_next?_eq_none hn] at hrun
      cases hrun
      exact h.endsAlike_of_none hstops.size_eq hn runner
    | some instruction =>
      rw [runFor, hn] at hrun
      cases hrun
  | succ fuel ih =>
    cases hn : machine.next? with
    | none =>
      rw [runFor_of_next?_eq_none hn] at hrun
      cases hrun
      exact h.endsAlike_of_none hstops.size_eq hn runner
    | some instruction =>
      obtain ⟨instruction', hn', hi⟩ := h.exists_next? hstops hn
      have hp := h.parallel_step schedule hlimit hstops htell hi
      rw [← hsetting] at hp
      rw [runFor_succ hn] at hrun
      generalize hstep' : other.step runner.setting instruction' = outcome' at hp
      cases hstep : machine.step (setting.scheduled .never) instruction with
      | fail error failed =>
        rw [hstep] at hrun hp
        cases hrun
        cases hp with
        | along => exact .of_fail hn' hstep' ⟨rfl, rfl, rfl, rfl⟩ rfl rfl
      | ok next =>
        rw [hstep] at hrun hp
        change runFor _ fuel next = some outcome at hrun
        have hprogram := program_of_step hlimit h.started hstep
        rw [← hprogram] at hstops htell
        have hsize := hstops.size_eq
        have hfinished : (next.execution.onto program).isFinished = next.execution.isFinished :=
          congrArg (fun size => decide (size ≤ next.execution.pc)) hsize
        cases hp with
        | along hrunning =>
          refine .of_step hn' hstep' ?_
          cases hr : next.status.running with
          | true =>
            have htwins : Twins program next (next.onto program) :=
              ⟨hrunning hr, hrunning hr, ⟨_, rfl⟩, rfl⟩
            exact ih htwins hsetting hloaded hstops htell hrun
          | false =>
            rw [runFor_of_next?_eq_none (next?_of_not_running hr)] at hrun
            cases hrun
            have hf : (next.execution.onto program).isFinished := by
              rw [hfinished, ← next.execution_settle]
              exact hend.resolve_left (by rintro ⟨⟩)
            exact .of_finished (next?_of_not_running hr) hf ⟨rfl, rfl, rfl, rfl⟩ rfl
        | @paused _ mark status hstarted hstopped =>
          refine .of_step hn' hstep' ?_
          by_cases hf : next.execution.isFinished
          · rw [runFor_of_next?_eq_none ((next?_eq_none_iff hstarted).2 hf)] at hrun
            cases hrun
            exact .of_finished (next?_of_not_running hstopped) (hfinished.trans hf)
              ⟨rfl, rfl, rfl, rfl⟩ rfl
          · have hf' : ¬ (next.execution.onto program).isFinished := by rwa [hfinished]
            refine .of_pause hloaded (next?_of_not_running hstopped) hf' ?_
            have htwins : Twins program next
                ⟨{ next.execution.onto program with lastInterrupt := mark }, .started,
                  next.world⟩ := ⟨hstarted, rfl, ⟨_, rfl⟩, rfl⟩
            exact ih htwins hsetting hloaded hstops htell hrun

end Machine

/-- A script that pauses after some of the host's answers, and that stops in some places where it
would do nothing, ends as it does without the pauses, if it is resumed after every one of them. -/
theorem resumed_run_ends_as_unpaused {tree tree' : Node} {before before' : List Node}
    {program : Program} (hcompile : tree.compile before = .ok program)
    (htree : WithStops (.one tree) (.one tree')) (hbefore : WithStops (.many before) (.many before'))
    {setting : Setting H} (hlimit : setting.limits.maxCycles = none)
    (htell : ∀ other, tree'.compile before' = .ok other → setting.CannotTell program other)
    (schedule : Schedule) {loaded : Runner (H × List HostCall)}
    (hload : (Runner.ofSetting (setting.scheduled .never)).load program = .ok loaded)
    {globals : List (String × Value)} {fuel : Nat} {world after : World (H × List HostCall)}
    {error? : Option RunError} {last : Runner (H × List HostCall)}
    (hrun : (loaded.loadGlobals globals).run fuel world = some (error?, last, after))
    (hend : error?.isSome ∨ last.execution.isFinished) :
    ∃ other loaded', tree'.compile before' = .ok other ∧
      (Runner.ofSetting (setting.scheduled schedule)).load other = .ok loaded' ∧
      ∃ fuel' resumes last',
        ((loaded'.loadGlobals globals).run fuel' world).bind
            (Runner.resumeUntilOver fuel' resumes) = some (error?, last', after) ∧
          last'.execution.Agrees last.execution := by
  obtain ⟨other, hcompile', hstops⟩ := htree.compile_of_ok hbefore hcompile
  have hempty (schedule : Schedule) :
      (Runner.ofSetting (setting.scheduled schedule)).execution = .empty := rfl
  obtain ⟨_, hload₁, hready₁, hsetting₁, hmachine₁⟩ :=
    Runner.exists_load (hempty .never) program globals
  obtain ⟨loaded', hload₂, hready₂, hsetting₂, hmachine₂⟩ :=
    Runner.exists_load (hempty schedule) other globals
  cases hload₁.symm.trans hload
  refine ⟨other, loaded', hcompile', hload₂, ?_⟩
  rw [Runner.run, if_pos hready₁, hsetting₁, hmachine₁] at hrun
  obtain ⟨outcome, houtcome, hresult⟩ := Option.map_eq_some_iff.1 hrun
  cases hresult
  have htwins : Machine.Twins other (freshMachine program (Table.ofPairs globals) world)
      (freshMachine other (Table.ofPairs globals) world) := ⟨rfl, rfl, ⟨none, rfl⟩, rfl⟩
  obtain ⟨fuel', resumes, last', hgoes, hlast⟩ := htwins.endsAlike hsetting₂ hready₂ hlimit hstops
    (htell other hcompile') houtcome hend
  rw [← hmachine₂] at hgoes
  exact ⟨fuel', resumes, last', (Runner.run_bind_resumeUntilOver hready₂ ..).trans hgoes, hlast⟩

def asking (pause : Node) : Node :=
  .root [
    .procedure "twice" ["x"]
      [pause, .ret (some (.call "ask" [.call "ask" [.ident "x" none] none] none)) none] none,
    .assign "y" (.call "twice" [.int 1 none] none) none] none

def echo : FunctionProvider Unit where
  supports := (· == "ask")
  invoke _ _ args world := (⟨[], .ok (.value (args.headD .null))⟩, world)

def echoing : Setting Unit := ⟨[echo], [], [], .unlimited⟩

def askingProgram : Program := ((asking (.nothing none)).compile []).toOption.getD .empty

set_option maxRecDepth 4000 in
theorem resumed_run_ends_as_unpaused_asking : ∃ loaded last after,
      (Runner.ofSetting (echoing.scheduled .never)).load askingProgram = .ok loaded ∧
      (loaded.loadGlobals []).run 30 ⟨.empty, (), []⟩ = some (none, last, after) ∧
      last.execution.globals.vars = [("y", .int 1)] ∧ after.host.2.length = 2 ∧
      ∃ other loaded', (asking (.stop none)).compile [] = .ok other ∧
        (Runner.ofSetting (echoing.scheduled fun _ => some none)).load other = .ok loaded' ∧
        ∃ fuel resumes last',
          ((loaded'.loadGlobals []).run fuel ⟨.empty, (), []⟩).bind
              (Runner.resumeUntilOver fuel resumes) = some (none, last', after) ∧
            last'.execution.Agrees last.execution := by
  have hcompile : (asking (.nothing none)).compile [] = .ok askingProgram := by rfl
  have htree : WithStops (.one (asking (.nothing none))) (.one (asking (.stop none))) :=
    .root (.cons (.procedure (.cons .stop .same)) .same)
  have htell (other : Program) (_ : (asking (.stop none)).compile [] = .ok other) :
      echoing.CannotTell askingProgram other :=
    ⟨fun provider hmem context name args world _ => by cases List.mem_singleton.1 hmem; rfl, nofun⟩
  refine ⟨_, _, _, rfl, rfl, rfl, rfl, ?_⟩
  exact resumed_run_ends_as_unpaused hcompile htree .same rfl htell (fun _ => some none) rfl
    (show Runner.run 30 _ _ = _ from rfl) (.inr rfl)

def watch : FunctionProvider Unit where
  supports := (· == "watch")
  invoke context _ _ world :=
    let stops := context.execution.program.code.toList.any fun instruction =>
      instruction.op.name == "STOP"
    (⟨[], .ok (.value (.bool stops))⟩, world)

def watching : Setting Unit := ⟨[watch], [], [], .unlimited⟩

def watched (pause : Node) : Node :=
  .root [pause, .assign "x" (.call "watch" [] none) none] none

def watchedProgram (pause : Node) : Program := ((watched pause).compile []).toOption.getD .empty

/-- A host that looks at the program sees a `stop` in it, paused or not. -/
theorem stop_shows_in_program : ∃ loaded last after,
      (Runner.ofSetting (watching.scheduled .never)).load (watchedProgram (.nothing none)) =
          .ok loaded ∧
        loaded.run 10 ⟨.empty, (), []⟩ = some (none, last, after) ∧
        last.execution.isFinished ∧ last.execution.globals.vars = [("x", .bool false)] ∧
      ∃ loaded' last',
        (Runner.ofSetting (watching.scheduled .never)).load (watchedProgram (.stop none)) =
            .ok loaded' ∧
          (loaded'.run 10 ⟨.empty, (), []⟩).bind (Runner.resumeUntilOver 10 1) =
            some (none, last', after) ∧
          last'.execution.isFinished ∧ last'.execution.globals.vars = [("x", .bool true)] := by
  exact ⟨_, _, _, rfl, rfl, rfl, rfl, _, _, rfl, rfl, rfl, rfl⟩

end DurableScript
