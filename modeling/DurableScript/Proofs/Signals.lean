import Mathlib.Data.List.DropRight
import DurableScript.Proofs.Polling
import DurableScript.Proofs.Rewinding
import DurableScript.Proofs.VariableNames

namespace DurableScript

variable {H : Type}

namespace WaitRequirement

theorem isMet_of_nil {wait : WaitRequirement} (h : wait.isMet [] = true) (signals : List String) :
    wait.isMet signals = true := by
  obtain ⟨all, names⟩ := wait
  cases all with
  | true =>
    cases names with
    | nil => rfl
    | cons name rest => cases h
  | false =>
    obtain ⟨name, -, hname⟩ := List.any_eq_true.1 h
    cases hname

end WaitRequirement

def Setting.hearing (setting : Setting H) (signals : List String) : Setting H :=
  { setting with signals := signals }

structure Setting.Heedless (setting : Setting H) : Prop where
  functions : ∀ provider ∈ setting.functions, ∀ context signals,
    provider.invoke { context with signals := signals } = provider.invoke context
  methods : ∀ provider ∈ setting.methods, ∀ context signals,
    provider.invoke { context with signals := signals } = provider.invoke context

namespace Builtin

def testsSignal : Builtin → Bool
  | signalExist | signalNotExist => true
  | _ => false

theorem run_nil {function : Builtin} {args : List Value} {signals : List String}
    (h : function.testsSignal = true → ∀ name, function.signalNamed args = .ok name →
      name ∉ signals) :
    function.run args signals = function.run args [] := by
  have hcontains {name : String} (h : name ∉ signals) :
      signals.contains name = ([] : List String).contains name := by
    simpa using h
  cases function with
  | arrayCount | arrayGet => rfl
  | signalExist =>
    rw [run, run]
    cases hname : signalExist.signalNamed args with
    | error fault => rfl
    | ok name => exact congrArg (Except.ok <| Value.bool ·) (hcontains (h rfl name hname))
  | signalNotExist =>
    rw [run, run]
    cases hname : signalNotExist.signalNamed args with
    | error fault => rfl
    | ok name => exact congrArg (Except.ok <| Value.bool !·) (hcontains (h rfl name hname))

end Builtin

namespace Machine

variable {setting : Setting H} {machine next : Machine H} {op : Op} {instruction : Instruction}
  {signals : List String}

def Tests (machine : Machine H) (name : String) : Prop :=
  ∃ function argc pos, machine.next? = some ⟨.callBuiltin function argc, pos⟩ ∧
    function.testsSignal = true ∧ function.signalNamed (machine.stack.take argc) = .ok name

def Deaf (machine : Machine H) (signals : List String) : Op → Prop
  | .wait all names =>
    WaitRequirement.isMet ⟨all, names⟩ signals = WaitRequirement.isMet ⟨all, names⟩ []
  | .callBuiltin function argc => function.testsSignal = true → ∀ name,
      function.signalNamed (machine.stack.take argc) = .ok name → name ∉ signals
  | _ => True

theorem callFunction_hearing (h : setting.Heedless) (signals : List String) (machine : Machine H)
    (name : String) (argc restart : Nat) :
    callFunction (setting.hearing signals) machine name argc restart =
      callFunction (setting.hearing []) machine name argc restart := by
  unfold callFunction
  cases hfind : setting.functions.find? fun provider => provider.supports name with
  | none => simp only [Setting.hearing, hfind]
  | some provider =>
    simp only [Setting.hearing, hfind]
    have hsame (machine : Machine H) := h.functions provider (List.mem_of_find?_eq_some hfind)
      (machine.context (setting.hearing [])) signals
    refine congrArg (machine.popArgsThen argc) (funext fun args => funext fun machine => ?_)
    exact congrArg (fun invoke => machine.conclude restart (invoke name args machine.world).1
      (invoke name args machine.world).2) (hsame machine)

theorem callMethod_hearing (h : setting.Heedless) (signals : List String) (machine : Machine H)
    (object name : String) (argc restart : Nat) :
    callMethod (setting.hearing signals) machine object name argc restart =
      callMethod (setting.hearing []) machine object name argc restart := by
  unfold callMethod
  split
  · rfl
  · next value typeName found hreceiver =>
    cases hfind : setting.methods.find? fun provider => provider.supports typeName name with
    | none => simp only [Setting.hearing, hfind]
    | some provider =>
      simp only [Setting.hearing, hfind]
      have hsame (machine : Machine H) := h.methods provider (List.mem_of_find?_eq_some hfind)
        (machine.context (setting.hearing [])) signals
      refine congrArg (found.popArgsThen argc) (funext fun args => funext fun machine => ?_)
      exact congrArg (fun invoke => machine.conclude restart
        (invoke value name args machine.world).1 (invoke value name args machine.world).2)
        (hsame machine)

theorem execute_hearing (h : setting.Heedless) (hdeaf : machine.Deaf signals op) :
    execute (setting.hearing signals) machine op = execute (setting.hearing []) machine op := by
  cases op with
  | call name argc restart =>
    simp only [execute]
    split
    · rfl
    · exact callFunction_hearing h signals machine name argc restart
  | callMethod object name argc restart =>
    exact callMethod_hearing h signals machine object name argc restart
  | callBuiltin function argc =>
    simp only [execute, popArgsThen]
    split
    · rfl
    · have hrun : function.run (machine.stack.take argc) signals = _ := Builtin.run_nil hdeaf
      simp only [Setting.hearing, hrun]
  | wait all names =>
    have hmet : WaitRequirement.isMet ⟨all, names⟩ signals = _ := hdeaf
    simp only [execute, Setting.hearing, hmet]
    rfl
  | ret hasValue => cases hasValue <;> rfl
  | _ => rfl

theorem step_hearing (h : setting.Heedless) (hdeaf : machine.Deaf signals instruction.op) :
    machine.step (setting.hearing signals) instruction =
      machine.step (setting.hearing []) instruction := by
  have hdeaf : machine.clearMarks.Deaf signals instruction.op := hdeaf
  unfold step
  rw [execute_hearing h hdeaf]
  rfl

theorem waitingFor_of_execute (hx : execute setting machine op = .ok next) :
    next.status.waitingFor = machine.status.waitingFor ∨
      ∃ wait, wait.isMet setting.signals = false ∧ next.status.waitingFor = some wait := by
  cases effect_of_ok hx with
  | pushes _ _ _ htaken | advances _ _ htaken | jumps _ htaken | assigns _ htaken
  | returns _ _ htaken | ends _ _ htaken =>
    have hwaiting := congrArg Status.waitingFor htaken.status
    exact .inl hwaiting
  | stops | enters => exact .inl rfl
  | answers _ hasked | interrupts _ hasked | repeats hasked =>
    have hwaiting := congrArg Status.waitingFor hasked.status
    exact .inl hwaiting
  | waits hunmet => exact .inr ⟨_, hunmet, rfl⟩

theorem isMet_of_step {wait : WaitRequirement} (hs : machine.step setting instruction = .ok next)
    (hwait : next.status.waitingFor = some wait) : wait.isMet setting.signals = false := by
  obtain ⟨done, hx, rfl⟩ := ok_cases hs
  have hstatus : done.finishStep.status = done.status := by
    unfold finishStep
    split <;> rfl
  rw [hstatus] at hwait
  obtain hsame | ⟨other, hunmet, hother⟩ := waitingFor_of_execute hx
  · cases hsame.symm.trans hwait
  · cases hother.symm.trans hwait
    exact hunmet

theorem isMet_of_runFor {fuel : Nat} {wait : WaitRequirement} {last : Machine H}
    (hstart : machine.status.waitingFor = none) (h : runFor setting fuel machine = some (.ok last))
    (hwait : last.status.waitingFor = some wait) : wait.isMet setting.signals = false := by
  obtain ⟨paused, hreaches, -, rfl⟩ := reaches_of_runFor_ok h
  have hunmet := hreaches.preserves
    (P := fun machine => ∀ wait, machine.status.waitingFor = some wait →
      wait.isMet setting.signals = false)
    (fun _ _ hs _ hwait => isMet_of_step hs hwait)
    fun _ hwait => absurd (hstart.symm.trans hwait) nofun
  unfold settle at hwait
  split at hwait
  · cases hwait
  · exact hunmet wait hwait

theorem runFor_hearing (h : setting.Heedless) {fuel : Nat}
    (htests : ∀ last name, Reaches (setting.hearing []) machine last → last.Tests name →
      name ∉ signals)
    (hpause : ∀ paused wait, runFor (setting.hearing []) fuel machine = some (.ok paused) →
      paused.status.waitingFor = some wait → wait.isMet signals = false) :
    runFor (setting.hearing signals) fuel machine = runFor (setting.hearing []) fuel machine := by
  induction fuel generalizing machine with
  | zero => rw [runFor, runFor]
  | succ fuel ih =>
    cases hn : machine.next? with
    | none => rw [runFor_of_next?_eq_none hn, runFor_of_next?_eq_none hn]
    | some instruction =>
      have hstep : machine.step (setting.hearing signals) instruction =
          machine.step (setting.hearing []) instruction := by
        cases hlimit : machine.limitReached? (setting.hearing []) with
        | some limit =>
          have hlimit' : machine.limitReached? (setting.hearing signals) = some limit := hlimit
          rw [step, step, hlimit, hlimit']
        | none =>
          refine step_hearing h ?_
          obtain ⟨op, pos⟩ := instruction
          cases op with
          | callBuiltin function argc =>
            exact fun hfunction name hname =>
              htests machine name .refl ⟨function, argc, pos, hn, hfunction, hname⟩
          | wait all names =>
            show WaitRequirement.isMet ⟨all, names⟩ signals = WaitRequirement.isMet ⟨all, names⟩ []
            cases hmet : WaitRequirement.isMet ⟨all, names⟩ [] with
            | true => exact WaitRequirement.isMet_of_nil hmet signals
            | false =>
              have hpending : machine.execution.pendingWait? = some ⟨all, names⟩ :=
                Execution.pendingWait?_eq_some_iff.2 ⟨pos, instruction?_of_next? hn⟩
              have hrun : runFor (setting.hearing []) (fuel + 1) machine =
                  some (.ok (machine.waiting ⟨all, names⟩)) :=
                runFor_of_unmet hn hlimit hmet (Execution.isFinished_of_pendingWait? hpending) fuel
              exact hpause _ _ hrun rfl
          | _ => trivial
      rw [runFor_succ hn, runFor_succ hn, hstep]
      cases hs : machine.step (setting.hearing []) instruction with
      | fail error failed => rfl
      | ok next =>
        refine ih (fun last name hreaches => htests last name (.step hn hs hreaches)) ?_
        intro paused wait hrun
        refine hpause paused wait ?_
        rw [runFor_succ hn, hs]
        exact hrun

end Machine

namespace Runner

inductive Action where
  | load (program : Program)
  | loadGlobals (vars : List (String × Value))
  | loadSignals (signals : List String)
  | resume (fuel : Nat) (execution? : Option Execution)
  | popValue
  | take
  | reset

namespace Action

def signals? : Action → Option (List String)
  | loadSignals signals => some signals
  | reset => some []
  | _ => none

def isRun : Action → Bool
  | resume .. => true
  | _ => false

def lastLoaded (before : List String) (actions : List Action) : List String :=
  actions.foldl (fun signals action => action.signals?.getD signals) before

def sinceRun (actions : List Action) : List Action := actions.rtakeWhile fun action => !action.isRun

end Action

open Runner.Action

/-- None if a run does not end within its steps. A program that is refused changes nothing. -/
def perform (state : Runner H × World H) : Action → Option (Runner H × World H)
  | .load program => some ((state.1.load program).toOption.getD state.1, state.2)
  | .loadGlobals vars => some (state.1.loadGlobals vars, state.2)
  | .loadSignals signals => some (state.1.loadSignals signals, state.2)
  | .resume fuel execution? => (state.1.resume fuel state.2 execution?).map Prod.snd
  | .popValue => some (state.1.popValue.2, state.2)
  | .take => some (state.1.take.2, state.2)
  | .reset => some (state.1.reset, state.2)

variable {runner next : Runner H} {world after : World H} {action : Action} {actions : List Action}

theorem setting_run {fuel : Nat} {error? : Option RunError}
    (h : runner.run fuel world = some (error?, next, after)) : next.setting = runner.setting := by
  unfold run at h
  split at h
  · obtain ⟨outcome, -, hresult⟩ := Option.map_eq_some_iff.1 h
    cases hresult
    rfl
  · cases h
    rfl

theorem setting_perform (h : perform (runner, world) action = some (next, after)) :
    next.setting = runner.setting.hearing (action.signals?.getD runner.signals) := by
  cases action with
  | load program =>
    cases h
    unfold load
    split <;> rfl
  | resume fuel execution? =>
    obtain ⟨⟨error?, result⟩, hrun, rfl⟩ := Option.map_eq_some_iff.1 h
    cases execution? with
    | none => exact setting_run hrun
    | some execution =>
      exact (setting_run hrun : next.setting = (runner.holding execution).setting)
  | popValue =>
    cases h
    show (popValue runner).2.setting = _
    unfold popValue
    split <;> rfl
  | loadGlobals | loadSignals | take | reset =>
    cases h
    rfl

theorem setting_foldlM {state last : Runner H × World H}
    (h : actions.foldlM perform state = some last) :
    last.1.setting = state.1.setting.hearing (lastLoaded state.1.signals actions) := by
  induction actions generalizing state with
  | nil =>
    cases h
    rfl
  | cons action rest ih =>
    obtain ⟨between, hfirst, hrest⟩ := Option.bind_eq_some_iff.1 ((List.foldlM_cons ..).symm.trans h)
    have hset := setting_perform hfirst
    have hsignals : between.1.signals = action.signals?.getD state.1.signals :=
      congrArg Setting.signals hset
    rw [ih hrest, hset, hsignals]
    rfl

namespace Action

theorem lastLoaded_append (before : List String) (actions rest : List Action) :
    lastLoaded before (actions ++ rest) = lastLoaded (lastLoaded before actions) rest :=
  List.foldl_append

theorem lastLoaded_of_forall (before : List String) (h : ∀ action ∈ actions, action.signals? = none) :
    lastLoaded before actions = before := by
  induction actions with
  | nil => rfl
  | cons action rest ih =>
    rw [List.forall_mem_cons] at h
    rw [lastLoaded, List.foldl_cons, h.1]
    exact ih h.2

theorem lastLoaded_of_mem (before other : List String)
    (h : ∃ action ∈ actions, action.signals?.isSome) :
    lastLoaded before actions = lastLoaded other actions := by
  induction actions generalizing before other with
  | nil =>
    obtain ⟨action, hmem, -⟩ := h
    cases hmem
  | cons action rest ih =>
    simp only [lastLoaded, List.foldl_cons]
    cases hs : action.signals? with
    | some signals => rfl
    | none =>
      refine ih _ _ ?_
      obtain ⟨other, hmem, hsome⟩ := h
      obtain rfl | hmem := List.mem_cons.1 hmem
      · rw [hs] at hsome
        cases hsome
      · exact ⟨other, hmem, hsome⟩

theorem lastLoaded_of_resets (h : ∀ action ∈ actions, action.signals?.getD [] = []) :
    lastLoaded [] actions = [] := by
  induction actions with
  | nil => rfl
  | cons action rest ih =>
    rw [List.forall_mem_cons] at h
    rw [lastLoaded, List.foldl_cons, h.1]
    exact ih h.2

theorem lastLoaded_sinceRun_iff (actions : List Action) :
    lastLoaded [] actions = lastLoaded [] (sinceRun actions) ↔
      lastLoaded [] actions = [] ∨ ∃ signals, .loadSignals signals ∈ sinceRun actions := by
  obtain ⟨older, holder⟩ : sinceRun actions <:+ actions := List.rtakeWhile_suffix _ _
  have hsplit : lastLoaded [] actions = lastLoaded (lastLoaded [] older) (sinceRun actions) := by
    rw [← lastLoaded_append, holder]
  by_cases hset : ∃ action ∈ sinceRun actions, action.signals?.isSome
  · have hsame : lastLoaded [] actions = lastLoaded [] (sinceRun actions) :=
      hsplit.trans (lastLoaded_of_mem _ _ hset)
    refine iff_of_true hsame ?_
    by_contra! hnone
    -- without a load since the run there was a reset, which leaves no signals
    refine hnone.1 (hsame.trans (lastLoaded_of_resets fun action hmem => ?_))
    cases action with
    | loadSignals signals => exact absurd hmem (hnone.2 signals)
    | _ => simp [signals?]
  · have hkept : ∀ action ∈ sinceRun actions, action.signals? = none := by simpa using hset
    rw [lastLoaded_of_forall [] hkept]
    refine ⟨.inl, fun h => h.resolve_right ?_⟩
    rintro ⟨signals, hmem⟩
    cases hkept _ hmem

end Action

def silenced (result : Option RunError × Runner H × World H) :
    Option RunError × Runner H × World H :=
  (result.1, result.2.1.loadSignals [], result.2.2)

variable {setting : Setting H} {signals : List String} {execution : Execution}

theorem resume_none_eq (hloaded : runner.loaded = true) (fuel : Nat) (world : World H) :
    runner.resume fuel world none =
      (ofSetting runner.setting).resume fuel world (some runner.execution) := by
  obtain ⟨execution, loaded, functions, methods, signals, status, limits⟩ := runner
  cases hloaded
  rfl

theorem resume_some_eq (fuel : Nat) (world : World H) (execution : Execution) :
    (ofSetting setting).resume fuel world (some execution) =
      (Machine.runFor setting fuel ⟨execution, .started, world⟩).map fun outcome =>
        (outcome.error?, ((ofSetting setting).holding execution).absorb outcome) := rfl

theorem map_silenced_resume (fuel : Nat) (world : World H) (execution : Execution) :
    ((ofSetting (setting.hearing signals)).resume fuel world (some execution)).map silenced =
      (Machine.runFor (setting.hearing signals) fuel ⟨execution, .started, world⟩).map fun outcome =>
        (outcome.error?, ((ofSetting (setting.hearing [])).holding execution).absorb outcome) := by
  rw [resume_some_eq, Option.map_map]
  rfl

theorem map_silenced_resume_eq_iff (h : setting.Heedless) {fuel : Nat} (htests : ∀ machine name,
      Machine.Reaches (setting.hearing []) ⟨execution, .started, world⟩ machine →
        machine.Tests name → name ∉ signals) :
    ((ofSetting (setting.hearing signals)).resume fuel world (some execution)).map silenced =
        ((ofSetting (setting.hearing [])).resume fuel world (some execution)).map silenced ↔
      ∀ paused after wait,
        (ofSetting (setting.hearing [])).resume fuel world (some execution) =
            some (none, paused, after) →
          paused.status.waitingFor = some wait → wait.isMet signals = false := by
  rw [map_silenced_resume, map_silenced_resume]
  constructor
  · intro hsame paused after wait hpaused hwait
    rw [resume_some_eq] at hpaused
    obtain ⟨outcome, hrun, hresult⟩ := Option.map_eq_some_iff.1 hpaused
    rw [hrun] at hsame
    obtain ⟨other, hother, halike⟩ := Option.map_eq_some_iff.1 hsame
    replace halike := halike.trans hresult
    cases other with
    | fail error failed => cases congrArg Prod.fst halike
    | ok last =>
      have hlast : last.status.waitingFor = some wait := by
        rw [← hwait]
        exact congrArg (fun result => result.2.1.status.waitingFor) halike
      exact Machine.isMet_of_runFor rfl hother hlast
  · intro hpause
    rw [Machine.runFor_hearing h htests]
    intro paused wait hrun hwait
    refine hpause (((ofSetting (setting.hearing [])).holding execution).absorb (.ok paused)).1
      paused.world wait ?_ hwait
    rw [resume_some_eq, hrun]
    rfl

end Runner

theorem Execution.Keepable.untagged_eq {objects : Objects} {execution : Execution}
    (h : execution.Keepable objects) : execution.untagged = execution := by
  have hframe {frame : Frame} (h : frame.Keepable objects) : frame.untagged = frame :=
    (Frame.untagged_eq_iff h.distinct).2 h.names
  have hcalls : execution.calls.map Frame.untagged = execution.calls := by
    conv_rhs => rw [← List.map_id execution.calls]
    exact List.map_congr_left fun frame hmem =>
      hframe (h.frames frame (List.mem_cons_of_mem _ (List.mem_reverse.2 hmem)))
  rw [untagged, hcalls, hframe (h.frames _ List.mem_cons_self)]

/-- A runner keeps the signals that were loaded last, so that a run sees signals from before the last
run unless others have been loaded since. A kept execution is found in its text again, and goes on in
its runner as in a new one with the same host, limits and signals: if there are any, not as in a new
one without them. Where neither the host nor the functions of the script look at these signals,
the difference shows just if the script comes to wait for them. -/
theorem signals_outlive_runs {setting : Setting H} {actions : List Runner.Action}
    {first world : World H} {runner : Runner H}
    (hactions : actions.foldlM Runner.perform (Runner.ofSetting (setting.hearing []), first) =
      some (runner, world)) :
    runner.signals = Runner.Action.lastLoaded [] actions ∧
    (runner.signals = Runner.Action.lastLoaded [] (Runner.Action.sinceRun actions) ↔
      runner.signals = [] ∨ ∃ signals, .loadSignals signals ∈ Runner.Action.sinceRun actions) ∧
    ∀ {tree : Node} {before : List Node} {objects : Objects}, runner.loaded = true →
      (tree.compile before = .ok runner.execution.program ∨
        tree.compileExpression before = .ok runner.execution.program) →
      runner.execution.Keepable objects → runner.execution.ObjectFree →
      runner.execution.Legible →
      (∃ text, runner.execution.snapshot objects = .ok text ∧
        ∀ (sources : Sources) (store : Objects), ∃ after,
          (Execution.ofSnapshot sources text).Gives store runner.execution after) ∧
      ∀ fuel,
        runner.resume fuel world none =
          ((Runner.ofSetting (setting.hearing [])).loadSignals runner.signals).resume fuel world
            (some runner.execution) ∧
        (setting.Heedless →
          (∀ machine name,
            Machine.Reaches (setting.hearing []) ⟨runner.execution, .started, world⟩ machine →
              machine.Tests name → name ∉ runner.signals) →
          ((runner.resume fuel world none).map Runner.silenced =
              ((Runner.ofSetting (setting.hearing [])).resume fuel world
                (some runner.execution)).map Runner.silenced ↔
            ∀ paused after wait,
              (Runner.ofSetting (setting.hearing [])).resume fuel world (some runner.execution) =
                  some (none, paused, after) →
                paused.status.waitingFor = some wait → wait.isMet runner.signals = false)) := by
  have hsetting : runner.setting = setting.hearing (Runner.Action.lastLoaded [] actions) :=
    Runner.setting_foldlM hactions
  have hsignals : runner.signals = Runner.Action.lastLoaded [] actions :=
    congrArg Setting.signals hsetting
  refine ⟨hsignals, ?_, ?_⟩
  · rw [hsignals]
    exact Runner.Action.lastLoaded_sinceRun_iff actions
  intro tree before objects hloaded hcompile hkeep hfree hlegible
  have htidy : runner.execution.program.Tidy :=
    hcompile.elim Program.tidy_of_compile Program.tidy_of_compileExpression
  refine ⟨?_, fun fuel => ?_⟩
  · obtain ⟨text, htext, hread⟩ := Execution.exists_text_of_formed htidy hkeep.formed hfree
    refine ⟨text, htext, fun sources store => ⟨(store.addSource sources.resolvers).2, ?_⟩⟩
    rw [Restoring.Gives, hread, if_pos hlegible, hkeep.untagged_eq]
  have hresume : runner.resume fuel world none =
      (Runner.ofSetting (setting.hearing runner.signals)).resume fuel world
        (some runner.execution) := by
    rw [Runner.resume_none_eq hloaded, hsetting, hsignals]
  refine ⟨hresume, fun hheedless htests => ?_⟩
  rw [hresume]
  exact Runner.map_silenced_resume_eq_iff hheedless htests

def waitTwice : Node :=
  .root [.wait false ["go"] none, .assign "one" (.int 1 none) none, .stop none,
    .wait false ["go"] none, .assign "two" (.int 2 none) none] none

def atSecondWait : Execution where
  program := ⟨#[⟨.wait false ["go"], none⟩, ⟨.pushValue (.int 1), none⟩, ⟨.setVariable "one", none⟩,
    ⟨.stop, none⟩, ⟨.wait false ["go"], none⟩, ⟨.pushValue (.int 2), none⟩,
    ⟨.setVariable "two", none⟩], []⟩
  globals := ⟨[("one", .int 1)], [], .null, none⟩
  calls := []
  pc := 4
  steps := 4
  lastInterrupt := none

def betweenWaits : Runner Unit :=
  ⟨atSecondWait, true, [], [], ["go"], ⟨false, some .stop, none, none⟩, .unlimited⟩

def silentHost : Setting Unit := ⟨[], [], [], .unlimited⟩

theorem keepable_atSecondWait : atSecondWait.Keepable .empty where
  size_lt := by decide
  pc_le := by decide
  steps_lt := by decide
  frames := by
    refine List.forall_mem_singleton.2 ⟨?_, ?_, ?_, nofun⟩
    · exact List.nodup_singleton _
    · decide
    · simp [Frame.values, atSecondWait, Value.Keepable, Value.Shallow]

theorem objectFree_atSecondWait : atSecondWait.ObjectFree :=
  List.forall_mem_singleton.2
    (Frame.forall_mem_values.2 ⟨List.forall_mem_singleton.2 trivial, nofun, trivial⟩)

theorem legible_atSecondWait : atSecondWait.Legible := by decide +kernel

theorem resume_atSecondWait :
    (Runner.ofSetting silentHost).resume 3 ⟨.empty, ()⟩ (some atSecondWait) =
      some (none, ⟨atSecondWait, true, [], [], [], .waiting ⟨false, ["go"]⟩, .unlimited⟩,
        ⟨.empty, ()⟩) := rfl

theorem signals_outlive_runs_waitTwice : waitTwice.compile [] = .ok atSecondWait.program ∧
      [.load atSecondWait.program, .loadSignals ["go"], .resume 4 none].foldlM Runner.perform
          (Runner.ofSetting silentHost, ⟨.empty, ()⟩) = some (betweenWaits, ⟨.empty, ()⟩) ∧
      atSecondWait.Keepable .empty ∧ atSecondWait.ObjectFree ∧ atSecondWait.Legible ∧
      silentHost.Heedless ∧
      (∃ text after, atSecondWait.snapshot .empty = .ok text ∧
        (Execution.ofSnapshot ⟨[], [], false⟩ text).Gives .empty atSecondWait after) ∧
      betweenWaits.resume 3 ⟨.empty, ()⟩ none =
        ((Runner.ofSetting silentHost).loadSignals ["go"]).resume 3 ⟨.empty, ()⟩
          (some atSecondWait) ∧
      (betweenWaits.resume 3 ⟨.empty, ()⟩ none).map Runner.silenced ≠
        ((Runner.ofSetting silentHost).resume 3 ⟨.empty, ()⟩ (some atSecondWait)).map
          Runner.silenced := by
  have hcompile : waitTwice.compile [] = .ok atSecondWait.program := rfl
  have hactions : [.load atSecondWait.program, .loadSignals ["go"], .resume 4 none].foldlM
      Runner.perform (Runner.ofSetting (silentHost.hearing []), ⟨.empty, ()⟩) =
        some (betweenWaits, ⟨.empty, ()⟩) := rfl
  have hheedless : silentHost.Heedless := ⟨nofun, nofun⟩
  -- the only step of the run without the signal comes to the wait
  have htests : ∀ machine name,
      Machine.Reaches silentHost ⟨atSecondWait, .started, ⟨.empty, ()⟩⟩ machine →
        machine.Tests name → name ∉ ["go"] := by
    rintro machine name hreaches ⟨function, argc, pos, hn, -⟩
    have hfirst : (⟨atSecondWait, .started, ⟨.empty, ()⟩⟩ : Machine Unit).next? =
        some ⟨.wait false ["go"], none⟩ := rfl
    refine absurd hn (Machine.Reaches.forall_of_step (P := fun machine =>
      machine.next? ≠ some ⟨.callBuiltin function argc, pos⟩) (fun h => nomatch hfirst.symm.trans h)
        hfirst rfl ?_ machine hreaches)
    exact Machine.Reaches.forall_of_done nofun rfl
  obtain ⟨-, -, hkept⟩ := signals_outlive_runs hactions
  obtain ⟨⟨text, htext, hread⟩, hresume⟩ := hkept rfl (.inl hcompile) keepable_atSecondWait
    objectFree_atSecondWait legible_atSecondWait
  obtain ⟨after, hgives⟩ := hread ⟨[], [], false⟩ .empty
  refine ⟨hcompile, hactions, keepable_atSecondWait, objectFree_atSecondWait, legible_atSecondWait,
    hheedless, ⟨text, after, htext, hgives⟩, (hresume 3).1, fun hsame => ?_⟩
  cases ((hresume 3).2 hheedless htests).1 hsame _ _ _ resume_atSecondWait rfl

/-- The signal for the first wait lets the script pass the second one, in the next run. -/
theorem signal_meets_wait_of_next_run :
    ∃ (program : Program) (stopped ended waiting : Runner Unit), waitTwice.compile [] = .ok program ∧
      [.load program, .loadSignals ["go"], .resume 4 none].foldlM Runner.perform
          (Runner.ofSetting silentHost, ⟨.empty, ()⟩) = some (stopped, ⟨.empty, ()⟩) ∧
      stopped.status.reason = some .stop ∧
      (∃ text after, stopped.execution.snapshot .empty = .ok text ∧
        (Execution.ofSnapshot ⟨[], [], false⟩ text).Gives .empty stopped.execution after) ∧
      stopped.resume 3 ⟨.empty, ()⟩ none = some (none, ended, ⟨.empty, ()⟩) ∧
      ended.execution.isFinished = true ∧ ended.execution.lookup? "two" = some (.int 2) ∧
      (Runner.ofSetting silentHost).resume 3 ⟨.empty, ()⟩ (some stopped.execution) =
        some (none, waiting, ⟨.empty, ()⟩) ∧
      waiting.status.waitingFor = some ⟨false, ["go"]⟩ ∧
      waiting.execution.lookup? "two" = none := by
  have hcompile : waitTwice.compile [] = .ok atSecondWait.program := rfl
  obtain ⟨text, htext, hread⟩ := Execution.exists_text_of_formed (Program.tidy_of_compile hcompile)
    keepable_atSecondWait.formed objectFree_atSecondWait
  have hgives := hread ⟨[], [], false⟩ .empty
  rw [if_pos legible_atSecondWait, keepable_atSecondWait.untagged_eq] at hgives
  exact ⟨_, betweenWaits, _, _, hcompile, rfl, rfl, ⟨text, _, htext, hgives⟩, rfl, rfl, rfl,
    resume_atSecondWait, rfl, rfl⟩

end DurableScript
