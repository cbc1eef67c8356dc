import DurableScript.Proofs.Persistence
import DurableScript.Proofs.Suspension

namespace DurableScript

namespace Execution

def unmarked (execution : Execution) : Execution := { execution with lastInterrupt := none }

def pastWait (execution : Execution) : Execution :=
  { execution.unmarked with pc := execution.pc + 1, steps := execution.steps + 1 }

variable {execution : Execution} {wait : WaitRequirement}

theorem unmarked_eq_self_iff : execution.unmarked = execution ↔ execution.lastInterrupt = none := by
  refine ⟨fun h => ?_, fun h => ?_⟩
  · rw [← h]
    rfl
  · rw [unmarked, ← h]

theorem pendingWait?_eq_some_iff : execution.pendingWait? = some wait ↔
    ∃ pos, execution.instruction? = some ⟨.wait wait.all wait.names, pos⟩ := by
  unfold pendingWait?
  split
  · next all names pos h =>
    rw [h]
    constructor
    · rintro ⟨⟩
      exact ⟨pos, rfl⟩
    · rintro ⟨_, ⟨⟩⟩
      rfl
  · next h =>
    refine ⟨nofun, fun ⟨pos, hi⟩ => absurd hi (h _ _ _)⟩

theorem isFinished_of_pendingWait? (h : execution.pendingWait? = some wait) :
    execution.isFinished = false := by
  obtain ⟨pos, hi⟩ := pendingWait?_eq_some_iff.1 h
  exact decide_eq_false (Nat.not_le.2 (Array.getElem?_eq_some_iff.1 hi).1)

end Execution

namespace Machine

variable {H : Type} {setting : Setting H} {machine : Machine H} {wait : WaitRequirement}
  {pos : Option SourcePos}

def waiting (machine : Machine H) (wait : WaitRequirement) : Machine H :=
  ⟨machine.execution.unmarked,
    { machine.status with running := false, reason := some .wait, waitingFor := some wait },
    machine.world⟩

theorem step_of_unmet (hlimit : machine.limitReached? setting = none)
    (h : wait.isMet setting.signals = false) :
    machine.step setting ⟨.wait wait.all wait.names, pos⟩ = .ok (machine.waiting wait) := by
  rw [step, hlimit]
  simp only [execute, h]
  rfl

theorem step_of_met (hlimit : machine.limitReached? setting = none)
    (h : wait.isMet setting.signals = true) :
    machine.step setting ⟨.wait wait.all wait.names, pos⟩ =
      checkLimit setting ⟨machine.execution.pastWait, { machine.status with waitingFor := none },
        machine.world⟩ pos := by
  rw [step, hlimit]
  simp only [execute, h]
  rfl

theorem machine_checkLimit (machine : Machine H) :
    (machine.checkLimit setting pos).machine = machine := by
  unfold checkLimit
  split
  · split <;> rfl
  · rfl

theorem runFor_of_unmet (hn : machine.next? = some ⟨.wait wait.all wait.names, pos⟩)
    (hlimit : machine.limitReached? setting = none) (h : wait.isMet setting.signals = false)
    (hf : machine.execution.isFinished = false) (fuel : Nat) :
    runFor setting (fuel + 1) machine = some (.ok (machine.waiting wait)) := by
  have hf : (machine.waiting wait).execution.isFinished = false := hf
  rw [runFor_succ hn, step_of_unmet hlimit h]
  simp only
  rw [runFor_of_next?_eq_none rfl, settle, hf]
  rfl

end Machine

def Status.waiting (wait : WaitRequirement) : Status := ⟨false, some .wait, some wait, none⟩

namespace Execution

def Within (limits : Limits) (execution : Execution) : Prop :=
  ∀ limit, limits.maxCycles = some limit → execution.steps < limit

theorem Within.limitReached?_eq_none {H : Type} {setting : Setting H} {machine : Machine H}
    (h : machine.execution.Within setting.limits) : machine.limitReached? setting = none := by
  unfold Machine.limitReached?
  split
  · next limit hlimit => exact if_neg (Nat.not_le.2 (h limit hlimit))
  · rfl

theorem writeExecution_unmarked {objects : Objects} {execution : Execution}
    {envelope : Snapshot.Envelope} (h : Snapshot.writeExecution objects execution = .ok envelope) :
    Snapshot.writeExecution objects execution.unmarked =
        .ok { envelope with lastInterrupt := none } ∧
      envelope.lastInterrupt = execution.lastInterrupt.map InterruptKind.code := by
  obtain ⟨frames, hframes, h⟩ := Except.bind_eq_ok.1 h
  obtain ⟨instructions, hinstructions, h⟩ := Except.bind_eq_ok.1 h
  obtain ⟨index, hindex, h⟩ := Except.bind_eq_ok.1 h
  cases h
  refine ⟨?_, rfl⟩
  exact Except.bind_eq_ok.2 ⟨frames, hframes, Except.bind_eq_ok.2 ⟨instructions, hinstructions,
    Except.bind_eq_ok.2 ⟨index, hindex, rfl⟩⟩⟩

theorem document_eq_of_text_eq {envelope other : Snapshot.Envelope} (h : envelope.Readable)
    (h' : other.Readable) (htext : envelope.json.text = other.json.text) :
    envelope.json.document = other.json.document := by
  have hparse {envelope : Snapshot.Envelope} (h : envelope.Readable) :
      Document.parse? envelope.json.text.toList = some envelope.json.document := by
    rw [Json.text, String.toList_ofList,
      Document.parse?_render (Json.everywhere_mono Json.IsReadable.isWhole _ h.everywhere_json)]
  rw [← Option.some_inj, ← hparse h, htext, hparse h']

theorem snapshot_unmarked_eq_iff {objects : Objects} {execution : Execution}
    (htidy : execution.program.Tidy) (hkeep : execution.Keepable objects) :
    execution.unmarked.snapshot objects = execution.snapshot objects ↔
      execution.lastInterrupt = none := by
  refine ⟨fun h => ?_, fun h => by rw [unmarked_eq_self_iff.2 h]⟩
  obtain ⟨envelope, hwrite, hreadable, -⟩ := Snapshot.exists_writeExecution htidy hkeep
  obtain ⟨hunmarked, hmark⟩ := writeExecution_unmarked hwrite
  rw [snapshot, snapshot, hwrite, hunmarked] at h
  have hreadable' : ({ envelope with lastInterrupt := none } : Snapshot.Envelope).Readable :=
    { hreadable with lastInterrupt := by rintro _ ⟨⟩ }
  have hsame := document_eq_of_text_eq hreadable hreadable' (Except.ok.inj h).symm
  have hlast : (Json.ofOption Json.ofNat envelope.lastInterrupt).document = .null := by
    have hmembers := Document.obj.inj hsame
    simp only [Json.memberDocuments, List.cons.injEq, Prod.mk.injEq] at hmembers
    exact hmembers.2.2.2.2.2.1.2
  rw [hmark] at hlast
  cases hkind : execution.lastInterrupt with
  | none => rfl
  | some kind =>
    rw [hkind] at hlast
    cases hlast

end Execution

namespace Runner

variable {H : Type} {runner : Runner H} {execution : Execution} {wait : WaitRequirement}

def poll (fuel : Nat) : List (List String) → Runner H → World H →
    Option (Option RunError × Runner H × World H)
  | [], runner, world => some (none, runner, world)
  | signals :: polls, runner, world =>
    match (runner.loadSignals signals).resume fuel world none with
    | some (none, next, world) => poll fuel polls next world
    | stopped => stopped

def Resumes (runner : Runner H) (execution? : Option Execution) (execution : Execution) : Prop :=
  match execution? with
  | none => runner.loaded = true ∧ runner.execution = execution
  | some given => given = execution

theorem run_of_unmet (hloaded : runner.loaded = true)
    (hwait : runner.execution.pendingWait? = some wait)
    (hwithin : runner.execution.Within runner.limits) (h : wait.isMet runner.signals = false)
    (fuel : Nat) (world : World H) : runner.run (fuel + 1) world =
      some (none, { runner with execution := runner.execution.unmarked, status := .waiting wait },
        world) := by
  obtain ⟨pos, hi⟩ := Execution.pendingWait?_eq_some_iff.1 hwait
  have hn : (runner.machine world).next? = some ⟨.wait wait.all wait.names, pos⟩ := hi
  have hlimit : (runner.machine world).limitReached? runner.setting = none :=
    Execution.Within.limitReached?_eq_none hwithin
  rw [run, if_pos hloaded, Machine.runFor_of_unmet hn hlimit h
    (Execution.isFinished_of_pendingWait? hwait)]
  rfl

def holding (runner : Runner H) (execution : Execution) : Runner H :=
  { runner with execution := execution, loaded := true }

theorem Resumes.resume_eq {execution? : Option Execution} (h : runner.Resumes execution? execution)
    (fuel : Nat) (world : World H) :
    runner.resume fuel world execution? = (runner.holding execution).run fuel world := by
  cases execution? with
  | none =>
    obtain ⟨hloaded, rfl⟩ := h
    rw [resume, holding, ← hloaded]
  | some given =>
    obtain rfl := h
    rfl

theorem poll_of_unmet (polls : List (List String)) (hloaded : runner.loaded = true)
    (hstatus : runner.status = .waiting wait) (hmark : runner.execution.lastInterrupt = none)
    (hwait : runner.execution.pendingWait? = some wait)
    (hwithin : runner.execution.Within runner.limits)
    (h : ∀ signals ∈ polls, wait.isMet signals = false) (fuel : Nat) (world : World H) :
    ∃ signals, runner.poll (fuel + 1) polls world =
      some (none, runner.loadSignals signals, world) := by
  induction polls generalizing runner with
  | nil => exact ⟨runner.signals, rfl⟩
  | cons signals polls ih =>
    rw [List.forall_mem_cons] at h
    have hrun : (runner.loadSignals signals).run (fuel + 1) world =
        some (none, runner.loadSignals signals, world) := by
      have hsame : (runner.loadSignals signals).execution.unmarked = runner.execution :=
        Execution.unmarked_eq_self_iff.2 hmark
      rw [@run_of_unmet H (runner.loadSignals signals) wait hloaded hwait hwithin h.1, hsame,
        ← hstatus]
      rfl
    obtain ⟨last, ih⟩ := @ih (runner.loadSignals signals) hloaded hstatus hmark hwait hwithin h.2
    refine ⟨last, ?_⟩
    rw [poll, resume, hrun]
    exact ih

end Runner

/-- Resuming an execution at a wait that the signals do not meet stops at the wait again, and changes
nothing of the execution but the mark of the last interrupt, which it clears: the execution is left
as it was, and so is its text, just when it bore no mark. Any number of further polls leave it alone.
A wait that is met moves the execution on by one instruction and one step, and clears the mark. -/
theorem poll_clears_only_the_mark {H : Type} {runner : Runner H} {execution? : Option Execution}
    {execution : Execution} {wait : WaitRequirement} (hresumes : runner.Resumes execution? execution)
    (hwait : execution.pendingWait? = some wait) (hwithin : execution.Within runner.limits)
    (fuel : Nat) (world : World H) :
    (wait.isMet runner.signals = false → ∃ polled,
      runner.resume (fuel + 1) world execution? = some (none, polled, world) ∧
      polled.status = .waiting wait ∧ polled.execution = execution.unmarked ∧
      (polled.execution = execution ↔ execution.lastInterrupt = none) ∧
      (∀ {tree : Node} {before : List Node} {objects : Objects},
        tree.compile before = .ok execution.program → execution.Keepable objects →
          (polled.execution.snapshot objects = execution.snapshot objects ↔
            execution.lastInterrupt = none)) ∧
      ∀ polls, (∀ signals ∈ polls, wait.isMet signals = false) → ∃ last,
        polled.poll (fuel + 1) polls world = some (none, last, world) ∧
          last.status = .waiting wait ∧ last.execution = polled.execution) ∧
    (wait.isMet runner.signals = true → ∃ instruction,
      (⟨execution, .started, world⟩ : Machine H).next? = some instruction ∧
        ((⟨execution, .started, world⟩ : Machine H).step runner.setting instruction).machine =
          ⟨execution.pastWait, .started, world⟩) := by
  refine ⟨fun h => ?_, fun h => ?_⟩
  · have hrun := @Runner.run_of_unmet H (runner.holding execution) wait rfl hwait hwithin h fuel world
    refine ⟨_, (hresumes.resume_eq _ _).trans hrun, rfl, rfl, Execution.unmarked_eq_self_iff,
      fun hcompile hkeep =>
        Execution.snapshot_unmarked_eq_iff (Program.tidy_of_compile hcompile) hkeep, ?_⟩
    intro polls hpolls
    obtain ⟨signals, hpoll⟩ := @Runner.poll_of_unmet H
      { runner.holding execution.unmarked with status := .waiting wait } wait polls rfl rfl rfl hwait
      hwithin hpolls fuel world
    exact ⟨_, hpoll, rfl, rfl⟩
  · obtain ⟨pos, hi⟩ := Execution.pendingWait?_eq_some_iff.1 hwait
    have hlimit : (⟨execution, .started, world⟩ : Machine H).limitReached? runner.setting = none :=
      Execution.Within.limitReached?_eq_none hwithin
    refine ⟨_, hi, ?_⟩
    rw [Machine.step_of_met hlimit h, Machine.machine_checkLimit]
    rfl

def askThenWait : Node := .root [.call "ask" [] none, .wait false ["go"] none] none

def pausing : FunctionProvider Unit where
  supports := (· == "ask")
  invoke _ _ _ world := (⟨[], .ok (.after (.int 1) none)⟩, world)

def markedWait : Execution where
  program := ⟨#[⟨.call "ask" 0 0, none⟩, ⟨.wait false ["go"], none⟩], []⟩
  globals := ⟨[], [], .int 1, none⟩
  calls := []
  pc := 1
  steps := 1
  lastInterrupt := some .after

theorem keepable_markedWait : markedWait.Keepable .empty where
  size_lt := by decide
  pc_le := by decide
  steps_lt := by decide
  frames := by
    refine List.forall_mem_singleton.2 ⟨List.nodup_nil, nofun, ?_, nofun⟩
    simp [Frame.values, markedWait, Value.Keepable, Value.Shallow]

theorem poll_clears_only_the_mark_markedWait : askThenWait.compile [] = .ok markedWait.program ∧
      (Runner.ofLimits ⟨some 5, none⟩ : Runner Unit).Resumes (some markedWait) markedWait ∧
      markedWait.pendingWait? = some ⟨false, ["go"]⟩ ∧ markedWait.Within ⟨some 5, none⟩ ∧
      ∃ polled, (Runner.ofLimits ⟨some 5, none⟩ : Runner Unit).resume 1 ⟨.empty, ()⟩ (some markedWait) =
          some (none, polled, ⟨.empty, ()⟩) ∧ polled.execution = markedWait.unmarked ∧
        ∃ last, polled.poll 1 [["stop"], []] ⟨.empty, ()⟩ = some (none, last, ⟨.empty, ()⟩) ∧
          last.execution = polled.execution := by
  have hresumes : (Runner.ofLimits ⟨some 5, none⟩ : Runner Unit).Resumes (some markedWait) markedWait :=
    rfl
  have hwithin : markedWait.Within ⟨some 5, none⟩ := by
    rintro _ ⟨⟩
    decide
  obtain ⟨polled, hpolled, -, hexecution, -, -, hagain⟩ :=
    (poll_clears_only_the_mark hresumes rfl hwithin 0 ⟨.empty, ()⟩).1 rfl
  obtain ⟨last, hlast, -, hsame⟩ := hagain [["stop"], []] (by decide)
  exact ⟨rfl, hresumes, rfl, hwithin, polled, hpolled, hexecution, last, hlast, hsame⟩

/-- A script that the host has paused right before a wait is not left alone by the first poll. -/
theorem poll_changes_paused_script :
    ∃ (program : Program) (paused polled : Runner Unit), askThenWait.compile [] = .ok program ∧
      Runner.run 2 ⟨.start program, true, [pausing], [], [], .idle, .unlimited⟩ ⟨.empty, ()⟩ =
        some (none, paused, ⟨.empty, ()⟩) ∧
      paused.execution.pendingWait? = some ⟨false, ["go"]⟩ ∧
      paused.resume 1 ⟨.empty, ()⟩ none = some (none, polled, ⟨.empty, ()⟩) ∧
      polled.status.reason = some .wait ∧ polled.execution ≠ paused.execution ∧
      polled.execution.snapshot .empty ≠ paused.execution.snapshot .empty := by
  refine ⟨_, _, _, rfl, rfl, rfl, rfl, rfl, fun h => ?_, fun h => ?_⟩
  · cases congrArg Execution.lastInterrupt h
  · have htidy : markedWait.program.Tidy :=
      Program.tidy_of_compile (show askThenWait.compile [] = _ from rfl)
    cases (Execution.snapshot_unmarked_eq_iff htidy keepable_markedWait).1 h

end DurableScript
