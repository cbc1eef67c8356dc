import DurableScript.Proofs.CycleLimit
import DurableScript.Proofs.LazyLookups
import DurableScript.Proofs.Rewinding

namespace DurableScript

variable {H : Type}

def Answer.interrupt? : Answer → Option (InterruptKind × Option Value)
  | value _ => none
  | before extra => some (.before, extra)
  | after _ extra => some (.after, extra)

def Machine.interrupt? (setting : Setting H) (machine : Machine H) (op : Op) :
    Option (InterruptKind × Option Value) :=
  match machine.request? setting op with
  | some (request, found) =>
    match (found.reply setting request).1.outcome with
    | .ok answer => answer.interrupt?
    | .error _ => none
  | none => none

namespace Machine

variable {setting : Setting H} {machine next : Machine H} {op : Op}

structure SameSigns (machine next : Machine H) : Prop where
  status : next.status = machine.status
  mark : next.execution.lastInterrupt = machine.execution.lastInterrupt

theorem Asked.interrupt?_eq {request : Request H} {said : Machine H} {answer : Answer}
    (h : Asked setting machine op request (.ok answer) said) :
    machine.interrupt? setting op = answer.interrupt? := by
  obtain ⟨found, hr, -, hsaid, -⟩ := h
  simp only [interrupt?, hr, hsaid]

theorem interrupt?_of_call? (h : op.call? = none) : machine.interrupt? setting op = none := by
  unfold interrupt?
  split
  · next hr => cases h.symm.trans (call?_of_request? hr)
  · rfl

inductive Leaves (setting : Setting H) (machine : Machine H) (op : Op) : Machine H → Prop where
  | goingOn {next : Machine H} : machine.interrupt? setting op = none → machine.SameSigns next →
      Leaves setting machine op next
  | stopped {next : Machine H} : machine.interrupt? setting op = none → machine.SameSigns next →
      Leaves setting machine op (next.pause .stop)
  | returned {next : Machine H} : machine.interrupt? setting op = none → machine.SameSigns next →
      next.execution.isFinished = true → next.execution.calls = [] →
      Leaves setting machine op (next.pause .returned)
  | waiting {wait : WaitRequirement} : op = .wait wait.all wait.names →
      wait.isMet setting.signals = false →
      Leaves setting machine op
        (pause { machine with status := { machine.status with waitingFor := some wait } } .wait)
  | interrupted {next : Machine H} {kind : InterruptKind} {extra : Option Value} :
      machine.interrupt? setting op = some (kind, extra) → machine.SameSigns next →
      Leaves setting machine op (next.interrupted kind extra)

theorem leaves_of_execute (hx : execute setting machine op = .ok next) :
    Leaves setting machine op next := by
  cases effect_of_ok hx with
  | pushes value _ hcall htaken =>
    exact .goingOn (interrupt?_of_call? hcall)
      ⟨htaken.status, (htaken.stays.trans (stays_push _ value)).mark⟩
  | advances hcomputes _ htaken =>
    refine .goingOn (interrupt?_of_call? ?_) ⟨htaken.status, htaken.stays.mark⟩
    cases hcall : op.call? with
    | none => rfl
    | some call => cases hcomputes.symm.trans (Op.computes_of_call? hcall)
  | jumps hjump htaken =>
    refine .goingOn (interrupt?_of_call? ?_) ⟨htaken.status, htaken.stays.mark⟩
    cases op with
    | jump | jumpUnless => rfl
    | _ => cases hjump
  | assigns value htaken =>
    exact .goingOn rfl
      ⟨htaken.status, (htaken.stays.trans (Execution.stays_assign _ _ value)).mark⟩
  | stops =>
    have hadvanced : machine.SameSigns machine.advance := ⟨rfl, rfl⟩
    exact .stopped rfl hadvanced
  | waits hunmet => exact .waiting rfl hunmet
  | enters hentry =>
    refine .goingOn ?_ ⟨rfl, (machine.execution.stays_dropOperands _).mark⟩
    rw [interrupt?, request?_eq_none_of_entry hentry]
  | returns value _ htaken =>
    exact .goingOn rfl
      ⟨htaken.status, (stays_setResult (withCalls _ _) value).mark.trans htaken.stays.mark⟩
  | @ends _ taken value _ htaken hcalls =>
    have hstays := stays_setResult taken value
    have hends : machine.SameSigns ((taken.setResult value).goTo taken.execution.program.size) :=
      ⟨htaken.status, (htaken.stays.trans hstays).mark⟩
    exact .returned rfl hends (decide_eq_true (hstays.program ▸ Nat.le_refl _)) (hstays.nil hcalls)
  | answers result hasked =>
    exact .goingOn hasked.interrupt?_eq
      ⟨hasked.status, (hasked.stays.trans (stays_setResult _ result)).mark⟩
  | @interrupts _ _ said _ result hasked =>
    have hanswered : machine.SameSigns (said.setResult result).advance :=
      ⟨hasked.status, (hasked.stays.trans (stays_setResult _ result)).mark⟩
    exact .interrupted hasked.interrupt?_eq hanswered
  | @repeats _ request said _ hasked =>
    have hmoved : machine.SameSigns (said.goTo request.restart) := ⟨hasked.status, hasked.stays.mark⟩
    exact .interrupted hasked.interrupt?_eq hmoved

end Machine

/-- What the status of a run that is over tells of its execution. -/
structure Status.Fits (status : Status) (signals : List String) (execution : Execution) : Prop where
  running : status.running = false
  reason : execution.isFinished = false → status.reason.isSome = true
  waits : status.waitingFor.isSome = true ↔ status.reason = some .wait
  unmet : ∀ wait, status.waitingFor = some wait →
    execution.pendingWait? = some wait ∧ wait.isMet signals = false
  returned : status.reason = some .returned → execution.isFinished = true ∧ execution.calls = []
  extra : status.extra.isSome = true → status.reason = some .hostRequest

namespace Machine

variable {setting : Setting H} {machine next : Machine H} {instruction : Instruction}

theorem settle_of_finished (h : next.execution.isFinished = true) :
    next.settle = ⟨next.execution, { next.status with running := false, waitingFor := none },
      next.world⟩ := if_pos h

theorem settle_of_paused (hrunning : next.status.running = false)
    (hwaiting : next.status.waitingFor = none) : next.settle = next := by
  obtain ⟨execution, ⟨running, reason, waitingFor, extra⟩, world⟩ := next
  obtain rfl : running = false := hrunning
  obtain rfl : waitingFor = none := hwaiting
  exact ite_self _

structure Reports (setting : Setting H) (before : Machine H) (op : Op) (after : Machine H) : Prop where
  fits : after.status.Fits setting.signals after.execution
  mark : before.clearMarks.interrupt? setting op =
    after.execution.lastInterrupt.map fun kind => (kind, after.status.extra)
  agree : after.execution.lastInterrupt.isSome = true ↔ after.status.reason = some .hostRequest

theorem reports_of_unmarked {op : Op} {after : Machine H} {reason? : Option PauseReason}
    (hnone : machine.clearMarks.interrupt? setting op = none)
    (hmark : after.execution.lastInterrupt = none) (hstatus : after.status = ⟨false, reason?, none, none⟩)
    (hhost : reason? ≠ some .hostRequest) (hwait : reason? ≠ some .wait)
    (hreason : after.execution.isFinished = false → reason?.isSome = true)
    (hreturned : reason? = some .returned →
      after.execution.isFinished = true ∧ after.execution.calls = []) :
    Reports setting machine op after where
  fits := by
    rw [hstatus]
    exact ⟨rfl, hreason, ⟨nofun, fun h => absurd h hwait⟩, nofun, hreturned, nofun⟩
  mark := by rw [hnone, hmark]; rfl
  agree := by
    rw [hmark, hstatus]
    exact ⟨nofun, fun h => absurd h hhost⟩

theorem settle_finishStep {done : Machine H} {reason? : Option PauseReason} {extra : Option Value}
    (h : done.status = ⟨false, reason?, none, extra⟩) :
    done.finishStep.settle = done.countStep := by
  have hstatus : done.countStep.status = ⟨false, reason?, none, extra⟩ := h
  rw [finishStep_of_none (by rw [h])]
  exact settle_of_paused (by rw [hstatus]) (by rw [hstatus])

theorem reports_of_step (hstarted : machine.status = .started)
    (hn : machine.next? = some instruction) (hs : machine.step setting instruction = .ok next)
    (hover : next.next? = none) : Reports setting machine instruction.op next.settle := by
  have hclear : machine.clearMarks.status = .started := by
    rw [clearMarks, hstarted]
    rfl
  obtain ⟨done, hx, rfl⟩ := ok_cases hs
  cases leaves_of_execute hx with
  | goingOn hnone hsame =>
    have hstatus : done.countStep.status = .started := hsame.status.trans hclear
    have hfinish : done.finishStep = done.countStep :=
      finishStep_of_none (congrArg Status.waitingFor hstatus)
    rw [hfinish] at hover ⊢
    have hfinished : done.countStep.execution.isFinished = true :=
      (next?_eq_none_iff hstatus).1 hover
    rw [settle_of_finished hfinished]
    have hover : { done.countStep.status with running := false, waitingFor := none } =
        (⟨false, none, none, none⟩ : Status) := by
      rw [hstatus]
      rfl
    exact reports_of_unmarked hnone hsame.mark hover (by simp) (by simp)
      (fun hunfinished => absurd (hunfinished.symm.trans hfinished) (by simp)) (by simp)
  | @stopped done hnone hsame =>
    have hstatus : (done.pause .stop).status = ⟨false, some .stop, none, none⟩ := by
      rw [pause, hsame.status, hclear]
      rfl
    rw [settle_finishStep hstatus]
    exact reports_of_unmarked hnone hsame.mark hstatus (by simp) (by simp) (fun _ => rfl) (by simp)
  | @returned done hnone hsame hfinished hcalls =>
    have hstatus : (done.pause .returned).status = ⟨false, some .returned, none, none⟩ := by
      rw [pause, hsame.status, hclear]
      rfl
    rw [settle_finishStep hstatus]
    exact reports_of_unmarked hnone hsame.mark hstatus (by simp) (by simp) (fun _ => rfl)
      fun _ => ⟨hfinished, hcalls⟩
  | @waiting wait hop hunmet =>
    have hpending : machine.execution.pendingWait? = some wait := by
      rw [next?, hstarted] at hn
      refine Execution.pendingWait?_eq_some_iff.2 ⟨instruction.pos, ?_⟩
      rw [← hop]
      exact hn
    have hunfinished : (machine.waiting wait).execution.isFinished = false :=
      Execution.isFinished_of_pendingWait? (show _ = some wait from hpending)
    have hsettle : (machine.waiting wait).settle = machine.waiting wait :=
      if_neg (Bool.eq_false_iff.1 hunfinished)
    show Reports setting machine instruction.op (machine.waiting wait).settle
    have hnone : machine.clearMarks.interrupt? setting instruction.op = none := by rw [hop]; rfl
    rw [hsettle]
    refine ⟨⟨rfl, fun _ => rfl, ⟨fun _ => rfl, fun _ => rfl⟩, ?_, by rintro ⟨⟩, ?_⟩, hnone,
      ⟨by rintro ⟨⟩, by rintro ⟨⟩⟩⟩
    · rintro _ ⟨⟩
      exact ⟨hpending, hunmet⟩
    · show machine.status.extra.isSome = true → _
      rw [hstarted]
      rintro ⟨⟩
  | @interrupted done kind extra hinterrupt hsame =>
    have hstatus : (done.interrupted kind extra).status =
        ⟨false, some .hostRequest, none, extra⟩ := by
      rw [Machine.interrupted, pause, hsame.status, hclear]
      rfl
    rw [settle_finishStep hstatus]
    refine ⟨?_, hinterrupt.trans ?_, ?_⟩
    · show Status.Fits (done.interrupted kind extra).status _ _
      rw [hstatus]
      exact ⟨rfl, fun _ => rfl, ⟨by simp, by simp⟩, by simp, by simp, fun _ => rfl⟩
    · show _ = some (kind, (done.interrupted kind extra).status.extra)
      rw [hstatus]
    · exact ⟨fun _ => congrArg Status.reason hstatus, fun _ => rfl⟩

theorem Reaches.eq_of_next? {last : Machine H} (h : Reaches setting machine last)
    (hn : machine.next? = none) : last = machine := by
  cases h with
  | refl => rfl
  | step hn' => cases hn.symm.trans hn'

theorem fits_of_finished (hstarted : machine.status = .started)
    (hfinished : machine.execution.isFinished = true) (signals : List String) :
    machine.settle.status.Fits signals machine.settle.execution := by
  rw [settle_of_finished hfinished, hstarted]
  have hreason : machine.execution.isFinished = false → (none : Option PauseReason).isSome = true :=
    fun hunfinished => absurd (hunfinished.symm.trans hfinished) nofun
  exact ⟨rfl, hreason, ⟨nofun, nofun⟩, nofun, nofun, nofun⟩

theorem reports_of_reaches {first : Instruction} {paused : Machine H}
    (hr : Reaches setting machine paused) (hstarted : machine.status = .started)
    (hfirst : machine.next? = some first) (hover : paused.next? = none) :
    ∃ last instruction, Reaches setting machine last ∧ last.next? = some instruction ∧
      last.step setting instruction = .ok paused ∧
      Reports setting last instruction.op paused.settle := by
  induction hr generalizing first with
  | refl =>
    rw [hover] at hfirst
    cases hfirst
  | @step machine next paused instruction hn hs hr ih =>
    cases hnext : next.next? with
    | none =>
      obtain rfl : paused = next := hr.eq_of_next? hnext
      exact ⟨machine, instruction, .refl, hn, hs, reports_of_step hstarted hn hs hnext⟩
    | some second =>
      have hrunning : next.status.running = true := running_of_next? hnext
      have hstarted' : next.status = .started :=
        (status_of_step hstarted hs).resolve_right (by rw [hrunning]; exact nofun)
      obtain ⟨last, final, hlast, h⟩ := ih hstarted' hnext hover
      exact ⟨last, final, .step hn hs hlast, h⟩

end Machine

theorem Runner.exists_reaches_of_resume {runner next : Runner H} {fuel : Nat} {world after : World H}
    {execution? : Option Execution}
    (h : runner.resume fuel world execution? = some (none, next, after)) : ∃ paused,
      Machine.Reaches runner.setting ⟨execution?.getD runner.execution, .started, world⟩ paused ∧
        paused.next? = none ∧ next.execution = paused.settle.execution ∧
        next.status = paused.settle.status ∧ next.signals = runner.signals := by
  have hresumes : runner.Resumes execution? (execution?.getD runner.execution) := by
    cases execution? with
    | some execution => rfl
    | none =>
      refine ⟨?_, rfl⟩
      rw [Runner.resume, Runner.run] at h
      split at h
      · assumption
      · cases h
  rw [hresumes.resume_eq_map] at h
  obtain ⟨outcome, hrun, houtcome⟩ := Option.map_eq_some_iff.1 h
  cases outcome with
  | fail error failed => cases houtcome
  | ok last =>
    obtain ⟨paused, hr, hover, rfl⟩ := Machine.reaches_of_runFor_ok hrun
    cases houtcome
    exact ⟨paused, hr, hover, rfl, rfl, rfl⟩

/-- A run that returns without an error leaves a status that fits the execution. If it executed an
instruction, the execution bears the mark of an interrupt just when the status gives the host as the
reason, and it is the interrupt that the host answered the last instruction with. -/
theorem status_fits_execution {runner next : Runner H} {fuel : Nat} {world after : World H}
    {execution? : Option Execution}
    (h : runner.resume fuel world execution? = some (none, next, after)) :
    next.status.Fits next.signals next.execution ∧
      ((execution?.getD runner.execution).isFinished = false → ∃ last instruction stepped,
        Machine.Reaches runner.setting ⟨execution?.getD runner.execution, .started, world⟩ last ∧
        last.next? = some instruction ∧ last.step runner.setting instruction = .ok stepped ∧
        stepped.next? = none ∧ next.execution = stepped.execution ∧
        last.clearMarks.interrupt? runner.setting instruction.op =
          next.execution.lastInterrupt.map (fun kind => (kind, next.status.extra)) ∧
        (next.execution.lastInterrupt.isSome = true ↔
          next.status.reason = some .hostRequest)) := by
  obtain ⟨paused, hr, hover, hexecution, hstatus, hsignals⟩ := Runner.exists_reaches_of_resume h
  generalize execution?.getD runner.execution = execution at hr ⊢
  rw [hexecution, hstatus, hsignals]
  have hstart : (⟨execution, .started, world⟩ : Machine H).next? = none ↔
      execution.isFinished = true := Machine.next?_eq_none_iff rfl
  cases hfirst : (⟨execution, .started, world⟩ : Machine H).next? with
  | none =>
    obtain rfl := hr.eq_of_next? hfirst
    have hfinished : execution.isFinished = true := hstart.1 hfirst
    exact ⟨Machine.fits_of_finished rfl hfinished _,
      fun hunfinished => absurd (hunfinished.symm.trans hfinished) nofun⟩
  | some first =>
    obtain ⟨last, instruction, hlast, hn, hs, hreports⟩ :=
      Machine.reports_of_reaches hr rfl hfirst hover
    exact ⟨hreports.fits, fun _ => ⟨last, instruction, paused, hlast, hn, hs, hover,
      paused.execution_settle, hreports.mark, hreports.agree⟩⟩

theorem status_fits_execution_pausing :
    ∃ (program : Program) (paused : Runner Unit), askThenWait.compile [] = .ok program ∧
      Runner.resume 1 ⟨.empty, false, [pausing], [], [], .idle, .unlimited⟩ ⟨.empty, ()⟩
        (some (.start program)) = some (none, paused, ⟨.empty, ()⟩) ∧
      paused.status.Fits [] paused.execution ∧ paused.execution.lastInterrupt = some .after ∧
      paused.status.reason = some .hostRequest := by
  have hrun : Runner.resume 1 ⟨.empty, false, [pausing], [], [], .idle, .unlimited⟩ ⟨.empty, ()⟩
      (some (.start markedWait.program)) = some (none, ⟨markedWait, true, [pausing], [], [],
        ⟨false, some .hostRequest, none, none⟩, .unlimited⟩, ⟨.empty, ()⟩) := rfl
  obtain ⟨hfits, hlast⟩ := status_fits_execution hrun
  obtain ⟨_, _, _, -, -, -, -, -, -, hagree⟩ := hlast rfl
  exact ⟨_, _, rfl, hrun, hfits, rfl, hagree.1 rfl⟩

end DurableScript
