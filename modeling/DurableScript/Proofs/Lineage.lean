import DurableScript.Proofs.Persistence
import DurableScript.Proofs.Rereading
import DurableScript.Proofs.Suspension

namespace DurableScript

open Machine

/-- What becomes of an execution in the hands of hosts: they load variables, run it and resume it in
any runner, with any providers, signals and limits and whether or not the runs fail, take values from
it, and write it and read it back, also from within a call that they answer. -/
inductive Derived (origin : Execution) : Execution → Prop where
  | origin : Derived origin origin
  | loadGlobals {H : Type} {runner : Runner H} (vars : List (String × Value)) :
      Derived origin runner.execution → Derived origin (runner.loadGlobals vars).execution
  | run {H : Type} {fuel : Nat} {runner next : Runner H} {world world' : World H}
      {error? : Option RunError} : Derived origin runner.execution →
      runner.run fuel world = some (error?, next, world') → Derived origin next.execution
  | resume {H : Type} {fuel : Nat} {runner next : Runner H} {world world' : World H}
      {error? : Option RunError} {execution : Execution} : Derived origin execution →
      runner.resume fuel world (some execution) = some (error?, next, world') →
      Derived origin next.execution
  | runExpression {H : Type} {fuel : Nat} {runner next : Runner H} {world world' : World H}
      {result : Except RunError Value} : Derived origin runner.execution →
      runner.runExpression fuel world = some (result, next, world') → Derived origin next.execution
  | asked {H : Type} {setting : Setting H} {world : World H} {execution : Execution}
      {machine found : Machine H} {instruction : Instruction} {request : Request H} :
      Derived origin execution → Reaches setting ⟨execution, .started, world⟩ machine →
      machine.next? = some instruction →
      machine.clearMarks.request? setting instruction.op = some (request, found) →
      Derived origin (found.asking request).execution
  | reread {execution restored : Execution} {objects store after : Objects} {sources : Sources}
      {text : String} : Derived origin execution → execution.snapshot objects = .ok text →
      (Execution.ofSnapshot sources text).Gives store restored after → Derived origin restored

namespace Machine

variable {H : Type} {setting : Setting H} {machine last : Machine H} {size : Nat}
  {origin : List (Option Nat)}

theorem keeps_step (setting : Setting H) (h : machine.execution.Confined size origin)
    {instruction : Instruction}
    (hn : machine.next? = some instruction) :
    (machine.step setting instruction).Keeps (Execution.Confined size origin)
      (machine.clearMarks.Strays setting instruction.op) := by
  have hcleared : machine.clearMarks.execution.Confined size origin :=
    h.of_samePlace ⟨rfl, rfl, rfl⟩
  have hexecute := keeps_execute hcleared setting (instruction?_of_next? hn)
  have hcounted {done : Machine H} (h : done.execution.Confined size origin) :
      done.countStep.execution.Confined size origin := h.of_samePlace ⟨rfl, rfl, rfl⟩
  have houtcome := stepOutcome setting machine instruction
  generalize machine.step setting instruction = outcome at houtcome ⊢
  cases houtcome with
  | reached => exact Outcome.keeps_fail h nofun
  | @fails error failed _ hx =>
    rw [hx] at hexecute
    exact Outcome.keeps_fail hexecute.execution
      ((error.fault_locate _).symm ▸ hexecute.fault error rfl)
  | spends hx =>
    rw [hx] at hexecute
    exact Outcome.keeps_fail (hcounted hexecute.execution) nofun
  | ends hx =>
    rw [hx] at hexecute
    rw [finishStep]
    split
    · exact hexecute
    · exact Outcome.keeps_ok (hcounted hexecute.execution)

theorem Reaches.confined (hr : Reaches setting machine last)
    (h : machine.execution.Confined size origin) : last.execution.Confined size origin := by
  refine hr.preserves (P := fun machine => machine.execution.Confined size origin) ?_ h
  intro machine next instruction h hn hs
  have hstep := keeps_step setting h hn
  rw [hs] at hstep
  exact hstep.execution

theorem confined_of_runFor {fuel : Nat} {outcome : Outcome H}
    (h : machine.execution.Confined size origin)
    (hrun : runFor setting fuel machine = some outcome) :
    outcome.machine.execution.Confined size origin := by
  cases outcome with
  | ok last =>
    obtain ⟨paused, hr, -, rfl⟩ := reaches_of_runFor_ok hrun
    rw [Outcome.machine, execution_settle]
    exact hr.confined h
  | fail error failed =>
    obtain ⟨last, instruction, hr, hn, hs⟩ := reaches_of_runFor_fail hrun
    have hstep := keeps_step setting (hr.confined h) hn
    rw [hs] at hstep
    exact hstep.execution

end Machine

theorem Runner.confined_of_run {H : Type} {fuel : Nat} {runner next : Runner H}
    {world world' : World H} {error? : Option RunError} {size : Nat} {origin : List (Option Nat)}
    (h : runner.execution.Confined size origin)
    (hrun : runner.run fuel world = some (error?, next, world')) :
    next.execution.Confined size origin := by
  unfold Runner.run at hrun
  split at hrun
  · obtain ⟨outcome, houtcome, hnext⟩ := Option.map_eq_some_iff.1 hrun
    cases hnext
    exact confined_of_runFor h houtcome
  · cases hrun
    exact h

theorem Runner.confined_popValue {H : Type} {runner : Runner H} {size : Nat}
    {origin : List (Option Nat)} (h : runner.execution.Confined size origin) :
    runner.popValue.2.execution.Confined size origin := by
  unfold Runner.popValue
  split
  · exact h
  · next rest _ =>
    exact h.of_samePlace (Execution.stays_modifyFrame _
      (f := fun frame => { frame with stack := rest }) fun _ => rfl).samePlace

theorem Derived.confined {origin execution : Execution} (h : Derived origin execution)
    (horigin : origin.Confined origin.program.size origin.returns) :
    execution.Confined origin.program.size origin.returns := by
  induction h with
  | origin => exact horigin
  | loadGlobals vars _ ih => exact ih.of_samePlace (Execution.alike_setGlobals _ vars).samePlace
  | run _ hrun ih | resume _ hrun ih => exact Runner.confined_of_run ih hrun
  | runExpression _ hrun ih =>
    obtain ⟨⟨error?, next, world⟩, hrun, hnext⟩ := Option.map_eq_some_iff.1 hrun
    have hconfined := Runner.confined_of_run ih hrun
    cases error? with
    | some error =>
      cases hnext
      exact hconfined
    | none =>
      cases hnext
      exact Runner.confined_popValue hconfined
  | asked _ hr _ hrequest ih =>
    refine (hr.confined ih).of_samePlace ((Execution.stays_dropOperands _ _).samePlace.trans ?_)
    exact (Execution.SamePlace.of_eq (sameRun_request? hrequest).execution).trans ⟨rfl, rfl, rfl⟩
  | reread _ hwrite hread ih => exact ih.reread hwrite hread

namespace Execution

/-- Every place that an execution looks at is there: the global frame at the bottom of its frames,
the running frame on top, the caller below that, which gets the result, and the next instruction. -/
structure InBounds (execution : Execution) : Prop where
  globals : execution.frames[0]? = some execution.globals
  frame : execution.frames[execution.frames.length - 1]? = some execution.frame
  caller : execution.frames.length - 2 < execution.frames.length
  callerResult : ∀ value, (setCallerResult execution value).frames =
    execution.frames.modify (execution.frames.length - 2) fun frame => { frame with result := value }
  pc_le : execution.pc ≤ execution.program.size
  instruction : execution.isFinished = false → ∃ instruction, execution.instruction? = some instruction
  contained : execution.program.Contained

theorem getLast?_frames (execution : Execution) :
    execution.frames.getLast? = some execution.frame := by
  obtain ⟨_, globals, calls, _, _, _⟩ := execution
  cases calls with
  | nil => rfl
  | cons call rest =>
    rw [frames, List.reverse_cons, ← List.cons_append, List.getLast?_concat]
    rfl

theorem modify_append_cons {α : Type} (f : α → α) (as : List α) (b : α) (bs : List α) :
    (as ++ b :: bs).modify as.length f = as ++ f b :: bs := by
  induction as with
  | nil => rfl
  | cons a as ih => exact congrArg (a :: ·) ih

theorem frames_setCallerResult (execution : Execution) (value : Value) :
    (setCallerResult execution value).frames = execution.frames.modify (execution.frames.length - 2)
      fun frame => { frame with result := value } := by
  obtain ⟨_, globals, calls, _, _, _⟩ := execution
  match calls with
  | [] => rfl
  | [call] => rfl
  | call :: caller :: rest =>
    have hmodify := modify_append_cons (fun frame : Frame => { frame with result := value })
      (globals :: rest.reverse) caller [call]
    simpa [setCallerResult, frames] using hmodify.symm

theorem Confined.inBounds {size : Nat} {origin : List (Option Nat)} {execution : Execution}
    (h : execution.Confined size origin) : execution.InBounds where
  globals := rfl
  frame := List.getLast?_eq_getElem?.symm.trans execution.getLast?_frames
  caller := by
    rw [frames, List.length_cons]
    omega
  callerResult := execution.frames_setCallerResult
  pc_le := h.size_eq ▸ h.pc_le
  instruction hf := by
    have hlt : execution.pc < execution.program.code.size := Nat.not_le.1 (of_decide_eq_false hf)
    exact ⟨_, Array.getElem?_eq_getElem hlt⟩
  contained := h.contained

end Execution

/-- An execution that was read from a snapshot, by whomever that was written, stays in bounds
whatever hosts make of it, at every step of every run and also where a run fails. A jump out of its
code is the return from a call that the snapshot held, to the place that the snapshot gave, unless
the provider that is asked reports one itself. -/
theorem restored_execution_stays_in_bounds {sources : Sources} {text : String}
    {store after : Objects} {origin execution : Execution}
    (hread : (Execution.ofSnapshot sources text).Gives store origin after)
    (hderived : Derived origin execution) : execution.InBounds ∧
    ∀ {H : Type} (setting : Setting H) (world : World H) {machine : Machine H},
      Reaches setting ⟨execution, .started, world⟩ machine → machine.execution.InBounds ∧
      ∀ {instruction : Instruction}, machine.next? = some instruction →
        (machine.step setting instruction).machine.execution.InBounds ∧
        ∀ {error : RunError} {failed : Machine H} {target bound : Nat},
          machine.step setting instruction = .fail error failed →
          error.fault = .jumpOutOfRange target bound →
            (∃ hasValue rest, instruction.op = .ret hasValue ∧
              machine.execution.returns = some target :: rest ∧
              some target :: rest <:+ origin.returns ∧ bound = origin.program.size ∧
              bound < target) ∨
            ∃ request found reported,
              machine.clearMarks.request? setting instruction.op = some (request, found) ∧
              (found.reply setting request).1.outcome = .error reported ∧
              reported.fault = error.fault := by
  have hconfined := hderived.confined (Execution.confined_of_ofSnapshot hread)
  refine ⟨hconfined.inBounds, fun setting world machine hr => ?_⟩
  have hmachine := hr.confined hconfined
  refine ⟨hmachine.inBounds, fun {instruction} hn => ?_⟩
  have hstep := keeps_step setting hmachine hn
  refine ⟨hstep.execution.inBounds, fun {error failed target bound} hs hfault => ?_⟩
  rw [hs] at hstep
  obtain ⟨hasValue, rest, hop, hreturns, hsize, hlt⟩ | hreported :=
    hstep.fault error rfl target bound hfault
  · have hreturns : machine.execution.returns = some target :: rest := hreturns
    have hsize : bound = origin.program.size := hsize.symm.trans hmachine.size_eq
    refine .inl ⟨hasValue, rest, hop, hreturns, ?_, hsize, hlt⟩
    exact (hreturns ▸ hmachine.inherits).suffix_of_lt (hsize ▸ hlt)
  · exact .inr hreported

namespace Execution

def wildReturns : Execution where
  program := ⟨#[⟨.ret false, none⟩], []⟩
  globals := .empty
  calls := [⟨[], [], .null, some 99⟩, ⟨[], [], .null, some 98⟩]
  pc := 0
  steps := 0
  lastInterrupt := none

theorem keepable_wildReturns : wildReturns.Keepable .empty where
  size_lt := by decide
  pc_le := by decide
  steps_lt := by decide
  frames := by
    have hkeep (returnTo : Option Nat) (h : ∀ target ∈ returnTo, target < 2 ^ 64) :
        Frame.Keepable .empty ⟨[], [], .null, returnTo⟩ :=
      ⟨List.nodup_nil, nofun, by simp [Frame.values, Value.Keepable, Value.Shallow], h⟩
    simp [frames, wildReturns, Frame.empty, hkeep]

theorem tidy_wildReturns : wildReturns.program.Tidy where
  counts := by simp [wildReturns, Op.counts]
  entries := nofun
  distinct := List.nodup_nil
  spellable := by simp [wildReturns, Op.Spellable]

theorem exists_text_wildReturns : ∃ text after,
    (ofSnapshot ⟨[], [], false⟩ text).Gives .empty wildReturns after := by
  have hfree : wildReturns.ObjectFree := by
    simp [ObjectFree, frames, wildReturns, Frame.empty, Frame.ObjectFree, Frame.values,
      Value.ObjectFree]
  obtain ⟨envelope, hwrite, hrestore⟩ :=
    exists_ofSnapshot_self tidy_wildReturns keepable_wildReturns hfree
  have hlevels : envelope.json.levels ≤ Json.maxLevels := by
    cases hwrite
    decide
  obtain ⟨after, hgives⟩ := hrestore hlevels ⟨[], [], false⟩ .empty
  exact ⟨_, after, hgives⟩

end Execution

theorem restored_execution_stays_in_bounds_wildReturns :
    ∃ text after derived, (Execution.ofSnapshot ⟨[], [], false⟩ text).Gives .empty
        Execution.wildReturns after ∧ Derived Execution.wildReturns derived ∧
      ∃ failed, (⟨derived, .started, ⟨.empty, ()⟩⟩ : Machine Unit).step ⟨[], [], [], .unlimited⟩
          ⟨.ret false, none⟩ = .fail ⟨.jumpOutOfRange 98 1, none⟩ failed ∧
        failed.execution.InBounds ∧ [some 98] <:+ Execution.wildReturns.returns := by
  obtain ⟨text, after, hread⟩ := Execution.exists_text_wildReturns
  have hrun : Runner.run 1 (⟨Execution.wildReturns, true, [], [], [], .idle, .unlimited⟩ : Runner Unit)
      ⟨.empty, ()⟩ = some (some ⟨.jumpOutOfRange 99 1, none⟩, _, _) := rfl
  have hderived := Derived.run .origin hrun
  refine ⟨text, after, _, hread, hderived, _, rfl, ?_⟩
  obtain ⟨-, hruns⟩ := restored_execution_stays_in_bounds hread hderived
  obtain ⟨-, hsteps⟩ := hruns ⟨[], [], [], .unlimited⟩ (⟨.empty, ()⟩ : World Unit) .refl
  obtain ⟨hfailed, hfault⟩ := @hsteps ⟨.ret false, none⟩ rfl
  refine ⟨hfailed, ?_⟩
  obtain ⟨_, rest, -, hreturns, hsuffix, -⟩ | ⟨_, _, _, hrequest, -⟩ := hfault rfl rfl
  · cases hreturns
    exact hsuffix
  · cases hrequest

end DurableScript
