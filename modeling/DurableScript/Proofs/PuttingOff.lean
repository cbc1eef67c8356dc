import DurableScript.Proofs.CycleLimit
import DurableScript.Proofs.LazyRuns
import DurableScript.Proofs.Plans
import DurableScript.Proofs.Polling
import DurableScript.Proofs.Retracing

namespace DurableScript

variable {H : Type}

theorem Outcome.Rel.exists_ok {H' : Type} {P Q : Machine H → Machine H' → Prop} {machine : Machine H}
    {outcome : Outcome H'} (h : (Outcome.ok machine).Rel P Q outcome) :
    ∃ other, outcome = .ok other ∧ P machine other := by
  cases h with
  | ok hrelated => exact ⟨_, rfl, hrelated⟩

theorem Execution.Resembles.of_eq {execution other : Execution} (steps : Nat)
    (h : other = { execution with steps := steps }) : execution.Resembles Eq other := by
  have hframe (frame : Frame) : frame.Matches Eq frame :=
    ⟨Value.matchesFields_iff.1 (Value.matchesFields_self _ fun _ _ => rfl),
      List.forall₂_same.2 fun value _ => Value.matches_self value fun _ _ => rfl,
      Value.matches_self _ fun _ _ => rfl, rfl⟩
  subst h
  exact ⟨rfl, hframe _, List.forall₂_same.2 fun frame _ => hframe frame, rfl, rfl⟩

theorem Status.matches_self (status : Status) : status.Matches Eq status := by
  refine ⟨rfl, rfl, rfl, ?_⟩
  cases status.extra with
  | none => exact .none
  | some value => exact .some (Value.matches_self value fun _ _ => rfl)

namespace Machine

variable {setting : Setting H} {site : Machine H} {instruction : Instruction} {request : Request H}
  {found : Machine H} {machine last : Machine H} {op : Op} {count : Nat}

theorem precedes_request? (h : machine.request? setting op = some (request, found)) :
    machine.world.Precedes found.world := by
  cases request?_cases h with
  | function => exact .refl _
  | method hr => exact precedes_receiver hr

theorem request?_again (h : machine.request? setting op = some (request, found)) :
    found.request? setting op = some (request, found) := by
  cases request?_cases h with
  | function => exact h
  | method hr hfind =>
    have hrun := sameRun_receiver hr
    have hself : Retraces found.world machine found :=
      ⟨.of_eq machine.execution.steps hrun.execution,
        hrun.status ▸ Status.matches_self _, rfl, (precedes_receiver hr).objects⟩
    simp only [request?, hself.receiver hr (.refl _), hfind, Option.map_some]

def Poised (setting : Setting H) (instruction : Instruction) (request : Request H)
    (found : Machine H) (plan : Plan) (other : Machine (H × Plan)) : Prop :=
  other.next? = some instruction ∧ ∃ request' found',
    other.clearMarks.request? setting.planned instruction.op = some (request', found') ∧
      request.Matches Eq Answers request' ∧ Planned plan found found'

section Poised

variable {plan : Plan} {other : Machine (H × Plan)}

theorem poised_of_planned (hsetting : setting.IgnoresSteps) (h : Planned plan site other)
    (hn : site.next? = some instruction)
    (hr : site.clearMarks.request? setting instruction.op = some (request, found)) :
    Poised setting instruction request found plan other :=
  ⟨h.next?_eq.trans hn,
    h.clearMarks.exists_request? hsetting.parallels (World.bridge_planned plan) hr⟩

theorem poised_again (hsetting : setting.IgnoresSteps)
    (h : Planned plan found other.clearMarks) (hn : found.next? = some instruction)
    (hr : site.clearMarks.request? setting instruction.op = some (request, found)) :
    Poised setting instruction request found plan other :=
  ⟨h.next?_eq.trans hn,
    h.exists_request? hsetting.parallels (World.bridge_planned plan) (request?_again hr)⟩

theorem Poised.step_of_delay {extra : Option Value} {rest : Plan}
    (h : Poised setting instruction request found (some extra :: rest) other)
    (hlimit : setting.limits.maxCycles = none)
    (hr : site.clearMarks.request? setting instruction.op = some (request, found))
    (hargs : request.argc ≤ site.stack.length)
    (htarget : request.restart ≤ site.execution.program.size) :
    ∃ paused, other.step setting.planned instruction = .ok paused ∧
      paused.status.running = false ∧ paused.world = found.world.planned rest ∧
      ∃ steps, paused.execution = { site.execution.dropOperands request.argc with
        pc := request.restart
        steps := steps
        lastInterrupt := some .before } := by
  obtain ⟨hn, request', found', hr', hrequest, hfound⟩ := h
  have hlimit' : setting.planned.limits.maxCycles = none := hlimit
  have hreply : found'.reply setting.planned request' =
      (⟨[], .ok (.before extra)⟩, found.world.planned rest) := by
    rw [hfound.reply_eq hrequest]
    rfl
  have hrun : found.execution = site.clearMarks.execution := (sameRun_request? hr).execution
  have hrun' : found'.execution = other.clearMarks.execution := (sameRun_request? hr').execution
  have hstack : other.stack = site.stack := calc
    other.stack = found'.stack := (stack_of_request? hr').symm
    _ = found.stack := hfound.stack_eq
    _ = site.clearMarks.stack := stack_of_request? hr
  have hprogram : other.execution.program = site.execution.program := calc
    other.execution.program = found'.execution.program := by rw [hrun']; rfl
    _ = found.execution.program := by rw [hfound.execution_eq]
    _ = site.execution.program := by rw [hrun]; rfl
  have hasking : (found'.asking request').execution = { site.execution.dropOperands request.argc with
      steps := found'.execution.steps
      lastInterrupt := none } := by
    rw [hfound.asking_eq hrequest, asking, hrun]
    obtain ⟨⟨_, _, calls, _, _, _⟩, _, _⟩ := site
    cases calls <;> rfl
  have hstep : other.step setting.planned instruction =
      .ok (found'.putOff setting.planned request' extra) := by
    refine step_of_before (limitReached?_eq_none hlimit' other) hr' ?_ ?_ (by rw [hreply])
    · rwa [hrequest.argc, hstack]
    · rwa [hrequest.restart, hprogram]
  refine ⟨_, hstep, rfl, ?_, (found'.asking request').execution.steps + 1, ?_⟩
  · show (found'.reply setting.planned request').2 = found.world.planned rest
    rw [hreply]
  · rw [putOff, hreply, hrequest.restart]
    show ({ (found'.asking request').execution with
      pc := request.restart
      steps := (found'.asking request').execution.steps + 1
      lastInterrupt := some .before } : Execution) = _
    rw [hasking]

theorem Poised.runs (h : Poised setting instruction request found [] other)
    (hlimit : setting.limits.maxCycles = none) (hsetting : setting.IgnoresSteps)
    (hn : site.next? = some instruction)
    (hr : site.clearMarks.request? setting instruction.op = some (request, found))
    (hargs : request.argc ≤ site.stack.length) (fuel : Nat) :
    other.calls setting.planned fuel = site.calls setting fuel ∧
      Option.Rel (Outcome.Rel (Planned []) (Planned [])) (runFor setting fuel site)
        (runFor setting.planned fuel other) := by
  obtain ⟨hn', request', found', hr', hrequest, hfound⟩ := h
  have hstack : ¬ found.stack.length < request.argc := by
    rw [stack_of_request? hr]
    exact Nat.not_lt.2 hargs
  have hcall : other.call? setting.planned instruction.op = site.call? setting instruction.op :=
    Planned.call?_of_asked hlimit hr hr' hrequest hfound
  have hstep : (site.step setting instruction).Rel (Planned []) (Planned [])
      (other.step setting.planned instruction) :=
    Planned.step_of_execute hlimit (Planned.execute_of_asked hr hr' hrequest hfound rfl hstack)
  have hlockstep : Lockstep setting setting.planned (Planned []) (Planned []) :=
    Planned.lockstep hlimit hsetting
  cases fuel with
  | zero =>
    refine ⟨rfl, ?_⟩
    unfold runFor
    rw [hn, hn']
    exact .none
  | succ fuel =>
    rw [calls, calls, hn, hn', runFor_succ hn, runFor_succ hn']
    dsimp only
    rw [hcall]
    generalize site.step setting instruction = outcome at hstep ⊢
    generalize other.step setting.planned instruction = outcome' at hstep ⊢
    cases hstep with
    | fail error hfailed => exact ⟨rfl, .some (.fail error hfailed)⟩
    | @ok next next' hnext =>
      have hcalls : List.Forall₂ Eq (next.calls setting fuel) (next'.calls setting.planned fuel) :=
        hlockstep.calls (fun h op => by
          rw [Planned.call?_eq hlimit hsetting h op]
          cases call? setting _ op with
          | none => exact .none
          | some call => exact .some rfl) hnext fuel
      rw [List.forall₂_eq_eq_eq] at hcalls
      exact ⟨congrArg (_ ++ ·) hcalls.symm, hlockstep.runFor hnext fuel⟩

end Poised

theorem runFor_of_stepped (h : machine.stepped setting count = some last) (fuel : Nat) :
    runFor setting (count + fuel) machine = runFor setting fuel last := by
  induction count generalizing machine with
  | zero =>
    cases h
    rw [Nat.zero_add]
  | succ count ih =>
    obtain ⟨instruction, next, hn, hs, hrest⟩ := stepped_succ_eq_some.1 h
    rw [Nat.succ_add, runFor_succ hn, hs]
    exact ih hrest

theorem reaches_of_stepped (h : machine.stepped setting count = some last) :
    Reaches setting machine last := by
  induction count generalizing machine with
  | zero =>
    cases h
    exact .refl
  | succ count ih =>
    obtain ⟨instruction, next, hn, hs, hrest⟩ := stepped_succ_eq_some.1 h
    exact .step hn hs (ih hrest)

theorem call?_eq_none (h : op.call? = none) : machine.call? setting op = none := by
  have hquiet : machine.clearMarks.request? setting op = none := by
    cases hr : machine.clearMarks.request? setting op with
    | none => rfl
    | some asked => cases (call?_of_request? hr).symm.trans h
  rw [call?, hquiet]
  cases machine.limitReached? setting <;> rfl

theorem calls_of_plain (h : machine.execution.program.Plain machine.execution.pc count) :
    machine.calls setting count = [] := by
  induction count generalizing machine with
  | zero => rfl
  | succ count ih =>
    rw [calls]
    cases hn : machine.next? with
    | none => rfl
    | some instruction =>
      dsimp only
      rw [call?_eq_none (plain_of_next? h hn).2]
      cases hs : machine.step setting instruction with
      | fail error failed => rfl
      | ok next => exact ih (plain_of_step h hn hs)

theorem Planned.stepped {other : Machine (H × Plan)} {plan : Plan}
    (hlimit : setting.limits.maxCycles = none) (hsetting : setting.IgnoresSteps)
    (h : Planned (List.replicate (machine.calls setting count).length none ++ plan) machine other)
    (hs : machine.stepped setting count = some last) :
    ∃ last', other.stepped setting.planned count = some last' ∧ Planned plan last last' := by
  induction count generalizing machine other with
  | zero =>
    cases hs
    exact ⟨other, rfl, h⟩
  | succ count ih =>
    obtain ⟨instruction, next, hn, hstep, hrest⟩ := stepped_succ_eq_some.1 hs
    have hcalls : machine.calls setting (count + 1) =
        (machine.call? setting instruction.op).toList ++ next.calls setting count := by
      rw [calls, hn]
      simp only [hstep]
    rw [hcalls, List.length_append, List.replicate_add, List.append_assoc] at h
    have hrel : (machine.step setting instruction).Rel _ _ _ :=
      Planned.step hlimit hsetting h fun hcall => by
        obtain ⟨call, hcall⟩ := Option.ne_none_iff_exists'.1 hcall
        rw [hcall]
        rfl
    rw [hstep, List.drop_append_of_le_length (by simp), List.drop_of_length_le (by simp),
      List.nil_append] at hrel
    obtain ⟨next', hstep', hnext⟩ := hrel.exists_ok
    obtain ⟨last', hrest', hlast⟩ := ih hnext hrest
    exact ⟨last', stepped_succ_eq_some.2 ⟨instruction, next', h.next?_eq.trans hn, hstep', hrest'⟩,
      hlast⟩

theorem kept_of_stepped {program : Program} {shape : Nat → Shape} {table : Table Procedure}
    (hc : Compiled program shape table) (hkept : machine.Kept program shape table)
    (h : machine.stepped setting count = some last) :
    last.Kept program shape table :=
  (reaches_of_stepped h).preserves (fun {machine _ instruction} hkept hn hs => by
    have hmeets : (machine.step setting instruction).Meets _ _ := meets_step hc hkept hn
    rw [hs] at hmeets
    exact hmeets) hkept

theorem started_of_stepped (h : machine.stepped setting count = some last)
    (hstatus : machine.status = .started) (hn : last.next? = some instruction) :
    last.status = .started :=
  (reaches_of_stepped h).status_eq hstatus (running_of_next? hn)

/-- A machine has computed the arguments of a call, from their first instruction on, and comes to ask
the host. There is no call among the arguments, and no operator that meets references before they are
looked up. -/
structure ComesToCall (setting : Setting H) (begun site : Machine H) (instruction : Instruction)
    (argc restart : Nat) : Prop where
  start : begun.execution.pc = restart
  computed : begun.stepped setting (site.execution.pc - restart) = some site
  next : site.next? = some instruction
  call : instruction.op.call? = some (argc, restart)
  asks : (site.call? setting instruction.op).isSome = true
  plain : ∀ index, restart ≤ index → index < site.execution.pc →
    begun.execution.program.callAt? index = none
  steady : ∀ count machine, count < site.execution.pc - restart →
    begun.stepped setting count = some machine → machine.Steady

namespace ComesToCall

variable {begun : Machine H} {argc restart : Nat} {program : Program} {shape : Nat → Shape}
  {table : Table Procedure}

theorem exists_request? (h : ComesToCall setting begun site instruction argc restart) :
    ∃ request found, site.clearMarks.request? setting instruction.op = some (request, found) ∧
      request.argc = argc ∧ request.restart = restart ∧ argc ≤ site.stack.length := by
  have hasks := h.asks
  unfold call? at hasks
  split at hasks
  · next request found _ hr =>
    have hsame := (call?_of_request? hr).symm.trans h.call
    obtain ⟨rfl, rfl⟩ := Prod.mk.inj (Option.some.inj hsame)
    refine ⟨request, found, hr, rfl, rfl, ?_⟩
    split at hasks
    · cases hasks
    · next hargs =>
      rw [stack_of_request? hr] at hargs
      exact Nat.not_lt.1 hargs
  · cases hasks

section

variable (h : ComesToCall setting begun site instruction argc restart)
  (hc : Compiled program shape table) (hl : program.WellLaid)
  (hkept : begun.Kept program shape table)

include h hc hl hkept

omit hl in
theorem callAt? : program.callAt? site.execution.pc = some (argc, restart) := by
  have hi := instruction?_of_next? h.next
  rw [Execution.instruction?, (kept_of_stepped hc hkept h.computed).resting.runs] at hi
  rw [Program.callAt?, hi]
  exact h.call

theorem isPlain : program.Plain restart (site.execution.pc - restart) := by
  intro index hle hlt
  obtain ⟨found, hat, hop, -⟩ := hl.exists_argument hc (h.callAt? hc hkept) hle (by omega)
  have hnone := h.plain index hle (by omega)
  rw [hkept.resting.runs, Program.callAt?, hat] at hnone
  exact ⟨found, hat, hop, hnone⟩

theorem execution_eq : { site.execution.dropOperands argc with
      pc := restart
      steps := begun.execution.steps
      lastInterrupt := begun.execution.lastInterrupt } = begun.execution := by
  have hplain := h.isPlain hc hl hkept
  have hdrop := drop_arguments hc hl (h.callAt? hc hkept) hplain hkept h.start h.computed h.next
  rw [← h.start, ← hkept.resting.runs] at hplain
  obtain ⟨-, stack, hsite⟩ := stepped_of_plain hplain (h.start ▸ h.computed)
  have hstack : site.stack = stack := by
    rw [Machine.stack, hsite]
    exact Execution.stack_restacked stack begun.execution
  have hstart : begun.execution.restacked (stack.drop argc) = begun.execution := by
    rw [← hstack, hdrop]
    exact begun.execution.restacked_self
  rw [hsite, Execution.dropOperands_restacked, hstart, ← h.start]

theorem exists_planned (hlimit : setting.limits.maxCycles = none) (hsetting : setting.IgnoresSteps)
    {first : Machine H} {first' : Machine (H × Plan)} {earlier : Nat} {plan : Plan}
    (hplanned : Planned (List.replicate (first.calls setting earlier).length none ++ plan) first first')
    (hbegun : first.stepped setting earlier = some begun) :
    ∃ site', first'.stepped setting.planned (earlier + (site.execution.pc - restart)) = some site' ∧
      Planned plan site site' := by
  have hquiet : begun.calls setting (site.execution.pc - restart) = [] := by
    refine calls_of_plain ?_
    rw [hkept.resting.runs, h.start]
    exact h.isPlain hc hl hkept
  obtain ⟨begun', hbegun', hplanned⟩ := hplanned.stepped hlimit hsetting hbegun
  have hplanned : Planned (List.replicate
      (begun.calls setting (site.execution.pc - restart)).length none ++ plan) begun begun' := by
    rw [hquiet]
    exact hplanned
  obtain ⟨site', hsite', hplanned⟩ := hplanned.stepped hlimit hsetting h.computed
  exact ⟨site', stepped_trans hbegun' hsite', hplanned⟩

theorem exists_again (hlimit : setting.limits.maxCycles = none) (hsetting : setting.IgnoresSteps)
    (hstatus : begun.status = .started)
    (hr : site.clearMarks.request? setting instruction.op = some (request, found)) (rest : Plan)
    {execution : Execution} {steps : Nat} {mark : Option InterruptKind}
    (hexecution : execution = { site.execution.dropOperands argc with
      pc := restart, steps := steps, lastInterrupt := mark }) :
    ∃ again, stepped setting.planned (site.execution.pc - restart)
        ⟨execution, .started, found.world.planned rest⟩ = some again ∧
      Poised setting instruction request found rest again := by
  have hplain := h.isPlain hc hl hkept
  rw [← h.start, ← hkept.resting.runs] at hplain
  have hcomputed := h.computed
  rw [← h.start] at hcomputed
  have hlooked : site.clearMarks.world.Precedes found.world := precedes_request? hr
  have hworld := (stepped_of_plain hplain hcomputed).1.trans hlooked
  have hretraces : Retraces (found.world.planned rest) begun.clearMarks
      (⟨execution, .started, found.world.planned rest⟩ : Machine (H × Plan)).clearMarks := by
    have hback := h.execution_eq hc hl hkept
    refine ⟨.of_eq steps ?_, ?_, rfl, hworld.objects⟩
    · rw [hexecution, clearMarks, clearMarks, ← hback]
    · rw [clearMarks, clearMarks, hstatus]
      exact Status.matches_self _
  have hknown : site.world.objects.Precedes (found.world.planned rest).objects := hlooked.objects
  have hlimit' : setting.planned.limits.maxCycles = none := hlimit
  have hsignals : setting.planned.signals = setting.signals := rfl
  obtain ⟨again, hagain, hsame⟩ := hretraces.stepped hlimit' hsignals hplain
    (fun fewer machine hlt => h.steady fewer machine (h.start ▸ hlt)) hcomputed hknown
  have hrun : site.clearMarks.SameRun found := sameRun_request? hr
  have hplanned : Planned rest found again.clearMarks :=
    ⟨hrun.execution ▸ hsame.execution, hrun.status ▸ hsame.status, hsame.world.1⟩
  have hnext : found.next? = some instruction := by
    rw [next?, hrun.execution, hrun.status]
    exact h.next
  exact ⟨again, h.start ▸ hagain, poised_again hsetting hplanned hnext hr⟩

end

end ComesToCall

end Machine

namespace Runner

open Machine

variable {setting : Setting H} {begun site found : Machine H} {instruction : Instruction}
  {argc restart : Nat} {program : Program} {shape : Nat → Shape} {table : Table Procedure}
  {request : Request H}

theorem run_of_pause {runner : Runner H} {world : World H} {steps fuel : Nat} {other paused : Machine H}
    (hloaded : runner.loaded = true)
    (hway : (runner.machine world).stepped runner.setting steps = some other)
    (hn : other.next? = some instruction) (hs : other.step runner.setting instruction = .ok paused)
    (hpaused : paused.status.running = false) (hunfinished : paused.execution.isFinished = false)
    (hfuel : steps < fuel) : runner.run fuel world =
      some (none, { runner with execution := paused.execution, status := paused.status },
        paused.world) := by
  obtain ⟨more, rfl⟩ := Nat.exists_eq_add_of_lt hfuel
  have hway' : (runner.machine world).stepped runner.setting (steps + 1) = some paused :=
    stepped_trans hway (stepped_succ_eq_some.2 ⟨instruction, paused, hn, hs, rfl⟩)
  have hsettled : paused.settle = paused := by
    rw [settle, if_neg (by rw [hunfinished]; simp)]
  have hrest : runFor runner.setting more paused = some (.ok paused.settle) :=
    runFor_of_next?_eq_none (if_neg (by simp [hpaused])) more
  rw [run, if_pos hloaded, Nat.add_right_comm, runFor_of_stepped hway', hrest, hsettled]
  rfl

theorem exists_poised (h : ComesToCall setting begun site instruction argc restart)
    (hc : Compiled program shape table) (hl : program.WellLaid)
    (hkept : begun.Kept program shape table) (hstatus : begun.status = .started)
    (hlimit : setting.limits.maxCycles = none) (hsetting : setting.IgnoresSteps)
    (hr : site.clearMarks.request? setting instruction.op = some (request, found))
    {fuel : Nat} (hfuel : site.execution.pc - restart < fuel) (delays : List (Option Value))
    {runner : Runner (H × Plan)} {world : World (H × Plan)} {steps : Nat}
    {other : Machine (H × Plan)} (hloaded : runner.loaded = true)
    (hsame : runner.setting = setting.planned)
    (hway : (runner.machine world).stepped setting.planned steps = some other) (hsteps : steps < fuel)
    (hpoised : Poised setting instruction request found (delays.map some) other) :
    ∃ ready world' steps' again,
      runner.poll fuel (List.replicate delays.length setting.signals) world =
        some (none, ready, world') ∧
      ready.setting = setting.planned ∧
      (ready.machine world').stepped setting.planned steps' = some again ∧
      Poised setting instruction request found [] again := by
  induction delays generalizing runner world steps other with
  | nil => exact ⟨runner, world, steps, other, rfl, hsame, hway, hpoised⟩
  | cons extra more ih =>
    obtain ⟨rfl, rfl, hargs⟩ : request.argc = argc ∧ request.restart = restart ∧
        request.argc ≤ site.stack.length := by
      obtain ⟨request', found', hr', rfl, rfl, hargs⟩ := h.exists_request?
      cases hr.symm.trans hr'
      exact ⟨rfl, rfl, hargs⟩
    have hsite := kept_of_stepped hc hkept h.computed
    have hle := hl.restart_le (h.callAt? hc hkept)
    have hlt : site.execution.pc < site.execution.program.size :=
      (Array.getElem?_eq_some_iff.1 (instruction?_of_next? h.next)).1
    obtain ⟨paused, hstep, hpaused, hworld, count, hexecution⟩ :=
      hpoised.step_of_delay hlimit hr hargs (by omega)
    have hunfinished : paused.execution.isFinished = false := by
      rw [hexecution, Execution.isFinished, decide_eq_false_iff_not]
      show ¬ (site.execution.dropOperands request.argc).program.size ≤ request.restart
      rw [(site.execution.stays_dropOperands request.argc).program]
      omega
    have hrun := run_of_pause hloaded (hsame ▸ hway) hpoised.1 (hsame ▸ hstep) hpaused hunfinished
      hsteps
    obtain ⟨again, hway', hpoised'⟩ :=
      h.exists_again hc hl hkept hlimit hsetting hstatus hr (more.map some) hexecution
    have hsignals : runner.loadSignals setting.signals = runner := by
      have heq : runner.signals = setting.signals := congrArg Setting.signals hsame
      rw [loadSignals, ← heq]
    rw [List.length_cons, List.replicate_succ, poll, hsignals, resume, hrun]
    exact ih hloaded hsame (hworld ▸ hway') hfuel hpoised'

end Runner

/-- The machines are the same but for the steps that they have counted, and the host has come to the
end of its plan. -/
structure Machine.SameButSteps (machine : Machine H) (other : Machine (H × Plan)) : Prop where
  execution : other.execution = { machine.execution with steps := other.execution.steps }
  status : other.status = machine.status
  world : other.world = machine.world.planned []

theorem Machine.Planned.sameButSteps {machine : Machine H} {other : Machine (H × Plan)}
    (h : Planned [] machine other) : machine.SameButSteps other :=
  ⟨h.execution_eq, h.status.eq, h.world⟩

theorem Machine.rel_sameButSteps {outcome? : Option (Outcome H)} {other? : Option (Outcome (H × Plan))}
    (h : Option.Rel (Outcome.Rel (Planned []) (Planned [])) outcome? other?) :
    Option.Rel (Outcome.Rel SameButSteps SameButSteps) outcome? other? := by
  cases h with
  | none => exact .none
  | some h =>
    cases h with
    | ok h => exact .some (.ok h.sameButSteps)
    | fail error h => exact .some (.fail error h.sameButSteps)

theorem Chronicle.exists_of_stepped {program : Program} {setting : Setting H}
    {machine last : Machine H} {count : Nat} {past : List Execution}
    (h : Chronicle program (machine.execution :: past))
    (hs : machine.stepped setting count = some last) :
    ∃ past, Chronicle program (last.execution :: past) := by
  induction count generalizing machine past with
  | zero =>
    cases hs
    exact ⟨past, h⟩
  | succ count ih =>
    obtain ⟨instruction, next, hn, hstep, hrest⟩ := Machine.stepped_succ_eq_some.1 hs
    exact ih (h.step hn hstep) hrest

open Machine

/-- A call that the host puts off starts over with its arguments. The execution is again where it was
when it last began with them: it has not left the frame since, nor been there again in it, and the
operands of all frames are what they were then. So if there is no call among the arguments, no limit on
steps, no host that looks at the number of steps, and no operator that meets references before they are
looked up, then a run that is resumed as often as the call is put off comes to the call again. From
there on it goes the way of the run whose host answers at once: it makes the same calls, and ends in the
same way, but for the steps that it has counted. -/
theorem put_off_call_starts_over {tree : Node} {before : List Node} {program : Program}
    (hcompile : tree.compile before = .ok program ∨ tree.compileExpression before = .ok program)
    (past : List Execution) :
    (∀ {setting : Setting H} {machine found : Machine H} {instruction : Instruction}
        {request : Request H} {extra : Option Value},
      Chronicle program (machine.execution :: past) → machine.next? = some instruction →
      machine.limitReached? setting = none →
      machine.clearMarks.request? setting instruction.op = some (request, found) →
      (found.reply setting request).1.outcome = .ok (.before extra) →
      program.Argued request.argc request.restart machine.execution.pc ∧
        ∃ paused recent visit older, machine.step setting instruction = .ok paused ∧
          paused.execution.pc = request.restart ∧
          machine.execution :: past = recent ++ visit :: older ∧ visit.pc = request.restart ∧
          paused.execution.frames.map Frame.stack = visit.frames.map Frame.stack ∧
          ∀ execution ∈ recent, visit.depth ≤ execution.depth ∧ (execution.depth = visit.depth →
            request.restart < execution.pc ∧ execution.pc ≤ machine.execution.pc)) ∧
    ∀ {runner : Runner H} {world : World H} {earlier argc restart : Nat} {begun site : Machine H}
        {instruction : Instruction},
      Chronicle program (runner.execution :: past) → runner.loaded = true →
      runner.limits.maxCycles = none → runner.setting.IgnoresSteps →
      (runner.machine world).stepped runner.setting earlier = some begun →
      ComesToCall runner.setting begun site instruction argc restart →
      ∀ delays : List (Option Value), ∃ fuel ready world' steps again,
        runner.planned.poll fuel (List.replicate delays.length runner.signals)
            (world.planned (List.replicate
              ((runner.machine world).calls runner.setting earlier).length none ++ delays.map some)) =
          some (none, ready, world') ∧
        ready.setting = runner.setting.planned ∧
        (ready.machine world').stepped ready.setting steps = some again ∧
        ∀ fuel, again.calls ready.setting fuel = site.calls runner.setting fuel ∧
          Option.Rel (Outcome.Rel SameButSteps SameButSteps) (runFor runner.setting fuel site)
            (runFor ready.setting fuel again) := by
  obtain ⟨shape, table, hc, hstart⟩ := Program.exists_compiled hcompile
  have hl := Program.wellLaid hcompile
  refine ⟨?_, ?_⟩
  · intro setting machine found instruction request extra hchronicle hn hlimit hr hanswer
    obtain ⟨hrest, -⟩ := hchronicle.traced hc hl hstart _ _ rfl
    have hready := (kept_of_resting hrest hn).clearMarks.ready hc hn
    have hat : program.callAt? machine.execution.pc = some (request.argc, request.restart) := by
      have hi := instruction?_of_next? hn
      rw [Execution.instruction?, hrest.runs] at hi
      rw [Program.callAt?, hi]
      exact call?_of_request? hr
    have hstep := step_of_before hlimit hr (argc_eq_needs hr ▸ hready.operands)
      (hready.targets _ (restart_mem_targets hr)) hanswer
    obtain ⟨recent, visit, older, hhistory, hpc, hstacks, hrecent⟩ :=
      hchronicle.exists_visit extra hc hl hstart hn hr
    exact ⟨hl.argued hat, _, recent, visit, older, hstep, Execution.pc_of_levels (levels_putOff hr),
      hhistory, hpc, hstacks, hrecent⟩
  · intro runner world earlier argc restart begun site instruction hchronicle hloaded hlimit hsetting
      hbegun hcall delays
    obtain ⟨hrest, -⟩ := hchronicle.traced hc hl hstart _ _ rfl
    obtain ⟨first, hfirst⟩ := exists_next?_of_stepped hcall.computed hcall.next
    obtain ⟨first', hfirst'⟩ := exists_next?_of_stepped hbegun hfirst
    have hkept : begun.Kept program shape table :=
      kept_of_stepped hc (kept_of_resting hrest hfirst') hbegun
    have hstatus := started_of_stepped hbegun rfl hfirst
    obtain ⟨request, found, hr, rfl, rfl, hargs⟩ := hcall.exists_request?
    have hplanned : Planned (List.replicate
        ((runner.machine world).calls runner.setting earlier).length none ++ delays.map some)
        (runner.machine world) (runner.planned.machine (world.planned _)) :=
      ⟨.of_eq runner.execution.steps rfl, Status.matches_self _, rfl⟩
    obtain ⟨site', hway, hsite⟩ := hcall.exists_planned hc hl hkept hlimit hsetting hplanned hbegun
    obtain ⟨ready, world', steps, again, hpoll, hsame, hway', hlast⟩ :=
      Runner.exists_poised hcall hc hl hkept hstatus hlimit hsetting hr
        (Nat.lt_succ_of_le (Nat.le_add_left _ earlier)) delays hloaded rfl hway (Nat.lt_succ_self _)
        (poised_of_planned hsetting hsite hcall.next hr)
    refine ⟨_, ready, world', steps, again, hpoll, hsame, hsame ▸ hway', fun fuel => ?_⟩
    obtain ⟨hcalls, hruns⟩ := hlast.runs hlimit hsetting hcall.next hr hargs fuel
    rw [hsame]
    exact ⟨hcalls, rel_sameButSteps hruns⟩

def questionInSum : Node := .root
  [.procedure "f" ["n"]
    [.assign "y" (.binary .add (.int 1 none)
      (.call "ask" [.binary .mul (.ident "n" none) (.int 2 none) none] none) none) none] none,
    .call "f" [.int 5 none] none] none

def questionInSumProgram : Program := (questionInSum.compile []).toOption.getD .empty

def questionRunner : Runner Unit :=
  { Runner.ofSetting echoing with execution := .start questionInSumProgram, loaded := true }

def questionAt (count : Nat) : Machine Unit :=
  ((questionRunner.machine ⟨.empty, ()⟩).stepped echoing count).getD
    (questionRunner.machine ⟨.empty, ()⟩)

def hesitate : FunctionProvider Unit where
  supports := (· == "ask")
  invoke _ _ _ world := (⟨[], .ok (.before none)⟩, world)

def hesitating : Setting Unit := ⟨[hesitate], [], [], .unlimited⟩

theorem comesToCall_question :
    ComesToCall echoing (questionAt 6) (questionAt 9) ⟨.call "ask" 1 4, none⟩ 1 4 := by
  refine ⟨rfl, rfl, rfl, rfl, rfl, ?_, ?_⟩
  · intro index hle hlt
    have hlt : index < 7 := hlt
    obtain rfl | rfl | rfl : index = 4 ∨ index = 5 ∨ index = 6 := by omega
    all_goals rfl
  · intro count machine hlt hs pos op left right rest hn hstack
    have hlt : count < 3 := hlt
    obtain rfl | rfl | rfl : count = 0 ∨ count = 1 ∨ count = 2 := by omega
    all_goals cases hs
    all_goals cases hn
    trivial

theorem put_off_call_starts_over_inSum : (questionAt 9).stack = [.int 10, .int 1] ∧
      (∃ past paused visit,
        (questionAt 9).step hesitating ⟨.call "ask" 1 4, none⟩ = .ok paused ∧
        visit ∈ (questionAt 9).execution :: past ∧ visit.pc = 4 ∧ paused.execution.pc = 4 ∧
        paused.execution.frames.map Frame.stack = visit.frames.map Frame.stack) ∧
      ∃ fuel ready world steps again,
        questionRunner.planned.poll fuel [[], []]
            (World.planned [some none, some (some (.int 3))] ⟨.empty, ()⟩) =
          some (none, ready, world) ∧
        (ready.machine world).stepped ready.setting steps = some again ∧
        ∀ fuel, again.calls ready.setting fuel = (questionAt 9).calls echoing fuel ∧
          Option.Rel (Outcome.Rel SameButSteps SameButSteps) (runFor echoing fuel (questionAt 9))
            (runFor ready.setting fuel again) := by
  have hcompile : questionInSum.compile [] = .ok questionInSumProgram := by rfl
  have hignores : echoing.IgnoresSteps :=
    ⟨fun provider hmem name context steps args world => by cases List.mem_singleton.1 hmem; rfl, nofun⟩
  have hstart : Chronicle questionInSumProgram [(questionAt 0).execution] := .start
  have hway : (questionAt 0).stepped echoing 6 = some (questionAt 6) := rfl
  have hway' : (questionAt 0).stepped echoing 9 = some (questionAt 9) := rfl
  refine ⟨rfl, ?_, ?_⟩
  · obtain ⟨past, hchronicle⟩ := hstart.exists_of_stepped hway'
    have hreply : (((questionAt 9).clearMarks.reply hesitating
        ⟨none, "ask", 1, 4, (hesitate.invoke · "ask")⟩).1.outcome) = .ok (.before none) := rfl
    obtain ⟨-, paused, recent, visit, older, hstep, hpc, hhistory, hvisit, hstacks, -⟩ :=
      (put_off_call_starts_over (.inl hcompile) past).1 hchronicle rfl rfl rfl hreply
    refine ⟨past, paused, visit, hstep, ?_, hvisit, hpc, hstacks⟩
    rw [hhistory]
    simp
  · obtain ⟨fuel, ready, world, steps, again, hpoll, -, hway, hruns⟩ :=
      (put_off_call_starts_over (.inl hcompile) []).2 hstart rfl rfl hignores hway
        comesToCall_question [none, some (.int 3)]
    exact ⟨fuel, ready, world, steps, again, hpoll, hway, hruns⟩

def Runner.startingWith (setting : Setting Unit) (program : Program) : Runner Unit :=
  { Runner.ofSetting setting with execution := .start program, loaded := true }

def Runner.endsAtOnce (runner : Runner Unit) (objects : Objects) :
    Option (Option RunError × Table Value) :=
  (runner.run 30 ⟨objects, ()⟩).map fun (error?, last, _) => (error?, last.execution.globals.vars)

def Runner.endsLater (runner : Runner Unit) (objects : Objects) :
    Option (Option RunError × Table Value) :=
  (runner.planned.poll 30 [[], []] (World.planned [some none] ⟨objects, ()⟩)).map
    fun (error?, last, _) => (error?, last.execution.globals.vars)

def tellSteps : FunctionProvider Unit where
  supports := (· == "steps")
  invoke context _ _ world :=
    (⟨[], .ok (.value (.int (Int64.ofNat context.execution.steps)))⟩, world)

def askThenCount : Program :=
  ((Node.root [.assign "r" (.call "ask" [.int 7 none] none) none,
    .assign "n" (.call "steps" [] none) none] none).compile []).toOption.getD .empty

def repeatLast : FunctionProvider Unit where
  supports := (· == "ask")
  invoke _ _ args world := (⟨[], .ok (.value (args.getLastD .null))⟩, world)

def askShowing : Program :=
  ((Node.root [.assign "r" (.call "ask" [.ident "x" none,
    .binary .concat (.str "" none) (.ident "xs" none) none] none) none] none).compile []).toOption.getD
      .empty

def accountsUnseen : List (String × Value) :=
  [("xs", .list [.accountLater 0]), ("x", .accountLater 0)]

def accountStore : Objects := ⟨0, #[⟨[.accounts], 0⟩], #[⟨0, none⟩]⟩

def askDividing : Program :=
  ((Node.root [.assign "r" (.binary .add (.int 6 none) (.binary .add (.int 2 none)
    (.call "ask" [.binary .div (.int 3 none) (.int 0 none) none] none) none) none) none]
      none).compile []).toOption.getD .empty

def limited : Runner Unit :=
  .startingWith ⟨[echo], [], [], ⟨some 4, none⟩⟩ askWithArgumentProgram

def counted : Runner Unit := .startingWith ⟨[echo, tellSteps], [], [], .unlimited⟩ askThenCount

def shown : Runner Unit :=
  (Runner.startingWith ⟨[repeatLast], [], [], .unlimited⟩ askShowing).loadGlobals accountsUnseen

def divided : Runner Unit := .startingWith hesitating askDividing

/-- It shows that a call was put off where there is a limit on steps, where the host looks at their
number, and where an account was shown in the arguments before it was looked up. And after an error
that has cost operands, the execution is not as it was when it began with the arguments. -/
theorem put_off_call_shows : (limited.endsAtOnce .empty = some (none, [("r", .int 7)]) ∧
      limited.endsLater .empty = some (some ⟨.cycleLimit 4, none⟩, [])) ∧
    (counted.endsAtOnce .empty = some (none, [("r", .int 7), ("n", .int 4)]) ∧
      counted.endsLater .empty = some (none, [("r", .int 7), ("n", .int 6)])) ∧
    (shown.endsAtOnce accountStore =
        some (none, accountsUnseen ++ [("r", .str "[<unresolved account:1>]")]) ∧
      shown.endsLater accountStore = some (none, accountsUnseen ++ [("r", .str "[account:1]")])) ∧
    ((divided.machine ⟨.empty, ()⟩).stepped hesitating 2).map
        (fun begun => (begun.execution.pc, begun.stack)) = some (2, [.int 2, .int 6]) ∧
      ((divided.run 30 ⟨.empty, ()⟩).bind fun (_, failed, world) => failed.run 30 world).map
        (fun (error?, paused, _) => (error?, paused.execution.pc, paused.execution.frame.stack)) =
      some (none, 2, []) :=
  ⟨⟨rfl, rfl⟩, ⟨rfl, rfl⟩, ⟨rfl, rfl⟩, rfl, rfl⟩

end DurableScript
