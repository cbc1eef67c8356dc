import DurableScript.Proofs.Loops

/-!
Compiler correctness: a run of the compiled script ends as the evaluation of its tree does.
-/

namespace DurableScript

open Node Machine

namespace Node

mutual

theorem discreet_procedures : (node : Node) → Discreet node.names →
    ∀ declared ∈ node.procedures, Discreet declared.2.names
  | branch condition body orElse otherwise _, h, declared, hmem => by
    simp only [names, Discreet.append_iff] at h
    simp only [procedures, List.mem_append] at hmem
    obtain (hmem | hmem) | hmem := hmem
    · exact discreet_proceduresIn body h.1.1.2 declared hmem
    · exact discreet_orElseProcedures orElse h.1.2 declared hmem
    · exact discreet_otherwiseProcedures otherwise h.2 declared hmem
  | countLoop _ _ _ _ body _, h, declared, hmem | eachLoop _ _ body _, h, declared, hmem
  | whileLoop _ body _, h, declared, hmem => by
    simp only [names, Discreet.append_iff] at h
    exact discreet_proceduresIn body h.2 declared hmem
  | procedure name params body pos, h, declared, hmem => by
    simp only [names] at h
    simp only [procedures, List.mem_cons] at hmem
    obtain rfl | hmem := hmem
    · exact h
    · exact discreet_proceduresIn body (Discreet.append_iff.1 h).2 declared hmem
  | root .., _, _, hmem | assign .., _, _, hmem | ret .., _, _, hmem | stop .., _, _, hmem
  | nothing .., _, _, hmem | wait .., _, _, hmem | call .., _, _, hmem | methodCall .., _, _, hmem
  | group .., _, _, hmem | binary .., _, _, hmem | negate .., _, _, hmem | path .., _, _, hmem
  | ident .., _, _, hmem | int .., _, _, hmem | float .., _, _, hmem | str .., _, _, hmem
  | bool .., _, _, hmem | null .., _, _, hmem => by
    simp [procedures] at hmem

theorem discreet_proceduresIn : (nodes : List Node) → Discreet (namesIn nodes) →
    ∀ declared ∈ proceduresIn nodes, Discreet declared.2.names
  | [], _, _, hmem => by simp [proceduresIn] at hmem
  | first :: rest, h, declared, hmem => by
    simp only [namesIn, Discreet.append_iff] at h
    simp only [proceduresIn, List.mem_append] at hmem
    obtain hmem | hmem := hmem
    · exact discreet_procedures first h.1 declared hmem
    · exact discreet_proceduresIn rest h.2 declared hmem

theorem discreet_orElseProcedures : (next : Option Node) → Discreet (namesOf next) →
    ∀ declared ∈ orElseProcedures next, Discreet declared.2.names
  | none, _, _, hmem => by simp [orElseProcedures] at hmem
  | some next, h, declared, hmem => by
    simp only [namesOf] at h
    simp only [orElseProcedures] at hmem
    exact discreet_procedures next h declared hmem

theorem discreet_otherwiseProcedures : (last : Option (List Node)) →
    Discreet (otherwiseNames last) → ∀ declared ∈ otherwiseProcedures last, Discreet declared.2.names
  | none, _, _, hmem => by simp [otherwiseProcedures] at hmem
  | some body, h, declared, hmem => by
    simp only [otherwiseNames] at h
    simp only [otherwiseProcedures] at hmem
    exact discreet_proceduresIn body h declared hmem

end

end Node

section Statement

variable {scene : Scene} {program : Program} {shape : Nat → Shape} {fuel : Nat} {store : Store}
  {machine : Machine (List HostCall)} {start : Nat} {code : List Instruction}
  {entries : List (String × Nat)} {place : Place}

theorem Correct.statement_succ (hc : scene.Staged program shape)
    (ih : ∀ less < fuel + 1, Correct scene program shape less) {node : Node}
    (h : Lowers (.one none node) start code entries) (hcode : program.Holds start code)
    (hnames : Discreet node.names) (hs : Shaped shape start (node.statementShapes place))
    (hruns : RunsAt program machine.execution place)
    (hm : Standing program shape start store machine) :
    Realizes scene.setting (Eval.statement scene (fuel + 1) node) store machine
      (Follows program shape place start (start + code.length) machine) := by
  have hless := ih fuel (Nat.lt_succ_self fuel)
  cases h with
  | branch he hf hv h₁ h₂ h₃ =>
    rw [Eval.statement]
    refine (hless.chain (.branch he hf hv h₁ h₂ h₃) hcode hnames hs hruns hm).bind ?_
    intro flow? _ last hb
    refine .pure ?_
    cases flow? with
    | none => exact hb
    | some flow => cases flow <;> exact hb
  | @assign _ name value pos code hv =>
    simp only [names, Discreet.cons_iff] at hnames
    simp only [Program.Holds, Along.append_iff] at hcode
    rw [Eval.statement]
    refine (hless.value hv hcode.1 hnames.2 hm).bind fun x _ m₁ hl₁ => ?_
    refine (hl₁.standing.realizes_assign hcode.2.1 hnames.1 hl₁.stack).bind fun _ _ m₂ hl₂ => ?_
    exact .pure (((hl₁.trans hl₂).mono Nowhere.elim).cast rfl (by simp [Nat.add_assoc]))
  | @call _ name args pos pushed hv =>
    simp only [names] at hnames
    simp only [Program.Holds, Along.append_iff] at hcode
    rw [Eval.statement]
    refine (hless.arguments hv hcode.1 hnames hm).bind fun values _ m₁ hargs => ?_
    obtain ⟨hlen, hl₁⟩ := hargs
    have hcall := hcode.2.1
    rw [← hlen] at hcall
    refine (hless.call hcall hl₁.stack hl₁.standing).bind fun _ _ m₂ hl₂ => ?_
    exact .pure (((hl₁.trans hl₂.1).mono Nowhere.elim).cast rfl (by simp [Nat.add_assoc]))
  | @methodCall _ object name args pos pushed hv =>
    simp only [names, Discreet.cons_iff] at hnames
    simp only [Program.Holds, Along.append_iff] at hcode
    rw [Eval.statement]
    refine (hless.arguments hv hcode.1 hnames.2 hm).bind fun values _ m₁ hargs => ?_
    obtain ⟨hlen, hl₁⟩ := hargs
    have hcall := hcode.2.1
    rw [← hlen] at hcall
    refine (hl₁.standing.realizes_callMethod hcall hnames.1 hl₁.stack).bind fun _ _ m₂ hl₂ => ?_
    exact .pure (((hl₁.trans hl₂.1).mono Nowhere.elim).cast rfl (by simp [Nat.add_assoc]))
  | stop =>
    unfold Eval.statement
    exact .undefined
  | nothing =>
    rw [Eval.statement]
    exact .after (hm.nop hcode.1) fun _ hl => .pure (hl.mono Nowhere.elim)
  | wait =>
    rw [Eval.statement]
    split
    · next hmet => exact .after (hm.wait hcode.1 hmet) fun _ hl => .pure (hl.mono Nowhere.elim)
    · exact .undefined
  | ret =>
    rw [Eval.statement]
    have hx : execute scene.setting machine.clearMarks (.ret false) =
        (machine.clearMarks.setStack machine.clearMarks.stack).leave .null := by
      rw [setStack_stack]
      rfl
    exact .after (hm.leave hcode.1 hruns hx) fun _ hl => .pure hl
  | @retValue _ value pos code hv =>
    simp only [names, namesOf] at hnames
    simp only [Program.Holds, Along.append_iff] at hcode
    rw [Eval.statement]
    refine (hless.value hv hcode.1 hnames hm).bind fun x _ m₁ hl₁ => ?_
    have hstack : m₁.clearMarks.stack = x :: machine.stack := hl₁.stack
    have hx : execute scene.setting m₁.clearMarks (.ret true) =
        (m₁.clearMarks.setStack machine.stack).leave x := by
      rw [execute, popThen_of_stack hstack]
    exact .after (hl₁.standing.leave hcode.2.1 (hruns.of_keeps hl₁.keeps) hx)
      fun _ hl => .pure (Left.of_keeps hl hl₁.keeps)
  | countLoop e₁ e₂ ht ha hv₁ hv₂ hv₃ h =>
    exact Correct.countLoop_succ ⟨_, _, _, _, _, _, _⟩ hc ih (.countLoop e₁ e₂ ht ha hv₁ hv₂ hv₃ h) hcode
      hnames hs hruns hm
  | eachLoop e₁ e₂ e₃ ht ha hv h =>
    exact Correct.eachLoop_succ ⟨_, _, _, _, _⟩ hc ih (.eachLoop e₁ e₂ e₃ ht ha hv h) hcode hnames hs
      hruns hm
  | @whileLoop _ condition body pos test inner _ after ha hv h =>
    have hn := hv.length_depths 0
    simp only [Phrase.depths] at hn
    simp [statementShapes, hn] at hs
    simp only [names, Discreet.append_iff] at hnames
    have hstop : start + (test ++ emit pos [.jumpUnless after] ++ inner ++
        emit pos [.jump start]).length = after := by
      simp
      omega
    rw [hstop, Eval.statement]
    exact realizes_whileLoop hc (fun less hl => ih less (Nat.lt_succ_of_lt hl)) hv h ha hcode
      hnames.1 hnames.2 hs.2.2.1 hruns hm
  | @procedure _ name params body pos inner _ after ha h =>
    have hstop : start + (emit pos (.jump after :: .expectStack params.length ::
        params.reverse.map .setVariable) ++ inner ++ emit pos [.ret false]).length = after := by
      simp
      omega
    rw [hstop, Eval.statement]
    exact .after (hm.jump hcode.1 (hc.compiled.jump_le hcode.1))
      fun _ hl => .pure (hl.mono Nowhere.elim)

theorem Correct.of_staged (hc : scene.Staged program shape) (fuel : Nat) :
    Correct scene program shape fuel := by
  induction fuel using Nat.strongRecOn with
  | ind fuel ih =>
    cases fuel with
    | zero =>
      exact ⟨fun _ _ _ _ => .undefined, fun _ _ _ _ => .undefined, fun _ _ _ => .undefined,
        fun _ _ _ _ _ _ => .undefined, fun _ _ _ _ _ _ => .undefined, fun _ _ _ _ _ _ => .undefined,
        fun _ _ _ _ _ _ => .undefined⟩
    | succ fuel =>
      have hless := ih fuel (Nat.lt_succ_self fuel)
      exact ⟨hless.value_succ, hless.arguments_succ, hless.call_succ hc, Correct.statement_succ hc ih,
        hless.statements_succ, hless.chain_succ hc, hless.orElseChain_succ⟩

end Statement

def hostedRunner (functions : List PlainFunctions) (methods : List PlainMethods) :
    Runner (List HostCall) :=
  { (Runner.ofLimits .unlimited : Runner (List HostCall)) with
    functions := functions.map PlainFunctions.provider
    methods := methods.map PlainMethods.provider }

def scriptScene (functions : List PlainFunctions) (methods : List PlainMethods)
    (signals : List String) (nodes : List Node) : Scene :=
  ⟨procedureTable nodes, functions, methods, signals⟩

theorem Scene.staged_of_lowers {functions : List PlainFunctions} {methods : List PlainMethods}
    {signals : List String} {nodes : List Node} {code : List Instruction}
    {entries : List (String × Nat)} (h : Lowers (.many nodes) 0 code entries)
    (hnames : Discreet (namesIn nodes)) :
    (scriptScene functions methods signals nodes).Staged ⟨code.toArray, Table.ofPairs entries⟩
      (programShape nodes) := by
  refine ⟨h.compiled, fun name procedure hfind => ?_⟩
  exact discreet_proceduresIn nodes hnames (name, procedure) (Table.mem_of_find?_ofPairs hfind)

/-- A run has ended as an evaluation did: after the same calls of providers with the same error, or
at the end of the program with the same variables and, if the script returned, with its value. -/
def EndsAs (result : Except RunError Flow) (store : Store) (error? : Option RunError)
    (runner : Runner (List HostCall)) (world : World (List HostCall)) : Prop :=
  world.host = store.calls ∧
    match result with
    | .error error => error? = some error
    | .ok flow =>
      error? = none ∧ runner.execution.isFinished = true ∧
        Table.visible runner.execution.globals.vars = store.vars.globals ∧
        match flow with
        | .next => runner.status.reason = none
        | .returned value =>
          runner.status.reason = some .returned ∧ runner.execution.globals.result = value

section Run

variable {functions : List PlainFunctions} {methods : List PlainMethods} {signals : List String}
  {nodes : List Node} {code : List Instruction} {entries : List (String × Nat)}
  {runner : Runner (List HostCall)} {world : World (List HostCall)} {store : Store}
  {last : Machine (List HostCall)} {program : Program}

theorem Fails.run {error : RunError} (hloaded : runner.loaded = true)
    (h : Fails runner.setting (runner.machine world) error store.calls) :
    ∃ steps error? last after, runner.run steps world = some (error?, last, after) ∧
      EndsAs (.error error) store error? last after := by
  obtain ⟨last, instruction, failed, hr, hn, hs, hcalls⟩ := h
  obtain ⟨steps, hrun⟩ := hr.runFor
  refine ⟨1 + steps, some error, (runner.absorb (.fail error failed)).1, failed.world, ?_, hcalls, rfl⟩
  rw [Runner.run, if_pos hloaded, hrun, runFor_succ hn, hs]
  rfl

theorem run_of_reaches (hloaded : runner.loaded = true)
    (hr : Reaches runner.setting (runner.machine world) last) (hn : last.next? = none) :
    ∃ steps, runner.run steps world = some (none, runner.absorb (.ok last.settle)) := by
  obtain ⟨steps, hrun⟩ := hr.runFor
  refine ⟨0 + steps, ?_⟩
  rw [Runner.run, if_pos hloaded, hrun, runFor_of_next?_eq_none hn]
  rfl

theorem standing_freshMachine {shape : Nat → Shape} {vars : Table Value}
    (h : ∀ start role, Table.contains (loopVariable start role) vars → (shape start).place = .top)
    (objects : Objects) : Standing program shape 0 ⟨⟨Table.visible vars, []⟩, objects, []⟩
      (freshMachine program vars ⟨objects, []⟩) := ⟨rfl, rfl, rfl, rfl, rfl, rfl, h⟩

theorem freshMachine_runsAt (program : Program) (vars : Table Value)
    (world : World (List HostCall)) :
    RunsAt program (freshMachine program vars world).execution .top := rfl

theorem Lands.endsAs {shape : Nat → Shape} {range : Nat → Prop} {origin : Machine (List HostCall)}
    {stack : List Value} (h : Lands program shape range origin stack program.size store last)
    (hloaded : runner.loaded = true) (hr : Reaches runner.setting (runner.machine world) last) :
    ∃ steps error? last after, runner.run steps world = some (error?, last, after) ∧
      EndsAs (.ok .next) store error? last after := by
  have hend : last.execution.isFinished = true := by
    rw [Execution.isFinished, h.standing.runs, h.standing.pc]
    exact decide_eq_true (Nat.le_refl _)
  have hnext : last.next? = none := by
    rw [Machine.next?, h.standing.status, Execution.instruction?, h.standing.runs, h.standing.pc]
    exact Array.getElem?_eq_none (Nat.le_refl _)
  obtain ⟨steps, hrun⟩ := run_of_reaches hloaded hr hnext
  rw [settle, if_pos hend] at hrun
  refine ⟨steps, _, _, _, hrun, h.standing.calls, rfl, hend, ?_, ?_⟩
  · exact congrArg Variables.globals h.standing.vars
  · exact congrArg Status.reason h.standing.status

theorem Ended.endsAs {value : Value} (h : Ended program value store last)
    (hloaded : runner.loaded = true) (hr : Reaches runner.setting (runner.machine world) last) :
    ∃ steps error? last after, runner.run steps world = some (error?, last, after) ∧
      EndsAs (.ok (.returned value)) store error? last after := by
  have hend : last.execution.isFinished = true := by
    rw [Execution.isFinished, h.runs, h.pc]
    exact decide_eq_true (Nat.le_refl _)
  have hnext : last.next? = none := by
    rw [Machine.next?, h.status]
    rfl
  obtain ⟨steps, hrun⟩ := run_of_reaches hloaded hr hnext
  rw [settle, if_pos hend] at hrun
  refine ⟨steps, _, _, _, hrun, h.calls, rfl, hend, ?_, ?_, h.result⟩
  · exact congrArg Variables.globals h.vars
  · exact congrArg Status.reason h.status

end Run

theorem compiled_run_ends_as_evaluation {tree : Node} {before : List Node} {program : Program}
    (hcompile : tree.compile before = .ok program)
    (hnames : Discreet (namesIn (before ++ tree.topLevel))) (functions : List PlainFunctions)
    (methods : List PlainMethods) (signals : List String) {globals : List (String × Value)}
    (hglobals : ∀ start role, Table.contains (loopVariable start role) (Table.ofPairs globals) →
      (programShape (before ++ tree.topLevel) start).place = .top)
    {objects : Objects} {fuel : Nat} {result : Except RunError Flow} {store : Store}
    (heval : evaluate functions methods signals (before ++ tree.topLevel)
      (Table.visible (Table.ofPairs globals)) objects fuel = some (result, store)) :
    ∃ loaded, (hostedRunner functions methods).load program = .ok loaded ∧
      ∃ steps error? last world,
        ((loaded.loadGlobals globals).loadSignals signals).run steps ⟨objects, []⟩ =
          some (error?, last, world) ∧ EndsAs result store error? last world := by
  obtain ⟨code, entries, hlowers, rfl⟩ := Lowers.of_compile hcompile
  let nodes := before ++ tree.topLevel
  let scene := scriptScene functions methods signals nodes
  have hstaged : scene.Staged _ (programShape nodes) := Scene.staged_of_lowers hlowers hnames
  have hrealizes := (Correct.of_staged hstaged fuel).statements hlowers
    (Program.holds_toArray code _) hnames (shaped_shapeAt _ _) (freshMachine_runsAt ..)
    (standing_freshMachine hglobals objects) result store heval
  have hempty : (hostedRunner functions methods).execution = .empty := rfl
  obtain ⟨loaded, hload, hready, hhost, hmachine⟩ :=
    Runner.exists_load hempty ⟨code.toArray, Table.ofPairs entries⟩ globals
  refine ⟨loaded, hload, ?_⟩
  have hsetting : ((loaded.loadGlobals globals).loadSignals signals).setting = scene.setting :=
    congrArg (fun setting => { setting with signals := signals }) hhost
  rw [← hmachine, ← hsetting] at hrealizes
  cases result with
  | error error => exact Fails.run hready hrealizes
  | ok flow =>
    obtain ⟨last, hr, hf⟩ := hrealizes
    rw [Nat.zero_add] at hf
    cases flow with
    | next => exact Lands.endsAs hf hready hr
    | returned value => exact Ended.endsAs hf hready hr

def ticking : Node :=
  .root [
    .procedure "f" ["n"] [
      .countLoop (.int 1 none) (.int 2 none) none none [
        .branch (.binary .gt (.ident "n" none) (.int 0 none) none)
          [.call "f" [.binary .sub (.ident "n" none) (.int 1 none) none] none] none none none,
        .call "tick" [] none] none] none,
    .call "f" [.int 1 none] none] none

def tick : PlainFunctions where
  supports := (· == "tick")
  answer _ _ _ objects := (⟨[], .ok .null⟩, objects)
  discreet := nofun

def tickingProgram : Program := (ticking.compile []).toOption.getD .empty

set_option maxRecDepth 4000 in
theorem compiled_run_ends_as_evaluation_ticking :
    evaluate [tick] [] [] ticking.topLevel [] .empty 30 =
        some (.ok .next, ⟨⟨[], []⟩, .empty, List.replicate 6 ⟨none, "tick", []⟩⟩) ∧
      ∃ loaded, (hostedRunner [tick] []).load tickingProgram = .ok loaded ∧
        ∃ steps error? last world,
          ((loaded.loadGlobals [("_l/0/i", .int 0)]).loadSignals []).run steps ⟨.empty, []⟩ =
            some (error?, last, world) ∧
          EndsAs (.ok .next) ⟨⟨[], []⟩, .empty, List.replicate 6 ⟨none, "tick", []⟩⟩ error? last
            world := by
  have heval : evaluate [tick] [] [] ticking.topLevel [] .empty 30 =
      some (.ok .next, ⟨⟨[], []⟩, .empty, List.replicate 6 ⟨none, "tick", []⟩⟩) := by rfl
  have hcompile : ticking.compile [] = .ok tickingProgram := by rfl
  refine ⟨heval, compiled_run_ends_as_evaluation hcompile ?_ [tick] [] [] ?_ heval⟩
  · show ∀ name ∈ namesIn ticking.topLevel, isHidden name = false
    decide
  · intro start role h
    have hname : "_l/0/i" = loopVariable start role := by
      by_contra hne
      simp [Table.contains, Table.ofPairs, Table.insertAll, Table.find?, hne] at h
    have hzero : loopVariable 0 "i" = "_l/0/i" := by decide
    rw [← (loopVariable_inj (hzero.trans hname)).1]
    rfl

set_option maxRecDepth 4000 in
/-- A global variable that bears the name of a loop's counter cuts the loop short. -/
theorem hidden_global_cuts_loop :
    (evaluate [tick] [] [] ticking.topLevel [] .empty 30).map (fun found => found.2.calls.length) =
        some 6 ∧
      ∃ loaded, (hostedRunner [tick] []).load tickingProgram = .ok loaded ∧
        ((loaded.loadGlobals [("_l/3/i", .int 0)]).run 100 ⟨.empty, []⟩).map
          (fun found => found.2.2.host.length) = some 3 := by
  exact ⟨by rfl, _, rfl, by rfl⟩

end DurableScript
