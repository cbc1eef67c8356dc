import DurableScript.Proofs.Binary64
import DurableScript.Proofs.Calls

namespace DurableScript

open Node Machine

def Procedure.names (procedure : Procedure) : List String :=
  procedure.params ++ namesIn procedure.body

def Follows (program : Program) (shape : Nat → Shape) (place : Place) (start stop : Nat)
    (origin : Machine (List HostCall)) : Flow → Store → Machine (List HostCall) → Prop
  | .next => Lands program shape (Within start stop) origin origin.stack stop
  | .returned value => Left program shape place origin.execution value

def Branches (program : Program) (shape : Nat → Shape) (place : Place) (start stop exit : Nat)
    (origin : Machine (List HostCall)) : Option Flow → Store → Machine (List HostCall) → Prop
  | some .next => Lands program shape (Within start stop) origin origin.stack exit
  | some (.returned value) => Left program shape place origin.execution value
  | none => Lands program shape (Within start stop) origin origin.stack stop

structure Scene.Staged (scene : Scene) (program : Program) (shape : Nat → Shape) : Prop where
  compiled : Compiled program shape scene.procedures
  discreet : ∀ name procedure, Table.find? name scene.procedures = some procedure →
    Discreet procedure.names

/-- The code of every part of a script carries out what the part means, as far as the fuel goes. -/
structure Correct (scene : Scene) (program : Program) (shape : Nat → Shape) (fuel : Nat) : Prop where
  value : ∀ {node start code store machine}, LowersValue (.value node) start code →
    program.Holds start code → Discreet node.names → Standing program shape start store machine →
    Realizes scene.setting (Eval.value scene fuel node) store machine fun value =>
      Lands program shape Nowhere machine (value :: machine.stack) (start + code.length)
  arguments : ∀ {args start code store machine}, LowersValue (.arguments args) start code →
    program.Holds start code → Discreet (namesIn args) →
    Standing program shape start store machine →
    Realizes scene.setting (Eval.arguments scene fuel args) store machine fun values after last =>
      values.length = args.length ∧
      Lands program shape Nowhere machine (values ++ machine.stack) (start + code.length) after last
  call : ∀ {name args restart index pos rest store machine},
    program.code[index]? = some ⟨.call name args.length restart, pos⟩ →
    machine.stack = args ++ rest → Standing program shape index store machine →
    Realizes scene.setting (Eval.call scene fuel pos name args) store machine
      (Answered program shape machine rest (index + 1))
  statement : ∀ {node start code entries place store machine},
    Lowers (.one none node) start code entries → program.Holds start code → Discreet node.names →
    Shaped shape start (node.statementShapes place) → RunsAt program machine.execution place →
    Standing program shape start store machine →
    Realizes scene.setting (Eval.statement scene fuel node) store machine
      (Follows program shape place start (start + code.length) machine)
  statements : ∀ {nodes start code entries place store machine},
    Lowers (.many nodes) start code entries → program.Holds start code →
    Discreet (namesIn nodes) → Shaped shape start (statementsShapes place nodes) →
    RunsAt program machine.execution place → Standing program shape start store machine →
    Realizes scene.setting (Eval.statements scene fuel nodes) store machine
      (Follows program shape place start (start + code.length) machine)
  chain : ∀ {node exit? start code entries place store machine},
    Lowers (.one exit? node) start code entries → program.Holds start code → Discreet node.names →
    Shaped shape start (node.statementShapes place) → RunsAt program machine.execution place →
    Standing program shape start store machine →
    Realizes scene.setting (Eval.chain scene fuel node) store machine
      (Branches program shape place start (start + code.length)
        (exit?.getD (start + code.length)) machine)
  orElseChain : ∀ {next exit start code entries place store machine},
    Lowers (.orElse exit next) start code entries → program.Holds start code →
    Discreet (namesOf next) → Shaped shape start (orElseShapes place next) →
    RunsAt program machine.execution place → Standing program shape start store machine →
    Realizes scene.setting (Eval.orElseChain scene fuel next) store machine
      (Branches program shape place start (start + code.length) exit machine)

section Expressions

variable {scene : Scene} {program : Program} {shape : Nat → Shape} {fuel : Nat} {store : Store}
  {machine : Machine (List HostCall)} {start : Nat} {code : List Instruction}
  {pos : Option SourcePos} {rest : List Value} {last : Machine (List HostCall)}

theorem Eval.value_literal {node : Node} {literal : Literal} (h : node.literal? = some literal) :
    Eval.value scene (fuel + 1) node = pure literal.value := by
  cases node with
  | float x =>
    cases h
    rw [Eval.value, Literal.float, Literal.value, Binary64.ofBits_toBits]
  | int | str | bool | null =>
    cases h
    rw [Eval.value]
    rfl
  | root | assign | branch | countLoop | eachLoop | whileLoop | procedure | ret | stop | nothing | wait
  | call | methodCall | group | binary | negate | path | ident => cases h

theorem Standing.realizes_signal (h : Standing program shape start store machine) {op : Operator}
    {right : Node} {function : Builtin} {name : String}
    (hq : signalQuery? op right = some (function, name))
    (hcode : program.Holds start (emit pos [.pushValue (.str name), .callBuiltin function 1])) :
    Realizes scene.setting (Eval.signalComparison scene.signals op right) store machine
      fun value => Lands program shape Nowhere machine (value :: machine.stack) (start + 2) := by
  refine .after (h.pushValue hcode.1) fun pushed hpushed => ?_
  have hrun : Realizes scene.setting
      (Eval.ofExcept pos (function.run [.str name] scene.signals)) store pushed fun value =>
        Lands program shape Nowhere pushed (value :: machine.stack) (start + 2) :=
    hpushed.standing.realizes_callBuiltin [.str name] hcode.2.1 hpushed.stack
  rw [Eval.signalComparison_of_query hq pos]
  exact hrun.mono fun _ _ _ hl => hpushed.trans hl

theorem Standing.realizes_properties {properties : List String} {object : Value}
    (h : Standing program shape start store machine)
    (hcode : program.Holds start (emit pos (properties.map .pushProperty)))
    (hstack : machine.stack = object :: rest) :
    Realizes scene.setting (properties.foldlM (Eval.property pos) object) store machine
      fun value => Lands program shape Nowhere machine (value :: rest) (start + properties.length) := by
  induction properties generalizing start store machine object with
  | nil => exact .pure ⟨h, hstack, .refl _ _⟩
  | cons name properties ih =>
    rw [List.foldlM_cons]
    refine (h.realizes_property hcode.1 hstack).bind fun value _ next hnext => ?_
    refine (ih hnext.standing hcode.2 hnext.stack).mono fun _ _ _ hl => (hnext.trans hl).cast rfl ?_
    simp only [List.length_cons]
    omega

theorem Lands.pushAnswer {first : List Value} {index stop : Nat} {value : Value} {after : Store}
    {called : Machine (List HostCall)}
    (h : Lands program shape Nowhere machine first start store called)
    (ha : Answered program shape called rest index value after last)
    (hi : program.code[index]? = some ⟨.pushResult, pos⟩) (hstop : index + 1 = stop) :
    ∃ final, Reaches scene.setting last final ∧
      Lands program shape Nowhere machine (value :: rest) stop after final := by
  obtain ⟨final, hr, hl⟩ := ha.1.standing.pushResult hi
  rw [ha.1.stack, ha.2] at hl
  exact ⟨final, hr, (h.trans (ha.1.trans hl)).cast rfl hstop⟩

theorem Correct.value_succ (ih : Correct scene program shape fuel) {node : Node}
    (h : LowersValue (.value node) start code) (hcode : program.Holds start code)
    (hnames : Discreet node.names) (hm : Standing program shape start store machine) :
    Realizes scene.setting (Eval.value scene (fuel + 1) node) store machine fun value =>
      Lands program shape Nowhere machine (value :: machine.stack) (start + code.length) := by
  cases h with
  | literal h =>
    rw [Eval.value_literal h]
    exact .after (hm.pushValue hcode.1) fun _ hl => .pure hl
  | ident =>
    simp only [names, Discreet.cons_iff] at hnames
    rw [Eval.value]
    exact hm.realizes_read hcode.1 hnames.1
  | signal hs hq =>
    rw [Eval.value, if_pos hs]
    exact hm.realizes_signal hq hcode
  | @binary _ op left right pos first second hs h₁ h₂ =>
    simp only [names, Discreet.append_iff] at hnames
    simp only [Program.Holds, Along.append_iff, List.length_append, ← Nat.add_assoc] at hcode
    obtain ⟨⟨hcode₁, hcode₂⟩, hop, -⟩ := hcode
    rw [Eval.value, if_neg (by simp [hs])]
    refine (ih.value h₁ hcode₁ hnames.1 hm).bind fun x _ m₁ hl₁ => ?_
    refine (ih.value h₂ hcode₂ hnames.2 hl₁.standing).bind fun y _ m₂ hl₂ => ?_
    rw [hl₁.stack] at hl₂
    refine (hl₂.standing.realizes_operate hop hl₂.stack).mono fun _ _ _ hl => ?_
    refine (hl₁.trans (hl₂.trans hl)).cast rfl ?_
    simp [Nat.add_assoc]
  | @call _ name args pos pushed h =>
    simp only [names] at hnames
    simp only [Program.Holds, Along.append_iff] at hcode
    obtain ⟨hcode, hcall, hpush, -⟩ := hcode
    rw [Eval.value]
    refine (ih.arguments h hcode hnames hm).bind fun values _ m₁ hargs => ?_
    obtain ⟨hlen, hl₁⟩ := hargs
    rw [← hlen] at hcall
    exact (ih.call hcall hl₁.stack hl₁.standing).andThen
      fun _ _ _ ha => hl₁.pushAnswer ha hpush (by simp [Nat.add_assoc])
  | @methodCall _ object name args pos pushed h =>
    simp only [names, Discreet.cons_iff] at hnames
    simp only [Program.Holds, Along.append_iff] at hcode
    obtain ⟨hcode, hcall, hpush, -⟩ := hcode
    rw [Eval.value]
    refine (ih.arguments h hcode hnames.2 hm).bind fun values _ m₁ hargs => ?_
    obtain ⟨hlen, hl₁⟩ := hargs
    rw [← hlen] at hcall
    exact (hl₁.standing.realizes_callMethod hcall hnames.1 hl₁.stack).andThen
      fun _ _ _ ha => hl₁.pushAnswer ha hpush (by simp [Nat.add_assoc])
  | group h =>
    simp only [names] at hnames
    rw [Eval.value]
    exact ih.value h hcode hnames hm
  | @negate _ inner pos code h =>
    simp only [names] at hnames
    simp only [Program.Holds, Along.append_iff] at hcode
    obtain ⟨hcode, hinvert, -⟩ := hcode
    rw [Eval.value]
    refine (ih.value h hcode hnames hm).bind fun x _ m₁ hl₁ => ?_
    refine .after (hl₁.standing.invert hinvert hl₁.stack) fun _ hl => .pure ?_
    exact (hl₁.trans hl).cast rfl (by simp [Nat.add_assoc])
  | @path _ parts properties object pos h =>
    have hlast : parts.getLast?.toList = [object] := by
      rw [← List.head?_reverse, h]
      rfl
    simp only [names, hlast, Discreet.cons_iff] at hnames
    rw [Eval.value, h]
    refine (hm.realizes_read hcode.1 hnames.1).bind fun x _ m₁ hl₁ => ?_
    refine (hl₁.standing.realizes_properties hcode.2 hl₁.stack).mono fun _ _ _ hl => ?_
    exact (hl₁.trans hl).cast rfl (by simp; omega)

theorem Correct.arguments_succ (ih : Correct scene program shape fuel) {args : List Node}
    (h : LowersValue (.arguments args) start code) (hcode : program.Holds start code)
    (hnames : Discreet (namesIn args)) (hm : Standing program shape start store machine) :
    Realizes scene.setting (Eval.arguments scene (fuel + 1) args) store machine
      fun values after last => values.length = args.length ∧
        Lands program shape Nowhere machine (values ++ machine.stack) (start + code.length) after
          last := by
  cases h with
  | nil =>
    rw [Eval.arguments]
    exact .pure ⟨rfl, hm, rfl, .refl _ _⟩
  | @cons _ arg rest later code h₁ h₂ =>
    simp only [namesIn, Discreet.append_iff] at hnames
    simp only [Program.Holds, Along.append_iff] at hcode
    rw [Eval.arguments]
    refine (ih.arguments h₁ hcode.1 hnames.2 hm).bind fun values _ m₁ hargs => ?_
    obtain ⟨hlen, hl₁⟩ := hargs
    refine (ih.value h₂ hcode.2 hnames.1 hl₁.standing).bind fun x _ m₂ hl₂ => .pure ⟨?_, ?_⟩
    · simp [hlen]
    · rw [hl₁.stack] at hl₂
      exact (hl₁.trans hl₂).cast rfl (by simp [Nat.add_assoc])

theorem Entered.answered {origin : Execution} {args : List Value} {target entry : Nat}
    {value : Value} {opened after : Store} {inside : Machine (List HostCall)}
    (h : Entered program shape origin args target entry opened inside)
    (hkeeps : machine.execution.Keeps Nowhere origin) (hstack : origin.frame.stack = rest)
    (hb : Back program shape inside.execution value after last) :
    Answered program shape machine rest target value after.closeCall last := by
  obtain ⟨hresult, hcaller, index, hindex, hstanding⟩ := hb
  rw [h.below] at hcaller
  cases hcaller with
  | cons hwaits hbelow =>
    cases h.returnTo.symm.trans hindex
    exact ⟨⟨hstanding, hwaits.stack.trans hstack, hkeeps.trans ⟨hwaits.keeps, hbelow⟩⟩, hresult⟩

theorem Follows.back {stop : Nat} {flow : Flow}
    (h : Follows program shape .body start stop machine flow store last)
    (hruns : RunsAt program machine.execution .body)
    (hret : program.code[stop]? = some ⟨.ret false, pos⟩) :
    ∃ final, Reaches scene.setting last final ∧
      Back program shape machine.execution flow.result store final := by
  cases flow with
  | next =>
    have hx : execute scene.setting last.clearMarks (.ret false) =
        (last.clearMarks.setStack last.clearMarks.stack).leave .null := by
      rw [setStack_stack]
      rfl
    obtain ⟨final, hr, hleft⟩ := h.standing.leave hret (hruns.of_keeps h.keeps) hx
    exact ⟨final, hr, Back.of_keeps hleft h.keeps⟩
  | returned value => exact ⟨last, .refl, h⟩

theorem Realizes.openCall {setting : Setting (List HostCall)} :
    Realizes setting Eval.openCall store machine
      fun _ after last => after = store.openCall ∧ last = machine := by
  intro result after he
  cases he
  exact ⟨machine, .refl, rfl, rfl⟩

theorem Realizes.closeCall {setting : Setting (List HostCall)} :
    Realizes setting Eval.closeCall store machine
      fun _ after last => after = store.closeCall ∧ last = machine := by
  intro result after he
  cases he
  exact ⟨machine, .refl, rfl, rfl⟩

theorem Correct.call_succ (hs : scene.Staged program shape) (ih : Correct scene program shape fuel)
    {name : String} {args : List Value} {restart index : Nat}
    (hi : program.code[index]? = some ⟨.call name args.length restart, pos⟩)
    (hstack : machine.stack = args ++ rest) (hm : Standing program shape index store machine) :
    Realizes scene.setting (Eval.call scene (fuel + 1) pos name args) store machine
      (Answered program shape machine rest (index + 1)) := by
  rw [Eval.call]
  have hlinked := hs.compiled.linked name
  cases hfind : Table.find? name scene.procedures with
  | none =>
    rw [hfind] at hlinked
    cases hentry : Table.find? name program.procedures with
    | none => exact hm.realizes_callFunction hi hentry hstack
    | some entry =>
      rw [hentry] at hlinked
      cases hlinked
  | some procedure =>
    rw [hfind] at hlinked
    cases hentry : Table.find? name program.procedures with
    | none =>
      rw [hentry] at hlinked
      cases hlinked
    | some entry =>
      rw [hentry] at hlinked
      cases hlinked with
      | some hstands =>
        obtain ⟨code, entries, hlowers, hcode, hshaped⟩ := hstands
        simp only [Program.Holds, emit_cons, List.cons_append, Along.cons_iff, Along.append_iff,
          List.length_append, length_emit, List.length_map, List.length_reverse, ← Nat.add_assoc]
          at hcode
        obtain ⟨hexpect, ⟨hparams, hbody⟩, hret, -⟩ := hcode
        have hsize : entry ≤ program.size := by
          obtain ⟨hlt, -⟩ := Array.getElem?_eq_some_iff.1 hexpect
          exact Nat.le_of_lt hlt
        have hnames := Discreet.append_iff.1 (hs.discreet name procedure hfind)
        have hn : entry + 1 + procedure.params.length = entry + procedure.params.length + 1 := by omega
        rw [hn] at hbody hret
        dsimp only
        split
        · next hlen =>
          refine Realizes.openCall.bind ?_
          rintro _ _ _ ⟨rfl, rfl⟩
          refine .after (hm.enter hi hentry hsize hstack) fun inside hin => ?_
          have hcount : inside.stack.length = procedure.params.length := by
            rw [hin.stack, List.length_reverse, hlen]
          refine .after (hin.standing.expectStack hexpect hcount) fun m₁ hl₁ => ?_
          refine (hl₁.standing.realizes_bindParams hparams hnames.1 hlen
            (hl₁.stack.trans hin.stack)).bind fun _ _ m₂ hl₂ => ?_
          have hkeeps := hl₁.keeps.trans hl₂.keeps
          have hruns := hin.runs.of_keeps hkeeps
          rw [hn] at hl₂
          refine ((ih.statements hlowers hbody hnames.2 hshaped hruns hl₂.standing).andThen
            fun _ _ _ hf => hf.back hruns hret).bind fun flow after last hback => ?_
          refine Realizes.closeCall.bind ?_
          rintro _ _ _ ⟨rfl, rfl⟩
          exact .pure (hin.answered (keeps_popped _ rest Nowhere) (stack_setStack _ _)
            (hback.of_keeps hkeeps))
        · next hlen =>
          refine .after (hm.enter hi hentry hsize hstack) fun inside hin => ?_
          have hx : execute scene.setting inside.clearMarks (.expectStack procedure.params.length) =
              .fail (.ofFault (.stackCount procedure.params.length args.length))
                inside.clearMarks := by
            have hstack : inside.clearMarks.stack.length = args.length := by
              rw [show inside.clearMarks.stack = args.reverse from hin.stack, List.length_reverse]
            simp only [execute, hstack, if_neg hlen]
            rfl
          intro result after he
          cases he
          exact hin.standing.fails hexpect hx hin.standing.calls

end Expressions

end DurableScript
