import DurableScript.Proofs.Meaning

namespace DurableScript

open Node Machine

theorem Compiled.jump_le {program : Program} {shape : Nat → Shape} {table : Table Procedure}
    {index target : Nat} {pos : Option SourcePos} (h : Compiled program shape table)
    (hi : program.code[index]? = some ⟨.jump target, pos⟩) : target ≤ program.size := by
  have hfit := h.fits.get (a := ⟨.jump target, pos⟩) (by simpa using hi)
  exact hfit.2

theorem Compiled.jumpUnless_le {program : Program} {shape : Nat → Shape} {table : Table Procedure}
    {index target : Nat} {pos : Option SourcePos} (h : Compiled program shape table)
    (hi : program.code[index]? = some ⟨.jumpUnless target, pos⟩) : target ≤ program.size := by
  have hfit := h.fits.get (a := ⟨.jumpUnless target, pos⟩) (by simpa using hi)
  exact hfit.2.2

section Statements

variable {scene : Scene} {program : Program} {shape : Nat → Shape} {fuel : Nat} {store : Store}
  {machine : Machine (List HostCall)} {start : Nat} {code : List Instruction}
  {entries : List (String × Nat)} {place : Place} {stop start' stop' exit : Nat}
  {middle last : Machine (List HostCall)} {flow : Flow} {after : Store}

theorem Within.mono (hstart : start ≤ start') (hstop : stop' ≤ stop) (i : Nat)
    (h : Within start' stop' i) : Within start stop i :=
  ⟨Nat.le_trans hstart h.1, Nat.lt_of_lt_of_le h.2 hstop⟩

theorem Lands.follows {range : Nat → Prop} {index : Nat}
    (h : Lands program shape range machine machine.stack index store middle)
    (hr : ∀ i, range i → Within start stop i) (hstart : start ≤ start')
    (h' : Follows program shape place start' stop middle flow after last) :
    Follows program shape place start stop machine flow after last := by
  cases flow with
  | next =>
    have hlands : Lands program shape (Within start' stop) middle middle.stack stop after last := h'
    rw [h.stack] at hlands
    exact (h.mono hr).trans (hlands.mono (Within.mono hstart (Nat.le_refl _)))
  | returned value => exact Left.of_keeps h' h.keeps

theorem Correct.statements_succ (ih : Correct scene program shape fuel) {nodes : List Node}
    (h : Lowers (.many nodes) start code entries) (hcode : program.Holds start code)
    (hnames : Discreet (namesIn nodes)) (hs : Shaped shape start (statementsShapes place nodes))
    (hruns : RunsAt program machine.execution place)
    (hm : Standing program shape start store machine) :
    Realizes scene.setting (Eval.statements scene (fuel + 1) nodes) store machine
      (Follows program shape place start (start + code.length) machine) := by
  cases h with
  | nil =>
    rw [Eval.statements]
    exact .pure ⟨hm, rfl, .refl _ _⟩
  | @cons _ first rest code later _ _ h₁ h₂ =>
    have hn := h₁.length_shapes place
    simp only [Clause.shapes] at hn
    simp only [statementsShapes, Along.append_iff, hn] at hs
    simp only [namesIn, Discreet.append_iff] at hnames
    simp only [Program.Holds, Along.append_iff] at hcode
    rw [Eval.statements]
    refine (ih.statement h₁ hcode.1 hnames.1 hs.1 hruns hm).bind fun flow _ m₁ hf => ?_
    cases flow with
    | next =>
      have hl : Lands program shape (Within start (start + code.length)) machine machine.stack
        (start + code.length) _ m₁ := hf
      refine (ih.statements h₂ hcode.2 hnames.2 hs.2 (hruns.of_keeps hl.keeps) hl.standing).mono ?_
      intro flow _ _ hrest
      rw [Nat.add_assoc, ← List.length_append] at hrest
      refine hl.follows (Within.mono (Nat.le_refl _) ?_) (Nat.le_add_right ..) hrest
      simp only [List.length_append]
      omega
    | returned value => exact .pure hf

theorem Lands.leaveChain {range : Nat → Prop} {pos : Option SourcePos}
    (h : Lands program shape range machine machine.stack start' store middle)
    (hc : scene.Staged program shape) (hr : ∀ i, range i → Within start stop i)
    (hf : Follows program shape place start' stop' middle flow after last)
    (hi : program.code[stop']? = some ⟨.jump exit, pos⟩) (hstart : start ≤ start')
    (hstop : stop' ≤ stop) : ∃ final, Reaches scene.setting last final ∧
      Branches program shape place start stop exit machine (some flow) after final := by
  cases flow with
  | next =>
    have hl : Lands program shape (Within start' stop') middle middle.stack stop' after last := hf
    obtain ⟨final, hreach, hj⟩ := hl.standing.jump hi (hc.compiled.jump_le hi)
    rw [hl.stack, h.stack] at hj
    exact ⟨final, hreach, (h.mono hr).trans
      ((hl.mono (Within.mono hstart hstop)).trans (hj.mono Nowhere.elim))⟩
  | returned value => exact ⟨last, .refl, Left.of_keeps hf h.keeps⟩

theorem Lands.branches (h : Lands program shape Nowhere machine machine.stack start' store middle)
    (hb : Branches program shape place start' stop' exit middle (some flow) after last)
    (hstart : start ≤ start') (hstop : stop' ≤ stop) :
    Branches program shape place start stop exit machine (some flow) after last := by
  cases flow with
  | next =>
    have hl : Lands program shape (Within start' stop') middle middle.stack exit after last := hb
    rw [h.stack] at hl
    exact (h.mono Nowhere.elim).trans (hl.mono (Within.mono hstart hstop))
  | returned value => exact Left.of_keeps hb h.keeps

theorem Correct.chain_succ (hc : scene.Staged program shape) (ih : Correct scene program shape fuel)
    {node : Node} {exit? : Option Nat} (h : Lowers (.one exit? node) start code entries)
    (hcode : program.Holds start code) (hnames : Discreet node.names)
    (hs : Shaped shape start (node.statementShapes place))
    (hruns : RunsAt program machine.execution place)
    (hm : Standing program shape start store machine) :
    Realizes scene.setting (Eval.chain scene (fuel + 1) node) store machine
      (Branches program shape place start (start + code.length)
        (exit?.getD (start + code.length)) machine) := by
  cases h with
  | @branch _ orElse otherwise pos _ condition body test taken next last exit failed _ _ _ he hf hv h₁
      h₂ h₃ =>
    have hlen := (Lowers.branch he hf hv h₁ h₂ h₃).length_eq
    have hn := hv.length_depths 0
    have hn₁ := h₁.length_shapes place
    have hn₂ := h₂.length_shapes place
    simp only [Phrase.depths, Clause.shapes] at hn hn₁ hn₂
    simp [statementShapes, hn, hn₁, hn₂, ← hf] at hs
    obtain ⟨-, -, hs₁, -, hs₂, hs₃⟩ := hs
    simp [Program.Holds, ← hf] at hcode
    obtain ⟨htest, hjump, htaken, hleave, hnext, hlast⟩ := hcode
    simp only [names, Discreet.append_iff] at hnames
    obtain ⟨⟨⟨hnames₀, hnames₁⟩, hnames₂⟩, hnames₃⟩ := hnames
    have hexit : exit?.getD (failed + next.length + last.length) = exit := by
      rw [he, ← length_branch hf, hlen, Clause.size]
    rw [length_branch hf, hexit]
    unfold Eval.chain
    refine (ih.value hv htest hnames₀ hm).bind fun truth _ m₁ hl₁ => ?_
    refine .after (hl₁.standing.jumpUnless hjump (hc.compiled.jumpUnless_le hjump) hl₁.stack)
      fun m₂ hl₂ => ?_
    have hl := hl₁.trans hl₂
    have hruns := hruns.of_keeps hl.keeps
    by_cases htruth : truth.truthy = true
    · rw [if_pos htruth] at hl ⊢
      exact ((ih.statements h₁ htaken hnames₁ hs₁ hruns hl.standing).andThen fun _ _ _ hb =>
        hl.leaveChain hc Nowhere.elim hb hleave (by omega) (by omega)).bind fun _ _ _ hb => .pure hb
    · rw [if_neg htruth] at hl ⊢
      refine (ih.orElseChain h₂ hnext hnames₂ hs₂ hruns hl.standing).bind fun flow? _ m₃ hb => ?_
      cases flow? with
      | some flow => exact .pure (hl.branches hb (by omega) (by omega))
      | none =>
        have hl₃ : Lands program shape (Within failed (failed + next.length)) m₂ m₂.stack
          (failed + next.length) _ m₃ := hb
        rw [hl.stack] at hl₃
        have hlands := ((hl.mono Nowhere.elim).trans hl₃)
        have hwithin : ∀ i, Within failed (failed + next.length) i →
            Within start (failed + next.length + last.length) i :=
          Within.mono (by omega) (by omega)
        cases h₃ with
        | noOtherwise => exact .pure (hlands.mono hwithin)
        | someOtherwise h₃ =>
          have hn₃ := h₃.length_shapes place
          simp only [Clause.shapes] at hn₃
          simp only [otherwiseShapes, Along.append_iff] at hs₃
          simp only [otherwiseNames] at hnames₃
          simp only [Along.append_iff] at hlast
          refine ((ih.statements h₃ hlast.1 hnames₃ hs₃.1 (hruns.of_keeps hl₃.keeps)
            hl₃.standing).andThen fun _ _ _ hb => hlands.leaveChain hc hwithin hb hlast.2.1
              (by omega) ?_).bind fun _ _ _ hb => .pure hb
          simp only [List.length_append]
          omega
  | assign | call | methodCall | stop | nothing | wait | ret | retValue | countLoop | eachLoop
  | whileLoop | procedure =>
    rw [Eval.chain]
    exact .undefined
    all_goals rintro _ _ _ _ _ ⟨⟩

theorem Correct.orElseChain_succ (ih : Correct scene program shape fuel) {next : Option Node}
    (h : Lowers (.orElse exit next) start code entries) (hcode : program.Holds start code)
    (hnames : Discreet (namesOf next)) (hs : Shaped shape start (orElseShapes place next))
    (hruns : RunsAt program machine.execution place)
    (hm : Standing program shape start store machine) :
    Realizes scene.setting (Eval.orElseChain scene (fuel + 1) next) store machine
      (Branches program shape place start (start + code.length) exit machine) := by
  cases h with
  | noElse =>
    rw [Eval.orElseChain]
    exact .pure ⟨hm, rfl, .refl _ _⟩
  | someElse h =>
    simp only [orElseShapes] at hs
    simp only [namesOf] at hnames
    rw [Eval.orElseChain]
    exact ih.chain h hcode hnames hs hruns hm

end Statements

end DurableScript
