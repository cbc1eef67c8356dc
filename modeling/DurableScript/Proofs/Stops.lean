import DurableScript.Proofs.Lowering
import Mathlib.Data.List.Forall2

namespace DurableScript

inductive Passage where
  | one (node : Node)
  | many (nodes : List Node)
  | orElse (next : Option Node)
  | otherwise (last : Option (List Node))

/-- The second passage has `stop` in some places where the first has `nothing`. -/
inductive WithStops : Passage → Passage → Prop where
  | same {passage} : WithStops passage passage
  | stop {pos} : WithStops (.one (.nothing pos)) (.one (.stop pos))
  | root {body body' pos} : WithStops (.many body) (.many body') →
      WithStops (.one (.root body pos)) (.one (.root body' pos))
  | branch {condition body body' orElse orElse' otherwise otherwise' pos} :
      WithStops (.many body) (.many body') → WithStops (.orElse orElse) (.orElse orElse') →
      WithStops (.otherwise otherwise) (.otherwise otherwise') →
      WithStops (.one (.branch condition body orElse otherwise pos))
        (.one (.branch condition body' orElse' otherwise' pos))
  | countLoop {first last step counter body body' pos} : WithStops (.many body) (.many body') →
      WithStops (.one (.countLoop first last step counter body pos))
        (.one (.countLoop first last step counter body' pos))
  | eachLoop {items item body body' pos} : WithStops (.many body) (.many body') →
      WithStops (.one (.eachLoop items item body pos)) (.one (.eachLoop items item body' pos))
  | whileLoop {condition body body' pos} : WithStops (.many body) (.many body') →
      WithStops (.one (.whileLoop condition body pos)) (.one (.whileLoop condition body' pos))
  | procedure {name params body body' pos} : WithStops (.many body) (.many body') →
      WithStops (.one (.procedure name params body pos)) (.one (.procedure name params body' pos))
  | cons {first first' rest rest'} : WithStops (.one first) (.one first') →
      WithStops (.many rest) (.many rest') →
      WithStops (.many (first :: rest)) (.many (first' :: rest'))
  | someElse {next next'} : WithStops (.one next) (.one next') →
      WithStops (.orElse (some next)) (.orElse (some next'))
  | someOtherwise {last last'} : WithStops (.many last) (.many last') →
      WithStops (.otherwise (some last)) (.otherwise (some last'))

inductive Instruction.WithStop : Instruction → Instruction → Prop where
  | same {instruction} : WithStop instruction instruction
  | stop {pos} : WithStop ⟨.nop, pos⟩ ⟨.stop, pos⟩

structure Block.WithStops (block other : Block) : Prop where
  code : List.Forall₂ Instruction.WithStop block.code other.code
  entries : other.entries = block.entries

structure Program.WithStops (program other : Program) : Prop where
  code : List.Forall₂ Instruction.WithStop program.code.toList other.code.toList
  procedures : other.procedures = program.procedures

namespace Block.WithStops

variable {a b c d : Block}

theorem refl (block : Block) : block.WithStops block :=
  ⟨List.forall₂_same.2 fun _ _ => .same, rfl⟩

theorem append (h : a.WithStops b) (h' : c.WithStops d) : (a ++ c).WithStops (b ++ d) :=
  ⟨List.rel_append h.code h'.code, by simp [h.entries, h'.entries]⟩

theorem size_eq (h : a.WithStops b) : b.size = a.size := h.code.length_eq.symm

theorem toProgram (h : a.WithStops b) : a.toProgram.WithStops b.toProgram :=
  ⟨h.code, by simp [Block.toProgram, h.entries]⟩

end Block.WithStops

namespace Program.WithStops

variable {program other : Program}

theorem size_eq (h : program.WithStops other) : other.size = program.size := by
  simpa [Program.size] using h.code.length_eq.symm

theorem entry?_eq (h : program.WithStops other) (name : String) :
    other.entry? name = program.entry? name := by
  unfold Program.entry?
  rw [h.procedures]

theorem instruction_of_some (h : program.WithStops other) {index : Nat} {instruction : Instruction}
    (hi : program.code[index]? = some instruction) :
    ∃ found, other.code[index]? = some found ∧ instruction.WithStop found := by
  rw [← Array.getElem?_toList] at hi ⊢
  obtain ⟨hlt, rfl⟩ := List.getElem?_eq_some_iff.1 hi
  have hlt' : index < other.code.toList.length := h.code.length_eq ▸ hlt
  exact ⟨_, List.getElem?_eq_getElem hlt', h.code.get hlt hlt'⟩

theorem refl (program : Program) : program.WithStops program :=
  ⟨List.forall₂_same.2 fun _ _ => .same, rfl⟩

end Program.WithStops

namespace Passage

open Node

@[simp] def size : Passage → Nat
  | one node => statementSize node
  | many nodes => statementsSize nodes
  | orElse next => orElseSize next
  | otherwise last => otherwiseSize last

@[simp] def code (exit? : Option Nat) (pos : Option SourcePos) (start : Nat) :
    Passage → Except CompileError Block
  | one node => statementCode exit? start node
  | many nodes => statementsCode start nodes
  | orElse next => orElseCode (exit?.getD start) start next
  | otherwise last => otherwiseCode (exit?.getD start) start pos last

end Passage

namespace WithStops

open Node

theorem size_eq {passage other : Passage} (h : WithStops passage other) :
    other.size = passage.size := by
  induction h with
  | same => rfl
  | stop => rfl
  | root => rfl
  | branch _ _ _ ih₁ ih₂ ih₃ =>
    simp only [Passage.size] at ih₁ ih₂ ih₃
    simp [statementSize, ih₁, ih₂, ih₃]
  | countLoop _ ih | eachLoop _ ih | whileLoop _ ih | procedure _ ih =>
    simp only [Passage.size] at ih
    simp [statementSize, ih]
  | cons _ _ ih₁ ih₂ =>
    simp only [Passage.size] at ih₁ ih₂
    simp [statementsSize, ih₁, ih₂]
  | someElse _ ih =>
    simp only [Passage.size] at ih
    simp [orElseSize, ih]
  | someOtherwise _ ih =>
    simp only [Passage.size] at ih
    simp [otherwiseSize, ih]

theorem code_of_ok {passage other : Passage} (h : WithStops passage other)
    (exit? : Option Nat) (pos : Option SourcePos) {start : Nat} {block : Block}
    (hcode : passage.code exit? pos start = .ok block) :
    ∃ block', other.code exit? pos start = .ok block' ∧ block.WithStops block' := by
  induction h generalizing exit? pos start block with
  | same => exact ⟨block, hcode, .refl block⟩
  | stop =>
    cases exit? with
    | some exit => simp [statementCode] at hcode
    | none =>
      cases hcode
      exact ⟨_, rfl, .cons .stop .nil, rfl⟩
  | root =>
    cases exit? <;> simp [statementCode] at hcode
  | @branch condition body body' orElse orElse' otherwise otherwise' place hb ho hl ih₁ ih₂ ih₃ =>
    have hwhole : WithStops (.one (.branch condition body orElse otherwise place))
        (.one (.branch condition body' orElse' otherwise' place)) := .branch hb ho hl
    have hsize := hwhole.size_eq
    simp only [Passage.size] at hsize
    simp only [Passage.code, statementCode, Except.bind_eq_ok] at hcode ⊢
    obtain ⟨test, h₁, taken, h₂, next, h₃, last, h₄, h₅⟩ := hcode
    cases h₅
    rw [hsize]
    generalize exit?.getD _ = exit at h₃ h₄ ⊢
    obtain ⟨taken', h₂', htaken⟩ := ih₁ none none h₂
    obtain ⟨next', h₃', hnext⟩ := ih₂ (some exit) none h₃
    obtain ⟨last', h₄', hlast⟩ := ih₃ (some exit) place h₄
    refine ⟨_, ⟨test, h₁, taken', h₂', next', htaken.size_eq ▸ h₃', last',
      hnext.size_eq ▸ htaken.size_eq ▸ h₄', rfl⟩, ?_⟩
    rw [htaken.size_eq]
    exact ((((Block.WithStops.refl _).append htaken).append (.refl _)).append hnext).append hlast
  | countLoop _ ih =>
    cases exit? with
    | some exit => simp [statementCode] at hcode
    | none =>
      simp only [Passage.code, statementCode, Option.isSome_none, Bool.false_eq_true, reduceIte,
        Except.bind_eq_ok] at hcode ⊢
      obtain ⟨stepped, h₁, initial, h₂, limit, h₃, inner, h₄, h₅⟩ := hcode
      cases h₅
      obtain ⟨inner', h₄', hinner⟩ := ih none none h₄
      refine ⟨_, ⟨stepped, h₁, initial, h₂, limit, h₃, inner', h₄', rfl⟩, ?_⟩
      rw [hinner.size_eq]
      exact ((Block.WithStops.refl _).append hinner).append (.refl _)
  | eachLoop _ ih | whileLoop _ ih =>
    cases exit? with
    | some exit => simp [statementCode] at hcode
    | none =>
      simp only [Passage.code, statementCode, Option.isSome_none, Bool.false_eq_true, reduceIte,
        Except.bind_eq_ok] at hcode ⊢
      obtain ⟨test, h₁, inner, h₂, h₃⟩ := hcode
      cases h₃
      obtain ⟨inner', h₂', hinner⟩ := ih none none h₂
      refine ⟨_, ⟨test, h₁, inner', h₂', rfl⟩, ?_⟩
      rw [hinner.size_eq]
      exact ((Block.WithStops.refl _).append hinner).append (.refl _)
  | procedure _ ih =>
    cases exit? with
    | some exit => simp [statementCode] at hcode
    | none =>
      simp only [Passage.code, statementCode, Option.isSome_none, Bool.false_eq_true, reduceIte,
        Except.bind_eq_ok] at hcode ⊢
      obtain ⟨inner, h₁, h₂⟩ := hcode
      cases h₂
      obtain ⟨inner', h₁', hinner⟩ := ih none none h₁
      refine ⟨_, ⟨inner', h₁', rfl⟩, ?_⟩
      rw [hinner.size_eq]
      exact ((Block.WithStops.refl _).append hinner).append (.refl _)
  | cons _ _ ih₁ ih₂ =>
    simp only [Passage.code, statementsCode, Except.bind_eq_ok] at hcode ⊢
    obtain ⟨head, h₁, later, h₂, h₃⟩ := hcode
    cases h₃
    obtain ⟨head', h₁', hhead⟩ := ih₁ none none h₁
    obtain ⟨later', h₂', hlater⟩ := ih₂ none none h₂
    exact ⟨_, ⟨head', h₁', later', hhead.size_eq ▸ h₂', rfl⟩, hhead.append hlater⟩
  | someElse _ ih => exact ih (some _) none hcode
  | someOtherwise _ ih =>
    simp only [Passage.code, otherwiseCode, Except.bind_eq_ok] at hcode ⊢
    obtain ⟨inner, h₁, h₂⟩ := hcode
    cases h₂
    obtain ⟨inner', h₁', hinner⟩ := ih none none h₁
    exact ⟨_, ⟨inner', h₁', rfl⟩, hinner.append (.refl _)⟩

theorem topLevel {tree tree' : Node} (h : WithStops (.one tree) (.one tree')) :
    WithStops (.many tree.topLevel) (.many tree'.topLevel) := by
  cases h with
  | same => exact .same
  | root h => exact h
  | stop => exact .cons .stop .same
  | branch h ho hl => exact .cons (.branch h ho hl) .same
  | countLoop h => exact .cons (.countLoop h) .same
  | eachLoop h => exact .cons (.eachLoop h) .same
  | whileLoop h => exact .cons (.whileLoop h) .same
  | procedure h => exact .cons (.procedure h) .same

theorem compile_of_ok {tree tree' : Node} {before before' : List Node} {program : Program}
    (h : WithStops (.one tree) (.one tree')) (hbefore : WithStops (.many before) (.many before'))
    (hcompile : tree.compile before = .ok program) :
    ∃ program', tree'.compile before' = .ok program' ∧ program.WithStops program' := by
  simp only [compile, Except.bind_eq_ok] at hcompile ⊢
  obtain ⟨first, h₁, rest, h₂, h₃⟩ := hcompile
  cases h₃
  obtain ⟨first', h₁', hfirst⟩ := hbefore.code_of_ok none none h₁
  obtain ⟨rest', h₂', hrest⟩ := h.topLevel.code_of_ok none none h₂
  exact ⟨_, ⟨first', h₁', rest', hfirst.size_eq ▸ h₂', rfl⟩, (hfirst.append hrest).toProgram⟩

end WithStops

end DurableScript
