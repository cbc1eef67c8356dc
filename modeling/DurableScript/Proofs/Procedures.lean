import DurableScript.Proofs.Shape
import DurableScript.Proofs.Tables

namespace DurableScript

structure Procedure where
  params : List String
  body : List Node
  pos : Option SourcePos

namespace Node

mutual

def procedures : Node → List (String × Procedure)
  | branch _ body orElse otherwise _ =>
    proceduresIn body ++ orElseProcedures orElse ++ otherwiseProcedures otherwise
  | countLoop _ _ _ _ body _ => proceduresIn body
  | eachLoop _ _ body _ => proceduresIn body
  | whileLoop _ body _ => proceduresIn body
  | procedure name params body pos => (name, ⟨params, body, pos⟩) :: proceduresIn body
  | _ => []

def proceduresIn : List Node → List (String × Procedure)
  | [] => []
  | first :: rest => procedures first ++ proceduresIn rest

def orElseProcedures : Option Node → List (String × Procedure)
  | none => []
  | some next => procedures next

def otherwiseProcedures : Option (List Node) → List (String × Procedure)
  | none => []
  | some body => proceduresIn body

end

def procedureTable (nodes : List Node) : Table Procedure := Table.ofPairs (proceduresIn nodes)

mutual

/-- Where, in code that begins at `start`, the statements in a statement begin and their lists
end. -/
def boundaries (start : Nat) : Node → List Nat
  | branch condition body orElse otherwise _ =>
    let failed := start + valueSize condition + 1 + statementsSize body + 1
    start :: boundariesIn (start + valueSize condition + 1) body ++ orElseBoundaries failed orElse ++
      otherwiseBoundaries (failed + orElseSize orElse) otherwise
  | countLoop first last step _ body _ =>
    start :: boundariesIn (start + stepSize step + valueSize first + valueSize last + 5) body
  | eachLoop items _ body _ => start :: boundariesIn (start + valueSize items + 14) body
  | whileLoop condition body _ => start :: boundariesIn (start + valueSize condition + 1) body
  | procedure _ params body _ => start :: boundariesIn (start + params.length + 2) body
  | _ => [start]

def boundariesIn (start : Nat) : List Node → List Nat
  | [] => [start]
  | first :: rest => boundaries start first ++ boundariesIn (start + statementSize first) rest

def orElseBoundaries (start : Nat) : Option Node → List Nat
  | none => []
  | some next => boundaries start next

def otherwiseBoundaries (start : Nat) : Option (List Node) → List Nat
  | none => []
  | some body => boundariesIn start body

end

end Node

open Node

namespace Clause

@[simp] def procedures : Clause → List (String × Procedure)
  | one _ node => node.procedures
  | many nodes => proceduresIn nodes
  | orElse _ next => orElseProcedures next
  | otherwise _ _ last => otherwiseProcedures last

@[simp] def boundaries (start : Nat) : Clause → List Nat
  | one _ node => node.boundaries start
  | many nodes => boundariesIn start nodes
  | orElse _ next => orElseBoundaries start next
  | otherwise _ _ last => otherwiseBoundaries start last

end Clause

def Shape.Resting (shape : Shape) : Prop := shape.operands = 0 ∧ shape.place ≠ .entry

theorem Shape.resting_of_eq {shape : Shape} {place : Place} (h : shape = ⟨0, place⟩)
    (hplace : place ≠ .entry) : shape.Resting := by
  rw [h]
  exact ⟨rfl, hplace⟩

def Procedure.StandsAt (program : Program) (shape : Nat → Shape) (procedure : Procedure)
    (entry : Nat) : Prop :=
  ∃ code entries, Lowers (.many procedure.body) (entry + procedure.params.length + 1) code entries ∧
    program.Holds entry (emit procedure.pos (.expectStack procedure.params.length ::
      procedure.params.reverse.map .setVariable) ++ code ++ emit procedure.pos [.ret false]) ∧
    Shaped shape (entry + procedure.params.length + 1) (statementsShapes .body procedure.body)

/-- A clause begins with no operands, there are none between its statements, and its procedures stand
in the program. -/
structure Clause.Stands (program : Program) (shape : Nat → Shape) (place : Place) (start : Nat)
    (clause : Clause) (entries : List (String × Nat)) : Prop where
  empty : shape start = ⟨0, place⟩
  boundaries : ∀ index ∈ clause.boundaries start, (shape index).Resting
  procedures : List.Forall₂ (fun declared entry => declared.1 = entry.1 ∧
    declared.2.StandsAt program shape entry.2) clause.procedures entries

section Standing

variable {program : Program} {shape : Nat → Shape} {start : Nat} {place : Place}
  {code : List Instruction} {clause : Clause} {entries : List (String × Nat)}

theorem Clause.Stands.single {exit? : Option Nat} {node : Node} (hstart : shape start = ⟨0, place⟩)
    (hplace : place ≠ .entry) (hb : node.boundaries start = [start]) (hp : node.procedures = []) :
    Stands program shape place start (.one exit? node) [] := by
  refine ⟨hstart, ?_, ?_⟩
  · rw [Clause.boundaries, hb]
    simpa using Shape.resting_of_eq hstart hplace
  · rw [Clause.procedures, hp]
    exact .nil

theorem Clause.Stands.around {exit? : Option Nat} {node : Node} {inner : Place} {opening : Nat}
    {body : List Node} (h : Stands program shape inner opening (.many body) entries)
    (hstart : shape start = ⟨0, place⟩) (hplace : place ≠ .entry)
    (hb : node.boundaries start = start :: boundariesIn opening body)
    (hp : node.procedures = proceduresIn body) :
    Stands program shape place start (.one exit? node) entries := by
  refine ⟨hstart, ?_, ?_⟩
  · rw [Clause.boundaries, hb]
    exact List.forall_mem_cons.2 ⟨Shape.resting_of_eq hstart hplace, h.boundaries⟩
  · rw [Clause.procedures, hp]
    exact h.procedures

theorem Lowers.stands (h : Lowers clause start code entries) (hplace : place ≠ .entry)
    (hcode : program.Holds start code) (hs : Shaped shape start (clause.shapes place))
    (hend : shape (start + code.length) = ⟨0, place⟩) :
    clause.Stands program shape place start entries := by
  induction h generalizing place with
  | @branch exit? _ _ pos start _ _ test taken next last exit failed _ _ _ he hf hc h₁ h₂ h₃
      ih₁ ih₂ ih₃ =>
    have hn := hc.length_depths 0
    have hn₁ := h₁.length_shapes place
    have hn₂ := h₂.length_shapes place
    have hv : test.length = valueSize _ := hc.length_eq
    have hm : taken.length = statementsSize _ := h₁.length_eq
    have ho : next.length = orElseSize _ := h₂.length_eq
    simp only [Phrase.depths, Clause.shapes] at hn hn₁ hn₂
    simp [statementShapes, hn, hn₁, hn₂, ← hf] at hs
    simp [Program.Holds, ← hf] at hcode
    rw [length_branch hf] at hend
    obtain ⟨hs, htest, hs₁, hleave, hs₂, hs₃⟩ := hs
    have hlast := ih₃ hplace hcode.2.2.2.2.2 hs₃ hend
    have hnext := ih₂ hplace hcode.2.2.2.2.1 hs₂ hlast.empty
    have htaken := ih₁ hplace hcode.2.2.1 hs₁ hleave
    have hstart : shape start = ⟨0, place⟩ := (hc.fits hs htest (Nat.le_refl _)).2
    refine ⟨hstart, ?_, ?_⟩
    · simp only [Clause.boundaries, boundaries, ← hv, ← hm, ← ho, ← hf, List.cons_append,
        List.forall_mem_cons, List.forall_mem_append]
      exact ⟨Shape.resting_of_eq hstart hplace, ⟨htaken.boundaries, hnext.boundaries⟩, hlast.boundaries⟩
    · rw [Clause.procedures, procedures]
      exact List.rel_append (List.rel_append htaken.procedures hnext.procedures) hlast.procedures
  | assign hv | retValue hv | call hv | methodCall hv =>
    exact .single (hv.shape_start hs (by simp [statementShapes])) hplace rfl rfl
  | stop | nothing | wait | ret =>
    simp only [Clause.shapes, statementShapes] at hs
    exact .single hs.1 hplace rfl rfl
  | @countLoop start first last step _ _ pos stepped initial limit _ _ _ _ top _ _ _ ht _ hv₁ hv₂ hv₃
      h ih =>
    have hn : (statementsShapes place _).length = _ := h.length_shapes place
    have hn₁ : (valueDepths 0 _).length = stepped.length := hv₁.length_depths 0
    have hn₂ : (valueDepths 0 first).length = initial.length := hv₂.length_depths 0
    have hn₃ : (valueDepths 1 last).length = limit.length := hv₃.length_depths 1
    rw [Clause.shapes, statementShapes] at hs
    obtain ⟨hinner, hlast⟩ : Shaped shape (top + limit.length + 3) (statementsShapes place _) ∧
        shape (top + limit.length + 3 + _) = ⟨0, place⟩ :=
      hs.followed (by simp [hn₁, hn₂, hn₃]; omega)
    have hbody := ih hplace (hcode.middle (by simp; omega)) hinner (hn ▸ hlast)
    have hinside : start + stepSize step + first.valueSize + last.valueSize + 5 =
        top + limit.length + 3 := by
      have hm₁ : stepped.length = valueSize _ := hv₁.length_eq
      have hm₂ : initial.length = valueSize _ := hv₂.length_eq
      have hm₃ : limit.length = valueSize _ := hv₃.length_eq
      rw [stepSize_eq step pos]
      omega
    exact hbody.around (hv₁.shape_start hs (by simp)) hplace (by rw [boundaries, hinside]) rfl
  | @eachLoop start items _ _ _ source _ _ _ _ _ top _ _ _ _ ht _ hv h ih =>
    have hn : (statementsShapes place _).length = _ := h.length_shapes place
    have hn₁ : (valueDepths 0 items).length = source.length := hv.length_depths 0
    have hm : source.length = items.valueSize := hv.length_eq
    rw [Clause.shapes, statementShapes] at hs
    obtain ⟨hinner, hlast⟩ : Shaped shape (top + 8) (statementsShapes place _) ∧
        shape (top + 8 + _) = ⟨0, place⟩ := hs.followed (by simp [hn₁]; omega)
    have hbody := ih hplace (hcode.middle (by simp; omega)) hinner (hn ▸ hlast)
    have hinside : start + items.valueSize + 14 = top + 8 := by omega
    exact hbody.around (hv.shape_start hs (by simp)) hplace (by rw [boundaries, hinside]) rfl
  | @whileLoop start condition _ _ test _ _ _ _ hv h ih =>
    have hn : (statementsShapes place _).length = _ := h.length_shapes place
    have hn₁ : (valueDepths 0 condition).length = test.length := hv.length_depths 0
    have hm : test.length = valueSize _ := hv.length_eq
    rw [Clause.shapes, statementShapes] at hs
    obtain ⟨hinner, hlast⟩ : Shaped shape (start + test.length + 1) (statementsShapes place _) ∧
        shape (start + test.length + 1 + _) = ⟨0, place⟩ := hs.followed (by simp [hn₁]; omega)
    have hbody := ih hplace (hcode.middle (by simp; omega)) hinner (hn ▸ hlast)
    exact hbody.around (hv.shape_start hs (by simp)) hplace (by rw [boundaries, hm]) rfl
  | @procedure start _ params _ _ inside nested _ _ h ih =>
    have hn := h.length_shapes .body
    have hbody : start + 1 + 1 + params.length = start + params.length + 2 := by omega
    have hinside : start + 1 + params.length + 1 = start + params.length + 2 := by omega
    have hheld := hcode.2
    simp only [Clause.shapes] at hn
    simp [statementShapes, hn, hbody] at hs
    simp [Program.Holds, hbody] at hcode
    obtain ⟨hstart, -, -, hs, hlast⟩ := hs
    have hinner := ih (show Place.body ≠ .entry by decide) hcode.2.2.2.1 hs hlast
    refine ⟨hstart, ?_, ?_⟩
    · rw [Clause.boundaries, boundaries]
      exact List.forall_mem_cons.2 ⟨Shape.resting_of_eq hstart hplace, hinner.boundaries⟩
    · rw [Clause.procedures, procedures]
      exact .cons ⟨rfl, inside, nested, hinside ▸ h, hheld, hinside ▸ hs⟩ hinner.procedures
  | nil => exact ⟨hend, by simpa [boundariesIn] using Shape.resting_of_eq hend hplace, .nil⟩
  | @cons _ _ _ first _ _ _ h₁ h₂ ih₁ ih₂ =>
    have hn := h₁.length_shapes place
    have hm : first.length = statementSize _ := h₁.length_eq
    simp only [Clause.shapes] at hn
    simp [statementsShapes, hn] at hs
    obtain ⟨hfirst, hrest⟩ := Along.append_iff.1 hcode
    have hafter := ih₂ hplace hrest hs.2 (by simpa [Nat.add_assoc] using hend)
    have hbefore := ih₁ hplace hfirst hs.1 hafter.empty
    refine ⟨hbefore.empty, ?_, ?_⟩
    · rw [Clause.boundaries, boundariesIn, ← hm]
      exact List.forall_mem_append.2 ⟨hbefore.boundaries, hafter.boundaries⟩
    · rw [Clause.procedures, proceduresIn]
      exact List.rel_append hbefore.procedures hafter.procedures
  | noElse | noOtherwise => exact ⟨hend, by rintro _ ⟨⟩, .nil⟩
  | someElse _ ih =>
    have hinner := ih hplace hcode hs hend
    exact ⟨hinner.empty, hinner.boundaries, hinner.procedures⟩
  | someOtherwise h ih =>
    have hn := h.length_shapes place
    simp only [Clause.shapes] at hn
    simp [otherwiseShapes, hn] at hs
    have hinner := ih hplace (Along.append_iff.1 hcode).1 hs.1 hs.2
    exact ⟨hinner.empty, hinner.boundaries, hinner.procedures⟩

end Standing

/-- The instructions of the program agree with the shapes, and its procedure table tells where the
procedures stand. -/
structure Compiled (program : Program) (shape : Nat → Shape) (table : Table Procedure) : Prop where
  fits : AllFit shape program.size 0 program.code.toList
  linked : Table.Related (Procedure.StandsAt program shape) table program.procedures

def shapeAt (shapes : List Shape) (last : Shape) (index : Nat) : Shape := shapes[index]?.getD last

theorem shaped_shapeAt (shapes : List Shape) (last : Shape) :
    Shaped (shapeAt shapes last) 0 shapes :=
  Along.of_get fun i expected h => by simp [shapeAt, h]

theorem shapeAt_length (shapes : List Shape) (last : Shape) :
    shapeAt shapes last shapes.length = last := by simp [shapeAt]

def Node.programShape (nodes : List Node) : Nat → Shape :=
  shapeAt (statementsShapes .top nodes) ⟨0, .top⟩

def Node.expressionShape (before : List Node) (tree : Node) : Nat → Shape :=
  shapeAt (statementsShapes .top before ++ Shape.row .top (tree.valueDepths 0)) ⟨1, .top⟩

theorem Lowers.shape_end {nodes : List Node} {code : List Instruction}
    {entries : List (String × Nat)} (h : Lowers (.many nodes) 0 code entries) :
    programShape nodes code.length = ⟨0, .top⟩ := by
  rw [← h.length_shapes .top]
  exact shapeAt_length _ _

theorem Lowers.program_stands {nodes : List Node} {code : List Instruction}
    {entries : List (String × Nat)} (h : Lowers (.many nodes) 0 code entries) :
    (Clause.many nodes).Stands ⟨code.toArray, Table.ofPairs entries⟩ (programShape nodes) .top 0
      entries :=
  h.stands nofun (Program.holds_toArray code _) (shaped_shapeAt _ _)
    (by rw [Nat.zero_add, h.shape_end])

theorem Lowers.compiled {nodes : List Node} {code : List Instruction}
    {entries : List (String × Nat)} (h : Lowers (.many nodes) 0 code entries) :
    Compiled ⟨code.toArray, Table.ofPairs entries⟩ (programShape nodes) (procedureTable nodes) := by
  have hend : programShape nodes (0 + code.length) = ⟨0, .top⟩ := by
    rw [Nat.zero_add, h.shape_end]
  exact ⟨(h.fits (shaped_shapeAt _ _) hend (Nat.le_of_eq (Nat.zero_add _)) nofun).1,
    .ofPairs h.program_stands.procedures⟩

section Expression

variable {before : List Node} {tree : Node} {code value : List Instruction}
  {entries : List (String × Nat)}

theorem LowersValue.shaped_expression (h : Lowers (.many before) 0 code entries)
    (hv : LowersValue (.value tree) code.length value) :
    Shaped (expressionShape before tree) 0 (statementsShapes .top before) ∧
      Shaped (expressionShape before tree) code.length (Shape.row .top (tree.valueDepths 0)) ∧
      expressionShape before tree (code.length + value.length) = ⟨1, .top⟩ := by
  have hn := h.length_shapes .top
  have hm := hv.length_depths 0
  simp only [Clause.shapes, Phrase.depths] at hn hm
  have hs : Shaped (expressionShape before tree) 0
      (statementsShapes .top before ++ Shape.row .top (tree.valueDepths 0)) := shaped_shapeAt _ _
  have hs := Along.append_iff.1 hs
  rw [hn, Nat.zero_add] at hs
  refine ⟨hs.1, hs.2, ?_⟩
  rw [← hn, ← hm, ← Shape.length_row .top, ← List.length_append]
  exact shapeAt_length _ _

theorem LowersValue.compiled (h : Lowers (.many before) 0 code entries)
    (hv : LowersValue (.value tree) code.length value) :
    Compiled ⟨(code ++ value).toArray, Table.ofPairs entries⟩ (expressionShape before tree)
      (procedureTable before) ∧ expressionShape before tree 0 = ⟨0, .top⟩ := by
  obtain ⟨hs, hs', hend⟩ := hv.shaped_expression h
  have hsize : code.length + value.length ≤ (code ++ value).length := by simp
  obtain ⟨hfit, hmid⟩ := hv.fits hs' hend hsize
  rw [← Nat.zero_add code.length] at hmid
  have hcode := Program.holds_toArray (code ++ value) (Table.ofPairs entries)
  have hstands := h.stands (nofun : Place.top ≠ .entry) (Along.append_iff.1 hcode).1 hs hmid
  refine ⟨⟨Along.append_iff.2 ⟨?_, ?_⟩, .ofPairs hstands.procedures⟩, hstands.empty⟩
  · exact (h.fits hs hmid (by simp [Program.size]) nofun).1
  · rw [Nat.zero_add]
    exact hfit

end Expression

end DurableScript
