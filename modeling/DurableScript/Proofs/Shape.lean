import DurableScript.Proofs.Layout
import Mathlib.Data.List.Forall2

/-!
The shape of the running frame before each instruction of compiled code: how many operands lie on
its stack, and whether it is the frame of a procedure. Shapes are nowhere stored; they are recovered
from the tree, and each instruction agrees with the shapes around it.
-/

namespace DurableScript

/-- Outside of procedures, at the entry of one, or behind its entry. -/
inductive Place where
  | top
  | entry
  | body
  deriving DecidableEq

structure Shape where
  operands : Nat
  place : Place
  deriving DecidableEq

namespace Shape

def raised (shape : Shape) (count : Nat) : Shape := ⟨shape.operands + count, shape.place⟩

def row (place : Place) (depths : List Nat) : List Shape := depths.map (⟨·, place⟩)

theorem raised_of_eq {shape : Shape} {base : Nat} {place : Place} (h : shape = ⟨base, place⟩)
    (count : Nat) : shape.raised count = ⟨base + count, place⟩ := by rw [h]; rfl

theorem eq_raised {shape other : Shape} {base count : Nat} {place : Place}
    (h : shape = ⟨base, place⟩) (h' : other = ⟨base + count, place⟩) : other = shape.raised count :=
  h'.trans (raised_of_eq h count).symm

@[simp] theorem row_nil (place : Place) : row place [] = [] := rfl

@[simp] theorem row_cons (place : Place) (depth : Nat) (depths : List Nat) :
    row place (depth :: depths) = ⟨depth, place⟩ :: row place depths := rfl

@[simp] theorem row_append (place : Place) (depths others : List Nat) :
    row place (depths ++ others) = row place depths ++ row place others := List.map_append

@[simp] theorem length_row (place : Place) (depths : List Nat) :
    (row place depths).length = depths.length := List.length_map _

end Shape

namespace Node

mutual

def valueDepths (base : Nat) : Node → List Nat
  | call _ args _ => argumentsDepths base args ++ [base + args.length, base]
  | methodCall _ _ args _ => argumentsDepths base args ++ [base + args.length, base]
  | group inner _ => valueDepths base inner
  | binary _ left right _ =>
    if left.isSignal then [base, base + 1]
    else valueDepths base left ++ valueDepths (base + 1) right ++ [base + 2]
  | negate inner _ => valueDepths base inner ++ [base + 1]
  | path names _ => base :: List.replicate (names.length - 1) (base + 1)
  | _ => [base]

def argumentsDepths (base : Nat) : List Node → List Nat
  | [] => []
  | arg :: rest => argumentsDepths base rest ++ valueDepths (base + rest.length) arg

end

def countdown : Nat → List Nat
  | 0 => []
  | n + 1 => (n + 1) :: countdown n

mutual

/-- The operands before each instruction of a statement, and whether the instruction belongs to the
body of a procedure. -/
def statementShapes (place : Place) : Node → List Shape
  | assign _ value _ => Shape.row place (valueDepths 0 value ++ [1])
  | branch condition body orElse otherwise _ =>
    Shape.row place (valueDepths 0 condition ++ [1]) ++ statementsShapes place body ++ [⟨0, place⟩] ++
      orElseShapes place orElse ++ otherwiseShapes place otherwise
  | countLoop first last step _ body pos =>
    Shape.row place (valueDepths 0 (step.getD (.int 1 pos)) ++ [1] ++ valueDepths 0 first ++ [1, 0] ++
      valueDepths 1 last ++ [2, 1]) ++
      statementsShapes place body ++ Shape.row place [0, 1, 2, 1, 0]
  | eachLoop items _ body _ =>
    Shape.row place (valueDepths 0 items ++ [1, 0, 1, 0, 1, 1, 0, 1, 2, 1, 0, 1, 2, 1]) ++
      statementsShapes place body ++ Shape.row place [0, 1, 2, 1, 0]
  | whileLoop condition body _ =>
    Shape.row place (valueDepths 0 condition ++ [1]) ++ statementsShapes place body ++ [⟨0, place⟩]
  | procedure _ params body _ =>
    [⟨0, place⟩, ⟨params.length, .entry⟩] ++ Shape.row .body (countdown params.length) ++
      statementsShapes .body body ++ [⟨0, .body⟩]
  | ret (some value) _ => Shape.row place (valueDepths 0 value ++ [1])
  | call _ args _ => Shape.row place (argumentsDepths 0 args ++ [args.length])
  | methodCall _ _ args _ => Shape.row place (argumentsDepths 0 args ++ [args.length])
  | _ => [⟨0, place⟩]

def statementsShapes (place : Place) : List Node → List Shape
  | [] => []
  | first :: rest => statementShapes place first ++ statementsShapes place rest

def orElseShapes (place : Place) : Option Node → List Shape
  | none => []
  | some next => statementShapes place next

def otherwiseShapes (place : Place) : Option (List Node) → List Shape
  | none => []
  | some body => statementsShapes place body ++ [⟨0, place⟩]

end

end Node

open Node

@[simp] def Phrase.depths (base : Nat) : Phrase → List Nat
  | value node => node.valueDepths base
  | arguments args => argumentsDepths base args

@[simp] def Clause.shapes (place : Place) : Clause → List Shape
  | one _ node => node.statementShapes place
  | many nodes => statementsShapes place nodes
  | orElse _ next => orElseShapes place next
  | otherwise _ _ last => otherwiseShapes place last

theorem Node.valueDepths_of_literal {node : Node} {literal : Literal}
    (h : node.literal? = some literal) (base : Nat) : node.valueDepths base = [base] := by
  cases node <;> simp_all [literal?, valueDepths]

theorem LowersValue.length_depths {phrase : Phrase} {start : Nat} {code : List Instruction}
    (h : LowersValue phrase start code) (base : Nat) :
    (phrase.depths base).length = code.length := by
  induction h generalizing base with
  | literal h => simp [valueDepths_of_literal h]
  | ident => simp [valueDepths]
  | signal h _ => simp [valueDepths, h]
  | binary h _ _ ih₁ ih₂ => simp_all [valueDepths]
  | call _ ih | methodCall _ ih | group _ ih | negate _ ih => simpa [valueDepths] using ih base
  | @path _ names properties object _ h =>
    have hn : names.length = properties.length + 1 := by
      rw [← List.length_reverse, h, List.length_cons]
    simp [valueDepths, hn]
  | nil => simp [argumentsDepths]
  | cons _ _ ih₁ ih₂ => simp_all [argumentsDepths]

@[simp] theorem Node.length_countdown (n : Nat) : (countdown n).length = n := by
  induction n with
  | zero => rfl
  | succ n ih => simp [countdown, ih]

theorem Lowers.length_shapes {clause : Clause} {start : Nat} {code : List Instruction}
    {entries : List (String × Nat)} (h : Lowers clause start code entries) (place : Place) :
    (clause.shapes place).length = code.length := by
  induction h generalizing place with
  | branch _ _ hc _ _ _ ih₁ ih₂ ih₃ =>
    have := hc.length_depths 0
    have := ih₁ place
    have := ih₂ place
    have := ih₃ place
    simp_all [statementShapes]
  | assign hv | call hv | methodCall hv
  | retValue hv => simpa [statementShapes] using hv.length_depths 0
  | stop | nothing | wait | ret => simp [statementShapes]
  | countLoop _ _ _ _ hs hf hl _ ih =>
    have := hs.length_depths 0
    have := hf.length_depths 0
    have := hl.length_depths 1
    have := ih place
    simp_all [statementShapes]
  | eachLoop _ _ _ _ _ hv _ ih | whileLoop _ hv _ ih =>
    have := hv.length_depths 0
    have := ih place
    simp_all [statementShapes]
  | procedure _ _ ih =>
    have := ih .body
    simp_all [statementShapes]
  | nil => simp [statementsShapes]
  | cons _ _ ih₁ ih₂ =>
    have := ih₁ place
    have := ih₂ place
    simp_all [statementsShapes]
  | noElse => simp [orElseShapes]
  | someElse _ ih => simpa [orElseShapes] using ih place
  | noOtherwise => simp [otherwiseShapes]
  | someOtherwise _ ih => simpa [otherwiseShapes] using ih place

def Op.Fits (shape : Nat → Shape) (size index : Nat) : Op → Prop
  | pushValue _ | pushVariable _ | pushResult => shape (index + 1) = (shape index).raised 1
  | operate _ => ∃ base : Shape, shape index = base.raised 2 ∧ shape (index + 1) = base.raised 1
  | setVariable _ => shape index = (shape (index + 1)).raised 1
  | call _ argc restart | callMethod _ _ argc restart =>
    shape index = (shape (index + 1)).raised argc ∧ shape restart = shape (index + 1) ∧
      restart ≤ size
  | jumpUnless target =>
    shape index = (shape (index + 1)).raised 1 ∧ shape target = shape (index + 1) ∧ target ≤ size
  | stop | nop | wait _ _ => shape (index + 1) = shape index
  | jump target => shape target = shape index ∧ target ≤ size
  | callBuiltin _ argc => ∃ base : Shape, shape index = base.raised argc ∧ shape (index + 1) = base.raised 1
  | expectStack count => shape index = ⟨count, .entry⟩ ∧ shape (index + 1) = ⟨count, .body⟩
  | ret hasValue => (shape index).operands = hasValue.toNat
  | pushProperty _ | invert => shape (index + 1) = shape index ∧ 0 < (shape index).operands

abbrev Shaped (shape : Nat → Shape) (start : Nat) (shapes : List Shape) : Prop :=
  Along (fun i expected => shape i = expected) start shapes

abbrev AllFit (shape : Nat → Shape) (size start : Nat) (code : List Instruction) : Prop :=
  Along (fun i instruction => instruction.op.Fits shape size i) start code

section Fitting

variable {shape : Nat → Shape} {size start : Nat} {place : Place} {code : List Instruction}

theorem AllFit.properties {base : Nat} (pos : Option SourcePos) {names : List String}
    (hs : Shaped shape start (Shape.row place (List.replicate names.length (base + 1))))
    (hend : shape (start + names.length) = ⟨base + 1, place⟩) :
    AllFit shape size start (emit pos (names.map .pushProperty)) ∧
      shape start = ⟨base + 1, place⟩ := by
  induction names generalizing start with
  | nil => exact ⟨trivial, hend⟩
  | cons name rest ih =>
    obtain ⟨h₁, h₂⟩ := hs
    have hn : start + (name :: rest).length = start + 1 + rest.length := by simp; omega
    obtain ⟨hfit, hnext⟩ := ih h₂ (hn ▸ hend)
    refine ⟨⟨⟨hnext.trans h₁.symm, ?_⟩, hfit⟩, h₁⟩
    rw [h₁]
    exact Nat.succ_pos base

theorem LowersValue.fits {phrase : Phrase} (h : LowersValue phrase start code) {base : Nat}
    (hs : Shaped shape start (Shape.row place (phrase.depths base)))
    (hend : shape (start + code.length) = ⟨base + phrase.count, place⟩)
    (hsize : start + code.length ≤ size) :
    AllFit shape size start code ∧ shape start = ⟨base, place⟩ := by
  induction h generalizing base with
  | literal h =>
    rw [Phrase.depths, valueDepths_of_literal h] at hs
    exact ⟨⟨Shape.eq_raised hs.1 hend, trivial⟩, hs.1⟩
  | ident =>
    simp only [Phrase.depths, valueDepths] at hs
    exact ⟨⟨Shape.eq_raised hs.1 hend, trivial⟩, hs.1⟩
  | signal h _ =>
    simp only [Phrase.depths, valueDepths, h, reduceIte] at hs
    obtain ⟨h₁, h₂, -⟩ := hs
    exact ⟨⟨Shape.eq_raised h₁ h₂, ⟨⟨base, place⟩, h₂, hend⟩, trivial⟩, h₁⟩
  | @binary start _ _ _ _ first second h h₁ h₂ ih₁ ih₂ =>
    have hn₁ := h₁.length_depths base
    have hn₂ := h₂.length_depths (base + 1)
    simp only [Phrase.depths] at hn₁ hn₂
    simp [valueDepths, h, ← Nat.add_assoc, hn₁, hn₂] at hs hend hsize
    obtain ⟨hs₁, hs₂, htop⟩ := hs
    obtain ⟨hfit₂, hmid⟩ := ih₂ hs₂ htop (by omega)
    obtain ⟨hfit₁, hstart⟩ := ih₁ hs₁ hmid (by omega)
    simp only [Along.append_iff, List.length_append, ← Nat.add_assoc]
    exact ⟨⟨⟨hfit₁, hfit₂⟩, ⟨⟨base, place⟩, htop, hend⟩, trivial⟩, hstart⟩
  | @call start _ args _ pushed h ih | @methodCall start _ _ args _ pushed h ih =>
    have hn := h.length_depths base
    simp only [Phrase.depths] at hn
    simp [valueDepths, ← Nat.add_assoc, hn] at hs hend hsize
    obtain ⟨hs₁, htop, hafter⟩ := hs
    obtain ⟨hfit, hstart⟩ := ih hs₁ htop (by omega)
    simp only [Along.append_iff]
    exact ⟨⟨hfit, ⟨Shape.eq_raised hafter htop, hstart.trans hafter.symm, by omega⟩,
      Shape.eq_raised hafter hend, trivial⟩, hstart⟩
  | group _ ih =>
    simp only [Phrase.depths, valueDepths] at hs
    exact ih hs hend hsize
  | @negate start _ _ code h ih =>
    have hn := h.length_depths base
    simp only [Phrase.depths] at hn
    simp [valueDepths, ← Nat.add_assoc, hn] at hs hend hsize
    obtain ⟨hs₁, htop⟩ := hs
    obtain ⟨hfit, hstart⟩ := ih hs₁ htop (by omega)
    simp only [Along.append_iff]
    refine ⟨⟨hfit, ⟨hend.trans htop.symm, ?_⟩, trivial⟩, hstart⟩
    rw [htop]
    exact Nat.succ_pos base
  | @path start names properties object pos h =>
    have hn : names.length = properties.length + 1 := by
      rw [← List.length_reverse, h, List.length_cons]
    simp only [Phrase.depths, valueDepths, hn, Nat.add_sub_cancel] at hs
    obtain ⟨hstart, hs⟩ := hs
    have hlen : start + (emit pos (.pushVariable object :: properties.map .pushProperty)).length =
        start + 1 + properties.length := by simp; omega
    obtain ⟨hfit, hnext⟩ := AllFit.properties pos hs (hlen ▸ hend)
    exact ⟨⟨Shape.eq_raised hstart hnext, hfit⟩, hstart⟩
  | nil => exact ⟨trivial, hend⟩
  | @cons start arg rest later code h₁ h₂ ih₁ ih₂ =>
    have hn₁ := h₁.length_depths base
    have hn₂ := h₂.length_depths (base + rest.length)
    simp only [Phrase.depths] at hn₁ hn₂
    simp [argumentsDepths, ← Nat.add_assoc, hn₁] at hs hend hsize
    obtain ⟨hfit₂, hmid⟩ := ih₂ hs.2 hend (by omega)
    obtain ⟨hfit₁, hstart⟩ := ih₁ hs.1 hmid (by omega)
    exact ⟨Along.append_iff.2 ⟨hfit₁, hfit₂⟩, hstart⟩

theorem LowersValue.shape_start {phrase : Phrase} (h : LowersValue phrase start code)
    {shapes : List Shape} (hs : Shaped shape start shapes)
    (hfront : Shape.row place (phrase.depths 0 ++ [phrase.count]) <+: shapes) :
    shape start = ⟨0, place⟩ := by
  obtain ⟨rest, rfl⟩ := hfront
  rw [Shape.row_append] at hs
  obtain ⟨hs, htop, -⟩ := Along.append_iff.1 (Along.append_iff.1 hs).1
  rw [Shape.length_row, h.length_depths, ← Nat.zero_add phrase.count] at htop
  exact (h.fits hs htop (Nat.le_refl _)).2

theorem AllFit.params (pos : Option SourcePos) {names : List String}
    (hs : Shaped shape start (Shape.row .body (countdown names.length)))
    (hend : shape (start + names.length) = ⟨0, .body⟩) :
    AllFit shape size start (emit pos (names.map .setVariable)) ∧
      shape start = ⟨names.length, .body⟩ := by
  induction names generalizing start with
  | nil => exact ⟨trivial, hend⟩
  | cons name rest ih =>
    obtain ⟨h₁, h₂⟩ := hs
    have hn : start + (name :: rest).length = start + 1 + rest.length := by simp; omega
    obtain ⟨hfit, hnext⟩ := ih h₂ (hn ▸ hend)
    exact ⟨⟨Shape.eq_raised hnext h₁, hfit⟩, h₁⟩

theorem Lowers.fits {clause : Clause} {entries : List (String × Nat)}
    (h : Lowers clause start code entries) (hs : Shaped shape start (clause.shapes place))
    (hend : shape (start + code.length) = ⟨0, place⟩) (hsize : start + code.length ≤ size)
    (hexit : ∀ exit, clause.exit? = some exit → shape exit = ⟨0, place⟩ ∧ exit ≤ size) :
    AllFit shape size start code ∧ shape start = ⟨0, place⟩ := by
  induction h generalizing place with
  | @branch exit? _ _ pos start _ _ test taken next last exit failed _ _ _ he hf hc h₁ h₂ h₃
      ih₁ ih₂ ih₃ =>
    have hexit' := (Lowers.branch he hf hc h₁ h₂ h₃).exit_of_branch he ⟨hend, hsize⟩ hexit
    have hn := hc.length_depths 0
    have hn₁ := h₁.length_shapes place
    have hn₂ := h₂.length_shapes place
    simp only [Phrase.depths, Clause.shapes] at hn hn₁ hn₂
    simp [statementShapes, hn, hn₁, hn₂, ← hf] at hs
    obtain ⟨hs, htest, hs₁, hleave, hs₂, hs₃⟩ := hs
    rw [length_branch hf] at hend hsize
    have hchain (e : Nat) (h : some exit = some e) : shape e = ⟨0, place⟩ ∧ e ≤ size := by
      cases h
      exact hexit'
    obtain ⟨hfit₃, hlast⟩ := ih₃ hs₃ hend hsize hchain
    obtain ⟨hfit₂, hnext⟩ := ih₂ hs₂ hlast (by omega) hchain
    obtain ⟨hfit₁, htaken⟩ := ih₁ hs₁ hleave (by omega) (by simp)
    obtain ⟨hfit, hstart⟩ := hc.fits hs htest (show _ ≤ size by omega)
    simp only [Along.append_iff, List.length_append, length_emit, ← Nat.add_assoc, List.length_cons,
      List.length_nil, Nat.zero_add, ← hf]
    exact ⟨⟨⟨⟨⟨⟨hfit, ⟨Shape.eq_raised htaken htest, hnext.trans htaken.symm,
      by omega⟩, trivial⟩, hfit₁⟩, ⟨hexit'.1.trans hleave.symm, hexit'.2⟩, trivial⟩, hfit₂⟩, hfit₃⟩,
      hstart⟩
  | assign hv =>
    have hn := hv.length_depths 0
    simp only [Phrase.depths] at hn
    simp [statementShapes, ← Nat.add_assoc, hn] at hs hend hsize
    obtain ⟨hfit, hstart⟩ := hv.fits hs.1 hs.2 (show _ ≤ size by omega)
    exact ⟨Along.append_iff.2 ⟨hfit, Shape.eq_raised hend hs.2, trivial⟩, hstart⟩
  | call hv | methodCall hv =>
    have hn := hv.length_depths 0
    simp only [Phrase.depths] at hn
    simp [statementShapes, ← Nat.add_assoc, hn] at hs hend hsize
    have htop := hs.2.trans (congrArg (Shape.mk · place) (Nat.zero_add _).symm)
    obtain ⟨hfit, hstart⟩ := hv.fits hs.1 htop (show _ ≤ size by omega)
    exact ⟨Along.append_iff.2 ⟨hfit, ⟨Shape.eq_raised hend htop,
      hstart.trans hend.symm, by omega⟩, trivial⟩, hstart⟩
  | stop | nothing | wait =>
    simp only [Clause.shapes, statementShapes] at hs
    exact ⟨⟨hend.trans hs.1.symm, trivial⟩, hs.1⟩
  | ret =>
    simp only [Clause.shapes, statementShapes] at hs
    exact ⟨⟨congrArg Shape.operands hs.1, trivial⟩, hs.1⟩
  | retValue hv =>
    have hn := hv.length_depths 0
    simp only [Phrase.depths] at hn
    simp [statementShapes, ← Nat.add_assoc, hn] at hs hend hsize
    obtain ⟨hfit, hstart⟩ := hv.fits hs.1 hs.2 (show _ ≤ size by omega)
    exact ⟨Along.append_iff.2 ⟨hfit, congrArg Shape.operands hs.2, trivial⟩, hstart⟩
  | @countLoop start _ _ _ _ _ pos stepped initial limit inside _ _ _ top after _ _ ht ha hv₁ hv₂
      hv₃ h ih =>
    have hn₁ := hv₁.length_depths 0
    have hn₂ := hv₂.length_depths 0
    have hn₃ := hv₃.length_depths 1
    have hn := h.length_shapes place
    have hbody : top + 1 + limit.length + 1 + 1 = top + limit.length + 3 := by omega
    have hstop : start + (stepped.length + (initial.length + (limit.length +
        (inside.length + 1 + 1 + 1 + 1 + 1 + 1 + 1) + 1 + 1) + 1)) = after := by omega
    simp only [Phrase.depths, Clause.shapes] at hn₁ hn₂ hn₃ hn
    simp [statementShapes, hn, hn₁, hn₂, hn₃, ← ht, hbody] at hs
    simp [hstop] at hend hsize
    obtain ⟨hs₁, hset, hs₂, hinit, htop, hs₃, hle, hcond, hs, ht₁, ht₂, ht₃, ht₄, ht₅⟩ := hs
    obtain ⟨hfit, hinside⟩ := ih hs ht₁ (by omega) (by simp)
    obtain ⟨hfit₃, hlimit⟩ := hv₃.fits hs₃ hle (show _ ≤ size by omega)
    obtain ⟨hfit₂, hfirst⟩ := hv₂.fits hs₂ hinit (show _ ≤ size by omega)
    obtain ⟨hfit₁, hstart⟩ := hv₁.fits hs₁ hset (show _ ≤ size by omega)
    simp [← ht, hbody]
    rw [← hbody] at hinside
    exact ⟨⟨hfit₁, Shape.eq_raised hfirst hset, hfit₂, Shape.eq_raised (ht ▸ htop) hinit,
      Shape.eq_raised htop hlimit, hfit₃, ⟨⟨0, place⟩, hle, hcond⟩,
      ⟨Shape.eq_raised hinside hcond, hend.trans hinside.symm, hsize⟩, hfit, Shape.eq_raised ht₁ ht₂,
      Shape.eq_raised ht₂ ht₃, ⟨⟨0, place⟩, ht₃, ht₄⟩, Shape.eq_raised ht₅ ht₄,
      htop.trans ht₅.symm, by omega⟩, hstart⟩
  | @eachLoop start _ _ _ pos source inside _ _ _ _ top after _ _ _ ht ha hv h ih =>
    have hn₁ := hv.length_depths 0
    have hn := h.length_shapes place
    have hbody : start + source.length + 1 + 1 + 1 + 1 + 1 + 1 + 1 + 1 + 1 + 1 + 1 + 1 + 1 + 1 =
      top + 8 := by omega
    have hstop : start + (source.length + (inside.length + 19)) = after := by omega
    simp only [Phrase.depths, Clause.shapes] at hn₁ hn
    simp [statementShapes, hn, hn₁, hbody] at hs
    simp [Nat.add_assoc, hstop] at hend hsize
    obtain ⟨hs₁, h₀, h₁, h₂, h₃, h₄, h₅, h₆, h₇, h₈, h₉, hj, hk, hl, hm, hs, ht₁, ht₂, ht₃, ht₄,
      ht₅⟩ := hs
    obtain ⟨hfit, hinside⟩ := ih hs ht₁ (by omega) (by simp)
    obtain ⟨hfit₁, hstart⟩ := hv.fits hs₁ h₀ (show _ ≤ size by omega)
    have htop : shape top = ⟨0, place⟩ := ht ▸ h₆
    simp [hbody]
    rw [← hbody] at hinside
    exact ⟨⟨hfit₁, Shape.eq_raised h₁ h₀, Shape.eq_raised h₁ h₂, Shape.eq_raised h₃ h₂,
      Shape.eq_raised h₃ h₄, ⟨⟨0, place⟩, h₄, h₅⟩, Shape.eq_raised h₆ h₅, Shape.eq_raised h₆ h₇,
      Shape.eq_raised h₇ h₈, ⟨⟨0, place⟩, h₈, h₉⟩, ⟨Shape.eq_raised hj h₉, hend.trans hj.symm, hsize⟩,
      Shape.eq_raised hj hk, Shape.eq_raised hk hl, ⟨⟨0, place⟩, hl, hm⟩, Shape.eq_raised hinside hm, hfit,
      Shape.eq_raised ht₁ ht₂, Shape.eq_raised ht₂ ht₃, ⟨⟨0, place⟩, ht₃, ht₄⟩, Shape.eq_raised ht₅ ht₄,
      htop.trans ht₅.symm, by omega⟩, hstart⟩
  | @whileLoop start _ _ pos test inside _ after ha hv h ih =>
    have hn₁ := hv.length_depths 0
    have hn := h.length_shapes place
    simp only [Phrase.depths, Clause.shapes] at hn₁ hn
    simp [statementShapes, hn, hn₁] at hs
    obtain ⟨hs₁, htest, hs₂, hlast⟩ := hs
    have hstop : start + (test ++ emit pos [.jumpUnless after] ++ inside ++
        emit pos [.jump start]).length = after := by simp; omega
    rw [hstop] at hend hsize
    obtain ⟨hfit, hbody⟩ := ih hs₂ hlast (by omega) (by simp)
    obtain ⟨hfit₁, hstart⟩ := hv.fits hs₁ htest (show _ ≤ size by omega)
    simp only [Along.append_iff, List.length_append, length_emit, ← Nat.add_assoc]
    exact ⟨⟨⟨⟨hfit₁, ⟨Shape.eq_raised hbody htest, hend.trans hbody.symm, hsize⟩,
      trivial⟩, hfit⟩, ⟨hstart.trans hlast.symm, by omega⟩, trivial⟩, hstart⟩
  | @procedure start _ params _ pos inside _ after ha h ih =>
    have hn := h.length_shapes .body
    have hbody : start + 1 + 1 + params.length = start + params.length + 2 := by omega
    have hstop : start + (params.length + (inside.length + 1) + 1 + 1) = after := by omega
    simp only [Clause.shapes] at hn
    simp [statementShapes, hn, hbody] at hs
    simp [hstop] at hend hsize
    obtain ⟨hstart, hentry, hs₁, hs₂, hlast⟩ := hs
    obtain ⟨hfit, hinside⟩ := ih hs₂ hlast (by omega) (by simp)
    rw [← hbody] at hinside
    have hparams : AllFit shape size (start + 1 + 1) (emit pos (params.reverse.map .setVariable)) ∧
        shape (start + 1 + 1) = ⟨params.reverse.length, .body⟩ :=
      AllFit.params pos (by simpa using hs₁) (by simpa using hinside)
    rw [List.length_reverse] at hparams
    simp only [emit_cons, List.cons_append, Along.cons_iff, Along.append_iff, List.length_append,
      length_emit, List.length_map, List.length_reverse, ← Nat.add_assoc, hbody]
    exact ⟨⟨⟨hend.trans hstart.symm, hsize⟩, ⟨hentry, hparams.2⟩,
      ⟨hparams.1, hfit⟩, congrArg Shape.operands hlast, trivial⟩, hstart⟩
  | nil | noElse | noOtherwise => exact ⟨trivial, hend⟩
  | cons h₁ _ ih₁ ih₂ =>
    have hn := h₁.length_shapes place
    simp only [Clause.shapes] at hn
    simp [statementsShapes, ← Nat.add_assoc, hn] at hs hend hsize
    obtain ⟨hfit₂, hmid⟩ := ih₂ hs.2 hend (by omega) (by simp)
    obtain ⟨hfit₁, hstart⟩ := ih₁ hs.1 hmid (by omega) (by simp)
    exact ⟨Along.append_iff.2 ⟨hfit₁, hfit₂⟩, hstart⟩
  | someElse _ ih =>
    simp only [Clause.shapes, orElseShapes] at hs
    exact ih hs hend hsize hexit
  | someOtherwise h ih =>
    have hn := h.length_shapes place
    simp only [Clause.shapes] at hn
    simp [otherwiseShapes, ← Nat.add_assoc, hn] at hs hend hsize
    obtain ⟨hfit, hstart⟩ := ih hs.1 hs.2 (by omega) (by simp)
    obtain ⟨h₁, h₂⟩ := hexit _ rfl
    exact ⟨Along.append_iff.2 ⟨hfit, ⟨h₁.trans hs.2.symm, h₂⟩, trivial⟩, hstart⟩

end Fitting

end DurableScript
