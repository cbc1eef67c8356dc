import DurableScript.Proofs.Lowering

namespace DurableScript

/-- `P` holds of every item of a list whose first item stands at `start`. -/
def Along {α : Type} (P : Nat → α → Prop) (start : Nat) : List α → Prop
  | [] => True
  | a :: rest => P start a ∧ Along P (start + 1) rest

namespace Along

variable {α : Type} {P Q : Nat → α → Prop} {start : Nat}

@[simp] theorem nil : Along P start [] := trivial

@[simp] theorem cons_iff {a : α} {rest : List α} :
    Along P start (a :: rest) ↔ P start a ∧ Along P (start + 1) rest := Iff.rfl

@[simp] theorem append_iff {as bs : List α} :
    Along P start (as ++ bs) ↔ Along P start as ∧ Along P (start + as.length) bs := by
  induction as generalizing start with
  | nil => simp
  | cons a as ih =>
    have hn : start + 1 + as.length = start + (as.length + 1) := by omega
    simp [ih, hn, and_assoc]

theorem append {as bs : List α} {mid : Nat} (h : Along P start as) (hmid : start + as.length = mid)
    (h' : Along P mid bs) : Along P start (as ++ bs) := append_iff.2 ⟨h, hmid ▸ h'⟩

theorem last {as bs : List α} (h : Along P start (as ++ bs)) {mid : Nat}
    (hmid : start + as.length = mid) : Along P mid bs := hmid ▸ (append_iff.1 h).2

theorem middle {before inner after : List α} (h : Along P start (before ++ inner ++ after)) {mid : Nat}
    (hmid : start + before.length = mid) : Along P mid inner :=
  (append_iff.1 h).1.last hmid

theorem followed {before inner after : List α} {a : α}
    (h : Along P start (before ++ inner ++ a :: after)) {mid : Nat}
    (hmid : start + before.length = mid) : Along P mid inner ∧ P (mid + inner.length) a := by
  refine ⟨h.middle hmid, ?_⟩
  rw [append_iff, List.length_append, ← Nat.add_assoc, hmid] at h
  exact h.2.1

theorem get {list : List α} (h : Along P start list) {i : Nat} {a : α} (ha : list[i]? = some a) :
    P (start + i) a := by
  induction list generalizing start i with
  | nil => simp at ha
  | cons b rest ih =>
    cases i with
    | zero => cases ha; exact h.1
    | succ i =>
      have hn : start + (i + 1) = start + 1 + i := by omega
      rw [hn]
      exact ih h.2 ha

theorem of_get {list : List α} (h : ∀ i a, list[i]? = some a → P (start + i) a) :
    Along P start list := by
  induction list generalizing start with
  | nil => exact trivial
  | cons b rest ih =>
    refine ⟨h 0 b rfl, ih fun i a ha => ?_⟩
    have hn : start + 1 + i = start + (i + 1) := by omega
    rw [hn]
    exact h (i + 1) a ha

theorem mono {list : List α} (h : Along P start list) (hPQ : ∀ i a, P i a → Q i a) :
    Along Q start list := of_get fun _ _ ha => hPQ _ _ (h.get ha)

end Along

def Program.Holds (program : Program) (start : Nat) (code : List Instruction) : Prop :=
  Along (fun i instruction => program.code[i]? = some instruction) start code

theorem Program.holds_toArray (code : List Instruction) (procedures : Table Nat) :
    Program.Holds ⟨code.toArray, procedures⟩ 0 code :=
  Along.of_get fun i instruction h => by simpa using h

namespace Phrase

@[simp] def size : Phrase → Nat
  | value node => node.valueSize
  | arguments args => Node.argumentsSize args

@[simp] def count : Phrase → Nat
  | value _ => 1
  | arguments args => args.length

end Phrase

namespace Clause

@[simp] def size : Clause → Nat
  | one _ node => node.statementSize
  | many nodes => Node.statementsSize nodes
  | orElse _ next => Node.orElseSize next
  | otherwise _ _ last => Node.otherwiseSize last

@[simp] def exit? : Clause → Option Nat
  | one exit? _ => exit?
  | many _ => none
  | orElse exit _ => some exit
  | otherwise exit _ _ => some exit

end Clause

open Node

theorem Node.valueSize_of_literal {node : Node} {literal : Literal}
    (h : node.literal? = some literal) : node.valueSize = 1 := by
  cases node <;> simp_all [literal?, valueSize]

theorem LowersValue.length_eq {phrase : Phrase} {start : Nat} {code : List Instruction}
    (h : LowersValue phrase start code) : code.length = phrase.size := by
  induction h with
  | literal h => simp [valueSize_of_literal h]
  | ident => simp [valueSize]
  | signal h _ => simp [valueSize, h]
  | binary h _ _ ih₁ ih₂ => simp_all [valueSize]; omega
  | call _ ih | methodCall _ ih | group _ ih | negate _ ih => simp_all [valueSize]
  | @path _ names properties object _ h =>
    have hn : names.length = properties.length + 1 := by
      rw [← List.length_reverse, h, List.length_cons]
    simp [valueSize, hn]
  | nil => simp [argumentsSize]
  | cons _ _ ih₁ ih₂ => simp_all [argumentsSize]

theorem Node.stepSize_eq (step : Option Node) (pos : Option SourcePos) :
    stepSize step = (step.getD (.int 1 pos)).valueSize := by
  cases step <;> simp [stepSize, valueSize]

theorem Lowers.length_eq {clause : Clause} {start : Nat} {code : List Instruction}
    {entries : List (String × Nat)} (h : Lowers clause start code entries) :
    code.length = clause.size := by
  induction h with
  | branch _ _ hc _ _ _ ih₁ ih₂ ih₃ =>
    have := hc.length_eq
    simp_all [statementSize]
    omega
  | assign hv | call hv | methodCall hv | retValue hv => simp [statementSize, hv.length_eq]
  | stop | nothing | wait | ret => simp [statementSize]
  | @countLoop _ _ _ step _ _ pos _ _ _ _ _ _ _ _ _ _ _ _ _ hs hf hl _ ih =>
    have := hs.length_eq
    have := hf.length_eq
    have := hl.length_eq
    simp_all [statementSize, stepSize_eq step pos]
    omega
  | eachLoop _ _ _ _ _ hv _ ih | whileLoop _ hv _ ih =>
    have := hv.length_eq
    simp_all [statementSize]
    omega
  | procedure _ _ ih => simp_all [statementSize]; omega
  | nil => simp [statementsSize]
  | cons _ _ ih₁ ih₂ => simp_all [statementsSize]
  | noElse => simp [orElseSize]
  | someElse _ ih => simpa [orElseSize] using ih
  | noOtherwise => simp [otherwiseSize]
  | someOtherwise _ ih => simpa [otherwiseSize] using ih

theorem length_branch {start failed exit : Nat} {pos : Option SourcePos}
    {test taken next last : List Instruction}
    (hf : failed = start + test.length + 1 + taken.length + 1) :
    start + (test ++ emit pos [.jumpUnless failed] ++ taken ++ emit pos [.jump exit] ++ next ++
      last).length = failed + next.length + last.length := by
  simp
  omega

theorem Lowers.exit_of_branch {P : Nat → Prop} {exit? : Option Nat} {node : Node} {start exit : Nat}
    {code : List Instruction} {entries : List (String × Nat)}
    (h : Lowers (.one exit? node) start code entries)
    (he : exit = exit?.getD (start + node.statementSize)) (hend : P (start + code.length))
    (hexit : ∀ exit, exit? = some exit → P exit) : P exit := by
  cases exit? with
  | none =>
    rw [he, Option.getD_none]
    rwa [h.length_eq] at hend
  | some exit' => exact hexit exit (congrArg some he.symm)

end DurableScript
