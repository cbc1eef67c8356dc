import DurableScript.Proofs.LoopNames

/-!
The code of loops, part by part.
-/

namespace DurableScript

open Node

def Program.Evaluates (program : Program) (low : Nat) (node : Node) : Prop :=
  ∃ code, LowersValue (.value node) low code ∧ program.Holds low code

structure EachLoop where
  start : Nat
  items : Node
  item : String
  body : List Node
  pos : Option SourcePos

namespace EachLoop

variable {loop : EachLoop} {program : Program}

def node (loop : EachLoop) : Node := .eachLoop loop.items loop.item loop.body loop.pos

def given (loop : EachLoop) : Nat := loop.start + loop.items.valueSize

def opening (loop : EachLoop) : Nat := loop.given + 14

def closing (loop : EachLoop) : Nat := loop.opening + statementsSize loop.body

def after (loop : EachLoop) : Nat := loop.closing + 5

def var (loop : EachLoop) (role : String) : String := loopVariable loop.start role

@[simp] theorem var_inj {role other : String} : loop.var role = loop.var other ↔ role = other :=
  ⟨fun h => (loopVariable_inj h).2, congrArg loop.var⟩

def prologue (loop : EachLoop) : List Op :=
  [.setVariable (loop.var "a"), .pushValue (.int 0), .setVariable (loop.var "i"),
    .pushVariable (loop.var "a"), .callBuiltin .arrayCount 1, .setVariable (loop.var "c")]

def test (loop : EachLoop) : List Op :=
  [.pushVariable (loop.var "i"), .pushVariable (loop.var "c"), .operate .lt, .jumpUnless loop.after,
    .pushVariable (loop.var "i"), .pushVariable (loop.var "a"), .callBuiltin .arrayGet 2]

def epilogue (loop : EachLoop) : List Op :=
  [.pushValue (.int 1), .pushVariable (loop.var "i"), .operate .add, .setVariable (loop.var "i"),
    .jump (loop.given + 6)]

theorem span (loop : EachLoop) : loop.start ≤ loop.given ∧ loop.opening = loop.given + 14 ∧
    loop.opening ≤ loop.closing ∧ loop.after = loop.closing + 5 :=
  ⟨Nat.le_add_right .., rfl, Nat.le_add_right .., rfl⟩

theorem length_eq (loop : EachLoop) {exit? : Option Nat} {code : List Instruction}
    {entries : List (String × Nat)} (h : Lowers (.one exit? loop.node) loop.start code entries) :
    loop.start + code.length = loop.after := by
  rw [h.length_eq]
  simp only [Clause.size, node, statementSize, after, closing, opening, given]
  omega

structure Laid (loop : EachLoop) (program : Program) : Prop where
  opened : program.Holds loop.given (emit loop.pos loop.prologue)
  tested : program.Holds (loop.given + 6) (emit loop.pos loop.test)
  assigned : program.code[loop.given + 13]? = some ⟨.setVariable loop.item, loop.pos⟩
  body : ∃ inner entries, Lowers (.many loop.body) loop.opening inner entries ∧
    program.Holds loop.opening inner
  closed : program.Holds loop.closing (emit loop.pos loop.epilogue)

theorem Laid.of_has (h : program.Has loop.start loop.node) : loop.Laid program := by
  obtain ⟨exit?, code, entries, hlowers, hcode⟩ := h
  unfold node at hlowers
  cases hlowers with
  | @eachLoop _ _ _ _ _ source inner _ array index count top after ha hi hc ht hafter hv h =>
    have hsource : source.length = loop.items.valueSize := hv.length_eq
    have hinner : inner.length = statementsSize loop.body := h.length_eq
    have hopening : top + 8 = loop.opening := by rw [opening, given, ht, hsource]
    have htop : top = loop.given + 6 := by rw [given, ht, hsource]
    have hend : after = loop.after := by
      rw [hafter, hopening, hinner]
      rfl
    rw [hopening] at h
    rw [hsource] at ht
    subst ha hi hc
    rw [hend, htop] at hcode
    simp only [Program.Holds, Along.append_iff, List.length_append, length_emit, List.length_cons,
      List.length_nil, hsource, hinner, Nat.zero_add, ← Nat.add_assoc] at hcode
    obtain ⟨⟨⟨-, hopened⟩, hbody⟩, hclosed⟩ := hcode
    have hparts : Along _ loop.given (emit loop.pos loop.prologue ++ emit loop.pos loop.test ++
      emit loop.pos [.setVariable loop.item]) := hopened
    rw [Along.append_iff, Along.append_iff] at hparts
    obtain ⟨⟨hopened, htested⟩, hassigned, -⟩ := hparts
    exact ⟨hopened, htested, hassigned, ⟨inner, _, h, hbody⟩, hclosed⟩

end EachLoop

def counterName (start : Nat) (counter : Option String) : String :=
  counter.getD (loopVariable start "i")

structure CountLoop where
  start : Nat
  first : Node
  last : Node
  step : Option Node
  counter : Option String
  body : List Node
  pos : Option SourcePos

namespace CountLoop

def node (loop : CountLoop) : Node :=
  .countLoop loop.first loop.last loop.step loop.counter loop.body loop.pos

def given (loop : CountLoop) : Nat := loop.start + stepSize loop.step

def begun (loop : CountLoop) : Nat := loop.given + 1 + loop.first.valueSize

def tested (loop : CountLoop) : Nat := loop.begun + 2 + loop.last.valueSize

def opening (loop : CountLoop) : Nat := loop.tested + 2

def closing (loop : CountLoop) : Nat := loop.opening + statementsSize loop.body

def after (loop : CountLoop) : Nat := loop.closing + 5

theorem span (loop : CountLoop) : loop.start ≤ loop.given ∧ loop.given + 1 ≤ loop.begun ∧
    loop.begun + 2 ≤ loop.tested ∧ loop.opening = loop.tested + 2 ∧ loop.opening ≤ loop.closing ∧
    loop.after = loop.closing + 5 :=
  ⟨Nat.le_add_right .., Nat.le_add_right .., Nat.le_add_right .., rfl, Nat.le_add_right .., rfl⟩

theorem length_eq (loop : CountLoop) {exit? : Option Nat} {code : List Instruction}
    {entries : List (String × Nat)} (h : Lowers (.one exit? loop.node) loop.start code entries) :
    loop.start + code.length = loop.after := by
  rw [h.length_eq]
  simp only [Clause.size, node, statementSize, after, closing, opening, tested, begun, given]
  omega

def name (loop : CountLoop) : String := counterName loop.start loop.counter

theorem name_of_none {loop : CountLoop} (h : loop.counter = none) :
    loop.name = loopVariable loop.start "i" := by
  rw [name, h]
  rfl

theorem name_of_some {loop : CountLoop} {name : String} (h : loop.counter = some name) :
    loop.name = name := by
  rw [CountLoop.name, h]
  rfl

def stepName (loop : CountLoop) : String := loopVariable loop.start "s"

structure Laid (loop : CountLoop) (program : Program) : Prop where
  stepped : program.Holds loop.given (emit loop.pos [.setVariable loop.stepName])
  first : program.Evaluates (loop.given + 1) loop.first
  counted : program.Holds loop.begun
    (emit loop.pos [.setVariable loop.name, .pushVariable loop.name])
  last : program.Evaluates (loop.begun + 2) loop.last
  compared : program.Holds loop.tested (emit loop.pos [.operate .le, .jumpUnless loop.after])
  body : ∃ inner entries, Lowers (.many loop.body) loop.opening inner entries ∧
    program.Holds loop.opening inner
  closed : program.Holds loop.closing (emit loop.pos [.pushVariable loop.name,
    .pushVariable loop.stepName, .operate .add, .setVariable loop.name, .jump (loop.begun + 1)])

theorem Laid.of_has {loop : CountLoop} {program : Program} (h : program.Has loop.start loop.node) :
    loop.Laid program := by
  obtain ⟨exit?, code, entries, hlowers, hcode⟩ := h
  unfold node at hlowers
  cases hlowers with
  | @countLoop _ _ _ _ _ _ _ stepped initial limit inner _ stepName counterName top after hs hn ht
      hafter hstep hfirst hlast h =>
    have hstepped : stepped.length = stepSize loop.step := by
      rw [stepSize_eq loop.step loop.pos]
      exact hstep.length_eq
    have hinitial : initial.length = loop.first.valueSize := hfirst.length_eq
    have hlimit : limit.length = loop.last.valueSize := hlast.length_eq
    have hinner : inner.length = statementsSize loop.body := h.length_eq
    have htop : top = loop.begun + 1 := by rw [ht, hstepped, hinitial, begun, given]
    have hopening : top + limit.length + 3 = loop.opening := by
      rw [htop, hlimit, opening, tested]
      omega
    have hend : after = loop.after := by
      rw [hafter, hopening, hinner]
      rfl
    rw [hstepped] at hfirst
    rw [htop] at hlast
    rw [hopening] at h
    subst hs hn
    rw [hend, htop] at hcode
    simp only [Program.Holds, Along.append_iff, List.length_append, length_emit, List.length_cons,
      List.length_nil, hstepped, hinitial, hlimit, hinner, Nat.zero_add, ← Nat.add_assoc] at hcode
    obtain ⟨⟨⟨⟨⟨⟨⟨-, h₁⟩, h₂⟩, h₃⟩, h₄⟩, h₅⟩, h₆⟩, h₇⟩ := hcode
    exact ⟨h₁, ⟨initial, hfirst, h₂⟩, h₃, ⟨limit, hlast, h₄⟩, h₅, ⟨inner, _, h, h₆⟩, h₇⟩

end CountLoop

end DurableScript
