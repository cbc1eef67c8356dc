import DurableScript.Proofs.LoopControl
import DurableScript.Proofs.Loops
import DurableScript.Proofs.PuttingOff

/-!
Loops that count. Main statement: `count_loop_runs_its_range`.
-/

namespace DurableScript

open Node

/-! Integers that count. -/

theorem Value.apply_le_int (objects : Objects) (left right : Int64) :
    Value.apply objects .le (.int left) (.int right) =
      .ok (.bool (decide (left.toInt ≤ right.toInt))) := by
  simp only [apply, order_int]
  congr 2
  rcases Int.lt_trichotomy left.toInt right.toInt with h | h | h
  · simp [Int.compare_eq_lt.2 h, Int.le_of_lt h]
  · simp [h]
  · simp [Int.compare_eq_gt.2 h, Int.not_le.2 h]

structure CountRange where
  first : Int64
  last : Int64
  step : Int64

namespace CountRange

def value (range : CountRange) (round : Nat) : Int := range.first.toInt + round * range.step.toInt

def count (range : CountRange) : Nat :=
  ((range.last.toInt - range.first.toInt) / range.step.toInt + 1).toNat

def item (range : CountRange) (round : Nat) : Value := .int (Int64.ofInt (range.value round))

/-- The step is positive, and the first value above the last one is an integer of 64 bits, too. -/
structure Fits (range : CountRange) : Prop where
  positive : 1 ≤ range.step.toInt
  bounded : range.value range.count < 2 ^ 63

variable {range : CountRange}

theorem lt_count_iff (h : 1 ≤ range.step.toInt) (round : Nat) :
    round < range.count ↔ range.value round ≤ range.last.toInt := by
  have hpos : 0 < range.step.toInt := by omega
  rw [count, value, Int.lt_toNat, Int.lt_add_one_iff, Int.le_ediv_iff_mul_le hpos]
  omega

theorem Fits.value_mono (h : range.Fits) {round other : Nat} (hle : round ≤ other) :
    range.value round ≤ range.value other := by
  have hpositive := h.positive
  have hmul : (round : Int) * range.step.toInt ≤ other * range.step.toInt :=
    Int.mul_le_mul_of_nonneg_right (Int.ofNat_le.2 hle) (by omega)
  unfold value
  omega

theorem value_succ (range : CountRange) (round : Nat) :
    range.value (round + 1) = range.value round + range.step.toInt := by
  simp only [value, Int.natCast_add, Int.natCast_one, Int.add_mul, Int.one_mul]
  omega

theorem Fits.within (h : range.Fits) {round : Nat} (hround : round ≤ range.count) :
    -2 ^ 63 ≤ range.value round ∧ range.value round < 2 ^ 63 := by
  have hlow := h.value_mono (Nat.zero_le round)
  have hhigh := h.value_mono hround
  have hfirst := range.first.le_toInt
  have hbounded := h.bounded
  have hzero : range.value 0 = range.first.toInt := by simp [value]
  omega

theorem Fits.toInt_eq (h : range.Fits) {round : Nat} (hround : round ≤ range.count) :
    (Int64.ofInt (range.value round)).toInt = range.value round := by
  obtain ⟨hlow, hhigh⟩ := h.within hround
  exact Int64.toInt_ofInt_of_le hlow hhigh

theorem item_zero (range : CountRange) : range.item 0 = .int range.first := by
  simp [item, value]

end CountRange

namespace CountLoop

inductive Opens (loop : CountLoop) (first : Execution) : Execution → Prop where
  | first : Opens loop first first
  | proceed {execution next : Execution} : Opens loop first execution →
      ¬ first.Leaves loop.begun execution → execution.Proceeds next → Opens loop first next

/-- What the loop asks of everything else. A counter that the script has named is set by the loop
itself only, and whenever the last value has been evaluated it is that of the range. -/
structure Allows (loop : CountLoop) (first : Execution) (range : CountRange)
    (execution next : Execution) : Prop where
  counter : ∀ name, loop.counter = some name → execution.SameAt first.calls.length name next ∨
    execution.depth = first.depth ∧ (execution.pc = loop.begun ∨ execution.pc = loop.closing + 3) ∧
      next.pc = execution.pc + 1
  ends : next.depth = first.depth → next.pc = loop.tested →
    next.frame.stack.head? = some (.int range.last)

/-- Since `first` so many rounds have begun. The counter is not both a variable of the frame and a
global one. The loop has neither ended nor has its frame returned before. -/
inductive Rounds (loop : CountLoop) (first : Execution) (range : CountRange) :
    Nat → Execution → Prop where
  | begin {execution : Execution} : loop.Opens first execution → execution.depth = first.depth →
      execution.pc = loop.begun → execution.frame.stack.head? = some (.int range.first) →
      (∀ name, loop.counter = some name → execution.Clear first.calls.length name) →
      Rounds loop first range 0 execution
  | proceed {count : Nat} {execution next : Execution} : Rounds loop first range count execution →
      ¬ first.Leaves loop.after execution → execution.Proceeds next →
      loop.Allows first range execution next → ¬ first.Enters loop.opening execution next →
      Rounds loop first range count next
  | enter {count : Nat} {execution next : Execution} : Rounds loop first range count execution →
      ¬ first.Leaves loop.after execution → execution.Proceeds next →
      loop.Allows first range execution next → first.Enters loop.opening execution next →
      Rounds loop first range (count + 1) next

/-! Between the rounds. -/

def Between (loop : CountLoop) (index : Nat) : Prop :=
  index = loop.begun + 1 ∨ loop.closing ≤ index ∧ index < loop.after

def Owns (loop : CountLoop) (name : String) : Prop := name = loop.stepName ∨ name = loop.name

def vars (loop : CountLoop) (range : CountRange) (round : Nat) : List (String × Value) :=
  [(loop.stepName, .int range.step), (loop.name, range.item round)]

theorem owns_vars {loop : CountLoop} {range : CountRange} {round : Nat} :
    ∀ binding ∈ loop.vars range round, loop.Owns binding.1 :=
  List.forall_mem_cons.2 ⟨.inl rfl, List.forall_mem_cons.2 ⟨.inr rfl, nofun⟩⟩

section Passes

variable {loop : CountLoop} {program : Program} {range : CountRange} {count : Nat}

theorem stepName_ne_name {loop : CountLoop} (h : Discreet loop.counter.toList) :
    loop.stepName ≠ loop.name := by
  intro hsame
  unfold stepName name counterName at hsame
  cases hcounter : loop.counter with
  | none =>
    rw [hcounter] at hsame
    exact absurd (loopVariable_inj hsame).2 (by decide)
  | some name =>
    rw [hcounter] at hsame h
    have hhidden := isHidden_loopVariable loop.start "s"
    rw [hsame] at hhidden
    cases hhidden.symm.trans (h name (List.mem_singleton_self name))

theorem passes_counted (h : loop.Laid program) (base : List Value) :
    program.Passes loop.Between loop.Owns ⟨loop.begun + 1, base, loop.vars range count⟩
      ⟨loop.begun + 2, range.item count :: base, loop.vars range count⟩ := by
  obtain ⟨-, hi, -⟩ := h.counted
  have hcounter : (loop.name, range.item count) ∈ loop.vars range count := by simp [vars]
  exact .cons hi (.inl rfl) (.read hcounter rfl) owns_vars .refl

theorem passes_closing (h : loop.Laid program) (hne : loop.stepName ≠ loop.name)
    (hfits : range.Fits) (base : List Value) (hcount : count < range.count) :
    program.Passes loop.Between loop.Owns ⟨loop.closing, base, loop.vars range count⟩
      ⟨loop.begun + 2, range.item (count + 1) :: base, loop.vars range (count + 1)⟩ := by
  obtain ⟨h₀, h₁, h₂, h₃, h₄, -⟩ := h.closed
  have hstep {round : Nat} : (loop.stepName, .int range.step) ∈ loop.vars range round := by simp [vars]
  have hcounter {round : Nat} : (loop.name, range.item round) ∈ loop.vars range round := by
    simp [vars]
  have hbetween (k : Nat) (hk : k < 5) : loop.Between (loop.closing + k) :=
    .inr ⟨by omega, by rw [after]; omega⟩
  have hsum (objects : Objects) : Value.apply objects .add (range.item count) (.int range.step) =
      .ok (range.item (count + 1)) := by
    obtain ⟨hlow, hhigh⟩ := hfits.within (Nat.succ_le_of_lt hcount)
    rw [range.value_succ, ← hfits.toInt_eq (Nat.le_of_lt hcount)] at hlow hhigh
    rw [CountRange.item, Value.apply_add_int objects hlow hhigh, hfits.toInt_eq (Nat.le_of_lt hcount),
      ← range.value_succ]
    rfl
  refine .cons h₀ (hbetween 0 (by omega)) (.read hcounter rfl) owns_vars ?_
  refine .cons h₁ (hbetween 1 (by omega)) (.read hstep rfl) owns_vars ?_
  refine .cons h₂ (hbetween 2 (by omega)) (.operate hsum) owns_vars ?_
  refine .cons h₃ (hbetween 3 (by omega)) (.set ?_) owns_vars
    (.cons h₄ (hbetween 4 (by omega)) .jump owns_vars (passes_counted h base))
  simp [vars, hne]

theorem transit_given (loop : CountLoop) (range : CountRange) (base : List Value) :
    Transit (.setVariable loop.stepName) ⟨loop.given, .int range.step :: base, []⟩
      ⟨loop.given + 1, base, [(loop.stepName, .int range.step)]⟩ :=
  .set (by simp)

theorem transit_begun (hne : loop.stepName ≠ loop.name) (range : CountRange) (base : List Value) :
    Transit (.setVariable loop.name)
      ⟨loop.begun, .int range.first :: base, [(loop.stepName, .int range.step)]⟩
      ⟨loop.begun + 1, base, loop.vars range 0⟩ := by
  refine .set ?_
  simp [vars, range.item_zero, hne]

theorem transit_tested (loop : CountLoop) (hfits : range.Fits) (base : List Value)
    (hcount : count ≤ range.count) :
    Transit (.operate .le)
      ⟨loop.tested, .int range.last :: range.item count :: base, loop.vars range count⟩
      ⟨loop.tested + 1, .bool (decide (count < range.count)) :: base, loop.vars range count⟩ := by
  refine .operate fun objects => ?_
  rw [CountRange.item, Value.apply_le_int, hfits.toInt_eq hcount,
    decide_eq_decide.2 (CountRange.lt_count_iff hfits.positive count)]

theorem transit_compared (loop : CountLoop) (range : CountRange) (base : List Value) (count : Nat) :
    Transit (.jumpUnless loop.after)
      ⟨loop.tested + 1, .bool (decide (count < range.count)) :: base, loop.vars range count⟩
      ⟨if count < range.count then loop.opening else loop.after, base, loop.vars range count⟩ := by
  split
  · next hlt => exact .pass (decide_eq_true hlt)
  · next hnot => exact .branch (decide_eq_false hnot)

end Passes

/-! Round by round. -/

structure Staged (loop : CountLoop) (program : Program) (shape : Nat → Shape)
    (table : Table Procedure) (lower : List Level) : Prop where
  compiled : Compiled program shape table
  home : Along (SetAtHome shape 0) 0 program.code.toList
  laid : loop.Laid program
  names : Discreet loop.node.names
  seat : (shape loop.start).place = .top ↔ lower.length = 0

inductive Started (loop : CountLoop) (shape : Nat → Shape) (lower : List Level) (range : CountRange) :
    Execution → Prop where
  | given {base : List Value} {execution : Execution} :
      execution.At lower ⟨loop.given, .int range.step :: base, []⟩ →
      Started loop shape lower range execution
  | first {base : List Value} {execution : Execution} :
      execution.Inside lower (loop.given + 1) loop.begun base →
      base.length = (shape (loop.given + 1)).operands →
      execution.Carries lower.length [(loop.stepName, .int range.step)] →
      ¬ (execution.depth = lower.length + 1 ∧ execution.pc = loop.begun) →
      Started loop shape lower range execution
  | begun {value : Value} {base : List Value} {execution : Execution} : execution.At lower
        ⟨loop.begun, value :: base, [(loop.stepName, .int range.step)]⟩ →
      Started loop shape lower range execution

/-- Where the frame stands when so many rounds have begun: on its way, at the evaluation of the last
value, or in the body. -/
inductive Stage (loop : CountLoop) (program : Program) (shape : Nat → Shape) (lower : List Level)
    (range : CountRange) : Nat → Execution → Prop where
  | begun {base : List Value} {execution : Execution} : execution.At lower
        ⟨loop.begun, .int range.first :: base, [(loop.stepName, .int range.step)]⟩ →
      Stage loop program shape lower range 0 execution
  | between {count : Nat} {spot : Spot} {base : List Value} {execution : Execution} :
      execution.At lower spot → (∀ binding ∈ spot.vars, loop.Owns binding.1) →
      program.Passes loop.Between loop.Owns spot
        ⟨loop.begun + 2, range.item count :: base, loop.vars range count⟩ →
      count ≤ range.count → Stage loop program shape lower range count execution
  | last {count : Nat} {base : List Value} {execution : Execution} :
      execution.Inside lower (loop.begun + 2) loop.tested (range.item count :: base) →
      (range.item count :: base).length = (shape (loop.begun + 2)).operands →
      execution.Carries lower.length (loop.vars range count) → count ≤ range.count →
      ¬ (execution.depth = lower.length + 1 ∧ execution.pc = loop.tested) →
      Stage loop program shape lower range count execution
  | tested {count : Nat} {base : List Value} {execution : Execution} : execution.At lower
        ⟨loop.tested, .int range.last :: range.item count :: base, loop.vars range count⟩ →
      count ≤ range.count → Stage loop program shape lower range count execution
  | compared {count : Nat} {base : List Value} {execution : Execution} : execution.At lower
        ⟨loop.tested + 1, .bool (decide (count < range.count)) :: base, loop.vars range count⟩ →
      count ≤ range.count → Stage loop program shape lower range count execution
  | ended {base : List Value} {execution : Execution} :
      execution.At lower ⟨loop.after, base, loop.vars range range.count⟩ →
      Stage loop program shape lower range range.count execution
  | round {count : Nat} {execution : Execution} :
      execution.Inside lower loop.opening loop.closing [] →
      execution.Carries lower.length (loop.vars range count) → count < range.count →
      ¬ (execution.depth = lower.length + 1 ∧ execution.pc = loop.closing) →
      Stage loop program shape lower range (count + 1) execution

section Stages

variable {loop : CountLoop} {program : Program} {shape : Nat → Shape} {table : Table Procedure}
  {lower : List Level} {range : CountRange} {count : Nat} {first execution next : Execution}

section

variable (h : loop.Staged program shape table lower)
include h

theorem Staged.discreet_body : Discreet (namesIn loop.body) := by
  have hnames := h.names
  simp only [node, Node.names, Discreet.append_iff] at hnames
  exact hnames.2

theorem Staged.given_lt_begun : loop.given + 1 < loop.begun :=
  Nat.lt_add_of_pos_right (h.laid.first.size_pos h.compiled)

theorem Staged.begun_lt_tested : loop.begun + 2 < loop.tested :=
  Nat.lt_add_of_pos_right (h.laid.last.size_pos h.compiled)

theorem Staged.stepName_ne : loop.stepName ≠ loop.name := by
  have hnames := h.names
  simp only [node, Node.names, Discreet.append_iff] at hnames
  exact stepName_ne_name hnames.1.2

end

theorem Allows.sameAt (h : loop.Allows first range execution next)
    (hhidden : loop.counter = none → execution.SameAt first.calls.length loop.name next)
    (hother : execution.depth = first.depth →
      execution.pc = loop.begun ∨ execution.pc = loop.closing + 3 → next.pc ≠ execution.pc + 1) :
    execution.SameAt first.calls.length loop.name next := by
  cases hcounter : loop.counter with
  | none => exact hhidden hcounter
  | some name =>
    rw [name_of_some hcounter]
    obtain hsame | ⟨hdepth, hpc, hgoes⟩ := h.counter name hcounter
    · exact hsame
    · exact absurd hgoes (hother hdepth hpc)

structure Turns (loop : CountLoop) (program : Program) (shape : Nat → Shape)
    (table : Table Procedure) (lower : List Level) (first : Execution) (range : CountRange)
    (execution next : Execution) : Prop extends loop.Staged program shape table lower where
  fits : range.Fits
  depth : first.depth = lower.length + 1
  orderly : execution.Orderly program shape table
  orderly' : next.Orderly program shape table
  clear : execution.Clear lower.length loop.name
  turn : execution.Turn next
  allows : loop.Allows first range execution next

section

variable (h : loop.Turns program shape table lower first range execution next)
include h

theorem Turns.runs : execution.program = program := h.orderly.resting.runs

theorem Turns.level : first.calls.length = lower.length := Nat.succ.inj h.depth

theorem Turns.carries {low high : Nat} {base base' : List Value} {vars : List (String × Value)}
    (hin : execution.Inside lower low high base) (hin' : next.Inside lower low high base')
    (hvars : ∀ binding ∈ vars, loop.Owns binding.1) (hcarries : execution.Carries lower.length vars)
    (hplain : execution.depth = lower.length + 1 → execution.pc ≠ loop.begun ∧
      execution.pc ≠ loop.closing + 3 ∧
      ∀ role pos, execution.instruction? ≠ some ⟨.setVariable (loopVariable loop.start role), pos⟩) :
    next.Carries lower.length vars := by
  have hhidden (role : String) : execution.SameAt lower.length (loopVariable loop.start role) next :=
    h.turn.sameAt h.home h.orderly h.seat hin.lt_depth hin'.lt_depth
      fun hdepth => (hplain hdepth).2.2 role
  refine hcarries.of_sameAt fun binding hmem => ?_
  obtain hname | hname := hvars binding hmem
  · rw [hname]
    exact hhidden "s"
  · rw [hname, ← h.level]
    refine h.allows.sameAt (fun hnone => ?_) fun hdepth hpc => ?_
    · rw [name_of_none hnone, h.level]
      exact hhidden "i"
    · obtain ⟨hbegun, hclosing, -⟩ := hplain (hdepth.trans h.depth)
      exact (hpc.elim hbegun hclosing).elim

end

theorem Started.first_turn {base : List Value} (hstaged : loop.Staged program shape table lower)
    (horderly : execution.Orderly program shape table)
    (horderly' : next.Orderly program shape table) (hturn : execution.Turn next)
    (hin : execution.Inside lower (loop.given + 1) loop.begun base)
    (hbase : base.length = (shape (loop.given + 1)).operands)
    (hcarries : execution.Carries lower.length [(loop.stepName, .int range.step)])
    (hend : ¬ (execution.depth = lower.length + 1 ∧ execution.pc = loop.begun)) :
    Started loop shape lower range next := by
  have hvalue := hstaged.laid.first
  have hin' : next.Inside lower (loop.given + 1) loop.begun base :=
    hturn.inside_value hvalue hstaged.compiled horderly.resting hin hbase hend
  have hcarries' : next.Carries lower.length [(loop.stepName, .int range.step)] := by
    refine hcarries.of_sameAt (List.forall_mem_singleton.2 ?_)
    refine hturn.sameAt hstaged.home horderly hstaged.seat hin.lt_depth hin'.lt_depth
      fun hdepth pos hi => ?_
    obtain ⟨-, -, hlow, hhigh⟩ := hin.levels_eq hdepth
    have hne : execution.pc ≠ loop.begun := fun hpc => hend ⟨hdepth, hpc⟩
    rw [Execution.instruction?, horderly.resting.runs] at hi
    cases (hvalue.instruction hstaged.compiled hlow (Nat.lt_of_le_of_ne hhigh hne) hi).1
  by_cases hthere : next.depth = lower.length + 1 ∧ next.pc = loop.begun
  · obtain ⟨hi, -⟩ := hstaged.laid.counted
    have hi' := (Execution.instruction?_eq horderly'.resting.runs hthere.2).trans hi
    obtain ⟨value, hlevels⟩ := hin'.value_end hvalue hstaged.compiled horderly'.resting hbase hi' rfl
      hthere.1 hthere.2
    exact .begun ⟨hlevels, hcarries'⟩
  · exact .first hin' hbase hcarries' hthere

theorem Started.turn (h : Started loop shape lower range execution)
    (hstaged : loop.Staged program shape table lower) (hfirst : first.depth = lower.length + 1)
    (horderly : execution.Orderly program shape table)
    (horderly' : next.Orderly program shape table) (hleaves : ¬ first.Leaves loop.begun execution)
    (hturn : execution.Turn next) : Started loop shape lower range next := by
  have hruns := horderly.resting.runs
  cases h with
  | given hat =>
    have hi' := (Execution.instruction?_eq hruns hat.pc_eq).trans hstaged.laid.stepped.1
    obtain hstays | hgoes := hturn.at_of_transit (loop.transit_given range _) hat hi' nofun
      (List.forall_mem_singleton.2 (horderly.clear hstaged.seat "s")) fun _ => nofun
    · exact .given hstays
    · have hlt := hstaged.given_lt_begun
      refine .first (hgoes.inside (Nat.le_of_lt hlt))
        (hgoes.length_stack hstaged.laid.first hstaged.compiled horderly'.resting) hgoes.carries
        fun hend => ?_
      exact Nat.ne_of_lt hlt (hgoes.pc_eq.symm.trans hend.2)
  | first hin hbase hcarries hend =>
    exact first_turn hstaged horderly horderly' hturn hin hbase hcarries hend
  | begun hat => exact absurd ⟨hat.depth_eq.trans hfirst.symm, .inl hat.pc_eq⟩ hleaves

theorem Turns.last {base : List Value}
    (h : loop.Turns program shape table lower first range execution next)
    (hin : execution.Inside lower (loop.begun + 2) loop.tested (range.item count :: base))
    (hbase : (range.item count :: base).length = (shape (loop.begun + 2)).operands)
    (hcarries : execution.Carries lower.length (loop.vars range count)) (hcount : count ≤ range.count)
    (hend : ¬ (execution.depth = lower.length + 1 ∧ execution.pc = loop.tested)) :
    Stage loop program shape lower range count next := by
  have hvalue := h.laid.last
  have hin' : next.Inside lower (loop.begun + 2) loop.tested (range.item count :: base) :=
    h.turn.inside_value hvalue h.compiled h.orderly.resting hin hbase hend
  have hcarries' : next.Carries lower.length (loop.vars range count) := by
    refine h.carries hin hin' owns_vars hcarries fun hdepth => ?_
    obtain ⟨-, -, hlow, hhigh⟩ := hin.levels_eq hdepth
    have hne : execution.pc ≠ loop.tested := fun hpc => hend ⟨hdepth, hpc⟩
    have hspan := loop.span
    refine ⟨by omega, by omega, fun role pos hi => ?_⟩
    rw [Execution.instruction?, h.runs] at hi
    cases (hvalue.instruction h.compiled hlow (Nat.lt_of_le_of_ne hhigh hne) hi).1
  by_cases hthere : next.depth = lower.length + 1 ∧ next.pc = loop.tested
  · obtain ⟨hi, -⟩ := h.laid.compared
    have hi' := (Execution.instruction?_eq h.orderly'.resting.runs hthere.2).trans hi
    obtain ⟨value, hlevels⟩ := hin'.value_end hvalue h.compiled h.orderly'.resting hbase hi' rfl
      hthere.1 hthere.2
    have hat : next.At lower ⟨loop.tested, value :: range.item count :: base, loop.vars range count⟩ :=
      ⟨hlevels, hcarries'⟩
    have hgives := h.allows.ends (hthere.1.trans h.depth.symm) hthere.2
    rw [hat.stack_eq] at hgives
    cases hgives
    exact .tested hat hcount
  · exact .last hin' hbase hcarries' hcount hthere

theorem Stage.of_inside (hstaged : loop.Staged program shape table lower) (hfits : range.Fits)
    (hin : execution.Inside lower loop.opening loop.closing [])
    (hcarries : execution.Carries lower.length (loop.vars range count)) (hcount : count < range.count) :
    Stage loop program shape lower range (count + 1) execution := by
  by_cases hend : execution.depth = lower.length + 1 ∧ execution.pc = loop.closing
  · obtain ⟨base, hlevels, -⟩ := hin.levels_eq hend.1
    rw [hend.2, List.append_nil] at hlevels
    exact .between ⟨hlevels, hcarries⟩ owns_vars
      (passes_closing hstaged.laid hstaged.stepName_ne hfits base hcount) hcount
  · exact .round hin hcarries hcount hend

theorem Turns.round (h : loop.Turns program shape table lower first range execution next)
    (hleaves : ¬ first.Leaves loop.after execution)
    (hin : execution.Inside lower loop.opening loop.closing [])
    (hcarries : execution.Carries lower.length (loop.vars range count)) (hcount : count < range.count)
    (hend : ¬ (execution.depth = lower.length + 1 ∧ execution.pc = loop.closing)) :
    Stage loop program shape lower range (count + 1) next := by
  have hin' : next.Inside lower loop.opening loop.closing [] :=
    h.turn.inside_body h.laid.body h.runs h.depth hleaves hin hend
  refine .of_inside h.toStaged h.fits hin' (h.carries hin hin' owns_vars hcarries fun hdepth => ?_)
    hcount
  obtain ⟨-, -, hlow, hhigh⟩ := hin.levels_eq hdepth
  have hspan := loop.span
  exact ⟨by omega, by omega,
    hin.sets_other h.laid.body h.runs h.discreet_body (by omega) hdepth hend⟩

theorem clear_of_owns (hstaged : loop.Staged program shape table lower)
    (horderly : execution.Orderly program shape table)
    (hclear : execution.Clear lower.length loop.name) {name : String} (hname : loop.Owns name) :
    execution.Clear lower.length name := by
  obtain rfl | rfl := hname
  · exact horderly.clear hstaged.seat "s"
  · exact hclear

section

variable (h : loop.Turns program shape table lower first range execution next)
include h

theorem Turns.sameAt_of_levels_eq
    (hdepth : execution.depth = lower.length + 1) (hlevels : next.levels = execution.levels)
    {name : String} (hname : loop.Owns name) : execution.SameAt lower.length name next := by
  obtain rfl | rfl := hname
  · exact h.turn.sameAt_of_levels_eq hlevels (isHidden_loopVariable _ _) (by omega)
  · rw [← h.level]
    refine h.allows.sameAt (fun hnone => ?_) fun _ _ => ?_
    · rw [name_of_none hnone]
      have hlevel := h.level
      exact h.turn.sameAt_of_levels_eq hlevels (isHidden_loopVariable _ _) (by omega)
    · rw [Execution.levels_eq_cons, Execution.levels_eq_cons] at hlevels
      have hstays : next.pc = execution.pc := congrArg Level.index (List.cons.inj hlevels).1
      omega

theorem Turns.at_of_transit {op : Op} {pos : Option SourcePos} {spot goal : Spot}
    (hat : execution.At lower spot) (howns : ∀ binding ∈ spot.vars, loop.Owns binding.1)
    (hi : program.code[spot.index]? = some ⟨op, pos⟩) (ht : Transit op spot goal)
    (hknows : ∀ binding ∈ goal.vars, loop.Owns binding.1) :
    next.At lower spot ∨ next.At lower goal := by
  have hi' := (Execution.instruction?_eq h.runs hat.pc_eq).trans hi
  have htargets := (h.compiled.fits_at hi).targets_le
  rw [← h.runs] at htargets
  exact h.turn.at_of_transit ht hat hi' htargets
    (fun binding hmem => clear_of_owns h.toStaged h.orderly h.clear (hknows binding hmem))
    fun hlevels binding hmem => h.sameAt_of_levels_eq hat.depth_eq hlevels (howns binding hmem)

theorem Turns.compared {base : List Value} (hat : execution.At lower
      ⟨loop.tested + 1, .bool (decide (count < range.count)) :: base, loop.vars range count⟩)
    (hcount : count ≤ range.count) :
    (¬ first.Enters loop.opening execution next → Stage loop program shape lower range count next) ∧
      (first.Enters loop.opening execution next →
        Stage loop program shape lower range (count + 1) next) := by
  have hspan := loop.span
  obtain ⟨-, hi, -⟩ := h.laid.compared
  obtain hstays | hgoes := h.at_of_transit hat owns_vars hi
    (loop.transit_compared range base count) owns_vars
  · refine ⟨fun _ => .compared hstays hcount, fun henters => ?_⟩
    have hopening : loop.tested + 1 = loop.opening := hstays.pc_eq.symm.trans henters.2.2
    omega
  obtain hlt | rfl := Nat.lt_or_eq_of_le hcount
  · rw [if_pos hlt] at hgoes
    refine ⟨fun hout => ?_, fun _ => ?_⟩
    · refine absurd ⟨hat.depth_eq.trans h.depth.symm, ?_, hgoes.pc_eq⟩ hout
      rw [hat.pc_eq]
      rfl
    · refine .of_inside h.toStaged h.fits ⟨[], loop.opening, base, ?_, Nat.le_refl _, hspan.2.2.2.2.1⟩
        hgoes.carries hlt
      rw [hgoes.levels, List.append_nil]
      rfl
  · rw [if_neg (Nat.lt_irrefl _)] at hgoes
    refine ⟨fun _ => .ended hgoes, fun henters => ?_⟩
    have hopening : loop.after = loop.opening := hgoes.pc_eq.symm.trans henters.2.2
    omega

theorem Turns.between {spot : Spot} {base : List Value}
    (hat : execution.At lower spot) (howns : ∀ binding ∈ spot.vars, loop.Owns binding.1)
    (hpasses : program.Passes loop.Between loop.Owns spot
      ⟨loop.begun + 2, range.item count :: base, loop.vars range count⟩)
    (hcount : count ≤ range.count) : Stage loop program shape lower range count next := by
  obtain rfl | ⟨mid, htransits, hrest⟩ := hpasses.cases_head
  · have hlt := h.begun_lt_tested
    refine h.last (hat.inside (Nat.le_of_lt hlt))
      (hat.length_stack h.laid.last h.compiled h.orderly.resting) hat.carries hcount fun hend => ?_
    exact Nat.ne_of_lt hlt (hat.pc_eq.symm.trans hend.2)
  · obtain ⟨op, pos, hi, ht⟩ := htransits.transit
    obtain hstays | hgoes := h.at_of_transit hat howns hi ht htransits.knows
    · exact .between hstays howns hpasses hcount
    · exact .between hgoes htransits.knows hrest hcount

end

theorem Stage.before_round (h : Stage loop program shape lower range count next)
    (hfirst : first.depth = lower.length + 1)
    (hpc : execution.depth = lower.length + 1 → execution.pc ≠ loop.tested + 1) :
    (¬ first.Enters loop.opening execution next → Stage loop program shape lower range count next) ∧
      (first.Enters loop.opening execution next →
        Stage loop program shape lower range (count + 1) next) := by
  refine ⟨fun _ => h, ?_⟩
  rintro ⟨hdepth, hbefore, -⟩
  exact absurd (Nat.succ.inj hbefore) (hpc (hdepth.trans hfirst))

theorem Stage.turn (h : Stage loop program shape lower range count execution)
    (hturns : loop.Turns program shape table lower first range execution next)
    (hleaves : ¬ first.Leaves loop.after execution) :
    (¬ first.Enters loop.opening execution next → Stage loop program shape lower range count next) ∧
      (first.Enters loop.opening execution next →
        Stage loop program shape lower range (count + 1) next) := by
  have hspan := loop.span
  have hfirst := hturns.depth
  cases h with
  | begun hat =>
    have hpc : execution.pc = loop.begun := hat.pc_eq
    refine before_round ?_ hfirst fun _ => by omega
    obtain hstays | hgoes := hturns.at_of_transit hat (List.forall_mem_singleton.2 (.inl rfl))
      hturns.laid.counted.1 (transit_begun hturns.stepName_ne range _) owns_vars
    · exact .begun hstays
    · exact .between hgoes owns_vars (passes_counted hturns.laid _) (Nat.zero_le _)
  | between hat howns hpasses hcount =>
    refine before_round (hturns.between hat howns hpasses hcount) hfirst fun _ => ?_
    rw [hat.pc_eq]
    obtain rfl | ⟨mid, htransits, -⟩ := hpasses.cases_head
    · dsimp only
      omega
    · have hbetween := htransits.passes
      unfold Between at hbetween
      omega
  | last hin hbase hcarries hcount hend =>
    refine before_round (hturns.last hin hbase hcarries hcount hend) hfirst fun hdepth => ?_
    obtain ⟨-, -, -, hhigh⟩ := hin.levels_eq hdepth
    omega
  | tested hat hcount =>
    have hpc : execution.pc = loop.tested := hat.pc_eq
    refine before_round ?_ hfirst fun _ => by omega
    obtain hstays | hgoes := hturns.at_of_transit hat owns_vars hturns.laid.compared.1
      (loop.transit_tested hturns.fits _ hcount) owns_vars
    · exact .tested hstays hcount
    · exact .compared hgoes hcount
  | compared hat hcount => exact hturns.compared hat hcount
  | ended hat => exact absurd ⟨hat.depth_eq.trans hfirst.symm, .inl hat.pc_eq⟩ hleaves
  | round hin hcarries hcount hend =>
    refine before_round (hturns.round hleaves hin hcarries hcount hend) hfirst fun hdepth => ?_
    obtain ⟨-, -, hlow, -⟩ := hin.levels_eq hdepth
    omega

theorem Turns.clear' (h : loop.Turns program shape table lower first range execution next) :
    next.Clear lower.length loop.name := by
  cases hcounter : loop.counter with
  | none =>
    rw [name_of_none hcounter]
    exact h.orderly'.clear h.seat "i"
  | some name =>
    obtain hsame | ⟨hdepth, hpc, hgoes⟩ := h.allows.counter name hcounter
    · rw [← name_of_some hcounter, h.level] at hsame
      exact h.clear.of_sameAt hsame
    have hi : execution.instruction? = some ⟨.setVariable loop.name, loop.pos⟩ := by
      rw [Execution.instruction?, h.runs]
      obtain hpc | hpc := hpc
      · rw [hpc]
        exact h.laid.counted.1
      · obtain ⟨-, -, -, hi, -⟩ := h.laid.closed
        rw [hpc]
        exact hi
    obtain ⟨value, hsets⟩ := h.turn.sets hi (by omega)
    exact (hsets.binds h.clear (Nat.succ.inj (hdepth.trans h.depth))).clear

structure Begins (loop : CountLoop) (program : Program) (shape : Nat → Shape)
    (table : Table Procedure) (lower : List Level) (first : Execution) (range : CountRange) : Prop
    extends loop.Staged program shape table lower where
  fits : range.Fits
  stands : ∃ base, first.At lower ⟨loop.given, .int range.step :: base, []⟩
  orderly : first.Orderly program shape table

theorem Begins.depth_eq (h : loop.Begins program shape table lower first range) :
    first.depth = lower.length + 1 := by
  obtain ⟨base, hat⟩ := h.stands
  exact hat.depth_eq

theorem Begins.turns (h : loop.Begins program shape table lower first range)
    (horderly : execution.Orderly program shape table)
    (hclear : execution.Clear lower.length loop.name) (hproceeds : execution.Proceeds next)
    (hallows : loop.Allows first range execution next) :
    loop.Turns program shape table lower first range execution next :=
  ⟨h.toStaged, h.fits, h.depth_eq, horderly, horderly.proceeds h.compiled h.home hproceeds, hclear,
    hproceeds.turn h.compiled horderly.resting, hallows⟩

theorem Opens.started (h : loop.Opens first execution)
    (hbegins : loop.Begins program shape table lower first range) :
    Started loop shape lower range execution ∧ execution.Orderly program shape table := by
  have hstaged := hbegins.toStaged
  induction h with
  | first =>
    obtain ⟨base, hat⟩ := hbegins.stands
    exact ⟨.given hat, hbegins.orderly⟩
  | proceed _ hleaves hproceeds ih =>
    obtain ⟨hstarted, horderly⟩ := ih
    have hturn := hproceeds.turn hstaged.compiled horderly.resting
    have horderly' := horderly.proceeds hstaged.compiled hstaged.home hproceeds
    exact ⟨hstarted.turn hstaged hbegins.depth_eq horderly horderly' hleaves hturn, horderly'⟩

section

variable (h : Started loop shape lower range execution)
include h

theorem Started.at_given (hdepth : execution.depth = lower.length + 1)
    (hpc : execution.pc = loop.given) :
    ∃ base, execution.At lower ⟨loop.given, .int range.step :: base, []⟩ := by
  have hspan := loop.span
  cases h with
  | given hat => exact ⟨_, hat⟩
  | first hin =>
    obtain ⟨-, -, hlow, -⟩ := hin.levels_eq hdepth
    omega
  | begun hat =>
    have hbegun : execution.pc = loop.begun := hat.pc_eq
    omega

theorem Started.at_begun (hdepth : execution.depth = lower.length + 1)
    (hpc : execution.pc = loop.begun) :
    ∃ value base, execution.At lower
      ⟨loop.begun, value :: base, [(loop.stepName, .int range.step)]⟩ := by
  have hspan := loop.span
  cases h with
  | given hat =>
    have hgiven : execution.pc = loop.given := hat.pc_eq
    omega
  | first _ _ _ hend => exact absurd ⟨hdepth, hpc⟩ hend
  | begun hat => exact ⟨_, _, hat⟩

theorem Stage.of_started (hdepth : execution.depth = lower.length + 1)
    (hpc : execution.pc = loop.begun)
    (hstack : execution.frame.stack.head? = some (.int range.first)) :
    Stage loop program shape lower range 0 execution := by
  obtain ⟨value, base, hat⟩ := h.at_begun hdepth hpc
  rw [hat.stack_eq] at hstack
  cases hstack
  exact .begun hat

end

theorem Rounds.stage (h : loop.Rounds first range count execution)
    (hbegins : loop.Begins program shape table lower first range) :
    Stage loop program shape lower range count execution ∧
      execution.Orderly program shape table ∧ execution.Clear lower.length loop.name := by
  have hstaged := hbegins.toStaged
  have hfirst := hbegins.depth_eq
  induction h with
  | begin hopens hdepth hpc hstack hclear =>
    obtain ⟨hstarted, horderly⟩ := hopens.started hbegins
    refine ⟨.of_started hstarted (hdepth.trans hfirst) hpc hstack, horderly, ?_⟩
    cases hcounter : loop.counter with
    | none =>
      rw [name_of_none hcounter]
      exact horderly.clear hstaged.seat "i"
    | some name =>
      rw [name_of_some hcounter, ← Nat.succ.inj hfirst]
      exact hclear name hcounter
  | proceed _ hleaves hproceeds hallows henters ih =>
    obtain ⟨hstage, horderly, hclear⟩ := ih
    have hturns := hbegins.turns horderly hclear hproceeds hallows
    exact ⟨(hstage.turn hturns hleaves).1 henters, hturns.orderly', hturns.clear'⟩
  | enter _ hleaves hproceeds hallows henters ih =>
    obtain ⟨hstage, horderly, hclear⟩ := ih
    have hturns := hbegins.turns horderly hclear hproceeds hallows
    exact ⟨(hstage.turn hturns hleaves).2 henters, hturns.orderly', hturns.clear'⟩

section

variable (h : Stage loop program shape lower range count execution)
include h

theorem Stage.le_count : count ≤ range.count := by
  cases h with
  | begun => exact Nat.zero_le _
  | between _ _ _ hcount | last _ _ _ hcount | tested _ hcount | compared _ hcount
  | round _ _ hcount => exact hcount
  | ended => exact Nat.le_refl _

theorem Stage.lt_depth : lower.length < execution.depth := by
  cases h with
  | begun hat | between hat | tested hat | compared hat | ended hat =>
    exact hat.depth_eq ▸ Nat.lt_succ_self _
  | last hin | round hin => exact hin.lt_depth

inductive Position (loop : CountLoop) (program : Program) (lower : List Level) (range : CountRange)
    (count : Nat) (execution : Execution) : Prop where
  | begun {base : List Value} : execution.pc = loop.begun → execution.At lower
        ⟨loop.begun, .int range.first :: base, [(loop.stepName, .int range.step)]⟩ →
      Position loop program lower range count execution
  | evaluating : loop.begun + 2 ≤ execution.pc → execution.pc < loop.tested →
      Position loop program lower range count execution
  | between {spot : Spot} {base : List Value} :
      (execution.pc = loop.begun + 1 ∨ loop.closing ≤ execution.pc ∧ execution.pc < loop.after) →
      execution.At lower spot → program.Passes loop.Between loop.Owns spot
        ⟨loop.begun + 2, range.item count :: base, loop.vars range count⟩ →
      Position loop program lower range count execution
  | tested {base : List Value} : execution.pc = loop.tested → execution.At lower
        ⟨loop.tested, .int range.last :: range.item count :: base, loop.vars range count⟩ →
      Position loop program lower range count execution
  | compared {base : List Value} : execution.pc = loop.tested + 1 → execution.At lower
        ⟨loop.tested + 1, .bool (decide (count < range.count)) :: base, loop.vars range count⟩ →
      Position loop program lower range count execution
  | inside {round : Nat} : loop.opening ≤ execution.pc → execution.pc < loop.closing →
      count = round + 1 → execution.Carries lower.length (loop.vars range round) →
      Position loop program lower range count execution
  | ended : execution.pc = loop.after → count = range.count →
      Position loop program lower range count execution

theorem Stage.position (hstaged : loop.Staged program shape table lower)
    (hdepth : execution.depth = lower.length + 1) :
    loop.Position program lower range count execution := by
  have htested := hstaged.begun_lt_tested
  cases h with
  | begun hat => exact .begun hat.pc_eq hat
  | between hat _ hpasses =>
    have hpc := hat.pc_eq
    obtain rfl | ⟨mid, htransits, -⟩ := hpasses.cases_head
    · exact .evaluating (Nat.le_of_eq hpc.symm) (hpc ▸ htested)
    · exact .between (hpc ▸ htransits.passes) hat hpasses
  | last hin _ _ _ hend =>
    obtain ⟨-, -, hlow, hhigh⟩ := hin.levels_eq hdepth
    exact .evaluating hlow (Nat.lt_of_le_of_ne hhigh fun hpc => hend ⟨hdepth, hpc⟩)
  | tested hat => exact .tested hat.pc_eq hat
  | compared hat => exact .compared hat.pc_eq hat
  | ended hat => exact .ended hat.pc_eq rfl
  | round hin hcarries _ hend =>
    obtain ⟨-, -, hlow, hhigh⟩ := hin.levels_eq hdepth
    exact .inside hlow (Nat.lt_of_le_of_ne hhigh fun hpc => hend ⟨hdepth, hpc⟩) rfl hcarries

end

section

variable (h : loop.Position program lower range count execution)
include h

theorem Position.within : loop.begun ≤ execution.pc ∧ execution.pc ≤ loop.after := by
  have hspan := loop.span
  cases h with
  | begun | evaluating | between | tested | compared | inside | ended => omega

theorem Position.at_begun (hpc : execution.pc = loop.begun) : ∃ base, execution.At lower
      ⟨loop.begun, .int range.first :: base, [(loop.stepName, .int range.step)]⟩ := by
  have hspan := loop.span
  cases h with
  | begun _ hat => exact ⟨_, hat⟩
  | evaluating | between | tested | compared | inside | ended => omega

theorem Position.at_between
    (hpc : execution.pc = loop.begun + 1 ∨ loop.closing ≤ execution.pc ∧ execution.pc < loop.after) :
    ∃ spot base, execution.At lower spot ∧ program.Passes loop.Between loop.Owns spot
      ⟨loop.begun + 2, range.item count :: base, loop.vars range count⟩ := by
  have hspan := loop.span
  cases h with
  | between _ hat hpasses => exact ⟨_, _, hat, hpasses⟩
  | begun | evaluating | tested | compared | inside | ended => omega

theorem Position.at_tested (hpc : execution.pc = loop.tested) : ∃ base, execution.At lower
      ⟨loop.tested, .int range.last :: range.item count :: base, loop.vars range count⟩ := by
  have hspan := loop.span
  cases h with
  | tested _ hat => exact ⟨_, hat⟩
  | begun | evaluating | between | compared | inside | ended => omega

theorem Position.at_compared (hpc : execution.pc = loop.tested + 1) : ∃ base, execution.At lower
      ⟨loop.tested + 1, .bool (decide (count < range.count)) :: base, loop.vars range count⟩ := by
  have hspan := loop.span
  cases h with
  | compared _ hat => exact ⟨_, hat⟩
  | begun | evaluating | between | tested | inside | ended => omega

theorem Position.carries (hlow : loop.opening ≤ execution.pc)
    (hhigh : execution.pc < loop.closing) :
    ∃ round, count = round + 1 ∧ execution.Carries lower.length (loop.vars range round) := by
  have hspan := loop.span
  cases h with
  | inside _ _ hcount hcarries => exact ⟨_, hcount, hcarries⟩
  | begun | evaluating | between | tested | compared | ended => omega

theorem Position.eq_count (hpc : execution.pc = loop.after) : count = range.count := by
  have hspan := loop.span
  cases h with
  | ended _ hcount => exact hcount
  | begun | evaluating | between | tested | compared | inside => omega

end

theorem lookup?_name {round : Nat} (h : execution.Carries lower.length (loop.vars range round))
    (hdepth : execution.depth = lower.length + 1) :
    execution.lookup? loop.name = some (range.item round) :=
  (h (loop.name, range.item round) (List.mem_cons_of_mem _ List.mem_cons_self)).lookup?_eq
    (Nat.succ.inj hdepth)

theorem Rounds.position (h : loop.Rounds first range count execution)
    (hbegins : loop.Begins program shape table lower first range)
    (hdepth : execution.depth = first.depth) : loop.Position program lower range count execution :=
  (h.stage hbegins).1.position hbegins.toStaged (hdepth.trans hbegins.depth_eq)

theorem Position.enters (h : loop.Position program lower range count execution)
    (hstaged : loop.Staged program shape table lower) (horderly : execution.Orderly program shape table)
    (hclear : execution.Clear lower.length loop.name) (hturn : execution.Turn next)
    (henters : first.Enters loop.opening execution next) :
    count < range.count ∧ next.lookup? loop.name = some (range.item count) := by
  have hspan := loop.span
  have hruns := horderly.resting.runs
  have hpc : execution.pc = loop.tested + 1 := Nat.succ.inj henters.2.1
  obtain ⟨base, hat⟩ := h.at_compared hpc
  obtain ⟨-, hi, -⟩ := hstaged.laid.compared
  have hi' := (Execution.instruction?_eq hruns hpc).trans hi
  have htargets := (hstaged.compiled.fits_at hi).targets_le
  rw [← hruns] at htargets
  have hgoes := hturn.at_of_transit (loop.transit_compared range _ count) hat hi' htargets
    (fun binding hmem => clear_of_owns hstaged horderly hclear (owns_vars binding hmem))
    fun hlevels => by
      rw [Execution.levels_eq_cons, Execution.levels_eq_cons] at hlevels
      have hstays : next.pc = execution.pc := congrArg Level.index (List.cons.inj hlevels).1
      have hopening := henters.2.2
      omega
  obtain hstays | hgoes := hgoes
  · have hopening : loop.tested + 1 = loop.opening := hstays.pc_eq.symm.trans henters.2.2
    omega
  · by_cases hlt : count < range.count
    · exact ⟨hlt, lookup?_name hgoes.carries hgoes.depth_eq⟩
    · rw [if_neg hlt] at hgoes
      have hopening : loop.after = loop.opening := hgoes.pc_eq.symm.trans henters.2.2
      omega

theorem allows_of_at {spot goal : Spot} (hfirst : first.depth = lower.length + 1)
    (hat : execution.At lower spot) (hat' : next.At lower goal)
    (hcolumn : ∀ name, (∀ pos, execution.instruction? ≠ some ⟨.setVariable name, pos⟩) →
      next.column name = execution.column name)
    (hset : ∀ pos, execution.instruction? = some ⟨.setVariable loop.name, pos⟩ →
      (spot.index = loop.begun ∨ spot.index = loop.closing + 3) ∧ goal.index = spot.index + 1)
    (htested : goal.index ≠ loop.tested) :
    loop.Allows first range execution next where
  counter := by
    intro name hname
    rw [← name_of_some hname]
    by_cases hsets : ∃ pos, execution.instruction? = some ⟨.setVariable loop.name, pos⟩
    · obtain ⟨pos, hi⟩ := hsets
      right
      rw [hat.pc_eq, hat'.pc_eq]
      exact ⟨hat.depth_eq.trans hfirst.symm, hset pos hi⟩
    · exact .inl (.of_eq (hcolumn loop.name fun pos hi => hsets ⟨pos, hi⟩))
  ends := fun _ hpc => absurd (hat'.pc_eq.symm.trans hpc) htested

theorem Rounds.of_transits {P : Nat → Prop} {spot goal : Spot}
    (h : loop.Rounds first range count execution)
    (hbegins : loop.Begins program shape table lower first range)
    (htransits : program.Transits P loop.Owns spot goal) (hat : execution.At lower spot)
    (hproceeds : execution.Proceeds next) (hat' : next.At lower goal)
    (hcolumn : ∀ name, (∀ pos, execution.instruction? ≠ some ⟨.setVariable name, pos⟩) →
      next.column name = execution.column name)
    (hset : ∀ pos, program.code[spot.index]? = some ⟨.setVariable loop.name, pos⟩ →
      spot.index = loop.begun ∨ spot.index = loop.closing + 3)
    (htested : goal.index ≠ loop.tested) (hafter : spot.index ≠ loop.after) :
    loop.Rounds first range
      (if spot.index + 1 = loop.opening ∧ goal.index = loop.opening then count + 1 else count) next := by
  obtain ⟨-, horderly, -⟩ := h.stage hbegins
  have hinstruction := Execution.instruction?_eq horderly.resting.runs hat.pc_eq
  have hallows : loop.Allows first range execution next := by
    refine allows_of_at hbegins.depth_eq hat hat' hcolumn (fun pos hi => ?_) htested
    rw [hinstruction] at hi
    obtain ⟨op, pos', hi', ht⟩ := htransits.transit
    cases hi'.symm.trans hi
    cases ht
    exact ⟨hset pos hi, rfl⟩
  have hleaves : ¬ first.Leaves loop.after execution := by
    rintro ⟨-, hpc | ⟨hasValue, pos, hret⟩⟩
    · exact hafter (hat.pc_eq.symm.trans hpc)
    · exact htransits.ne_ret hasValue pos (hinstruction.symm.trans hret)
  split
  · next henters =>
    refine h.enter hleaves hproceeds hallows
      ⟨hat.depth_eq.trans hbegins.depth_eq.symm, ?_, hat'.pc_eq.trans henters.2⟩
    rw [hat.pc_eq]
    exact henters.1
  · next hnot =>
    refine h.proceed hleaves hproceeds hallows fun henters => hnot ?_
    rw [← hat.pc_eq, ← hat'.pc_eq]
    exact henters.2

theorem Laid.index_of_set (h : loop.Laid program) {index : Nat} (hbetween : loop.Between index)
    {pos : Option SourcePos} (hi : program.code[index]? = some ⟨.setVariable loop.name, pos⟩) :
    index = loop.closing + 3 := by
  obtain ⟨-, hpush, -⟩ := h.counted
  obtain ⟨h₀, h₁, h₂, -, h₄, -⟩ := h.closed
  obtain rfl | ⟨hlow, hhigh⟩ := hbetween
  · cases hpush.symm.trans hi
  · have hspan := loop.span
    have hindex : index = loop.closing ∨ index = loop.closing + 1 ∨ index = loop.closing + 2 ∨
        index = loop.closing + 3 ∨ index = loop.closing + 4 := by omega
    obtain rfl | rfl | rfl | rfl | rfl := hindex
    · cases h₀.symm.trans hi
    · cases h₁.symm.trans hi
    · cases h₂.symm.trans hi
    · rfl
    · cases h₄.symm.trans hi

end Stages

end CountLoop

def Execution.Leads (execution : Execution) (index : Nat) (R : Execution → Prop) : Prop :=
  ∀ ⦃H : Type⦄ ⦃setting : Setting H⦄ ⦃machine : Machine H⦄, setting.Discreet →
    setting.limits.maxCycles = none → machine.execution = execution → machine.status.running = true →
    ∃ last, Machine.Reaches setting machine last ∧ last.status.running = true ∧
      last.execution.depth = execution.depth ∧ last.execution.pc = index ∧ R last.execution

theorem Execution.Leads.trans {execution : Execution} {index index' : Nat} {R S : Execution → Prop}
    (h : execution.Leads index R)
    (hnext : ∀ next, R next → next.depth = execution.depth → next.pc = index → next.Leads index' S) :
    execution.Leads index' S := by
  intro H setting machine hdiscreet hlimit hmachine hrunning
  obtain ⟨mid, hreaches, hrunning, hdepth, hpc, hmid⟩ := h hdiscreet hlimit hmachine hrunning
  obtain ⟨last, hreaches', hrunning, hdepth', hlast⟩ :=
    hnext mid.execution hmid hdepth hpc hdiscreet hlimit rfl hrunning
  exact ⟨last, hreaches.trans hreaches', hrunning, hdepth'.trans hdepth, hlast⟩

namespace CountLoop

section Reaching

variable {loop : CountLoop} {program : Program} {shape : Nat → Shape} {table : Table Procedure}
  {lower : List Level} {range : CountRange} {count : Nat} {first execution : Execution}

theorem Opens.leads_given (h : loop.Opens first execution)
    (hbegins : loop.Begins program shape table lower first range)
    (hdepth : execution.depth = first.depth) (hpc : execution.pc = loop.given) :
    execution.Leads (loop.given + 1) (loop.Opens first) := by
  rintro H setting machine hdiscreet hlimit rfl hrunning
  have hspan := loop.span
  obtain ⟨hstarted, horderly⟩ := h.started hbegins
  have hruns := horderly.resting.runs
  obtain ⟨base, hat⟩ := hstarted.at_given (hdepth.trans hbegins.depth_eq) hpc
  have htransits : program.Transits (fun _ => True) (fun name => name = loop.stepName) _ _ :=
    ⟨trivial, fun _ hmem => congrArg Prod.fst (List.mem_singleton.1 hmem), _, _,
      hbegins.laid.stepped.1, loop.transit_given range base⟩
  obtain ⟨instruction, last, hn, hs, hrunning, hlast, -⟩ :=
    Machine.exists_step_of_transits htransits hbegins.compiled hlimit hruns hrunning hat
      fun name hname => hname ▸ horderly.clear hbegins.seat "s"
  refine ⟨last, .single hn hs, hrunning, hlast.depth_eq.trans hat.depth_eq.symm, hlast.pc_eq,
    h.proceed ?_ (.step hdiscreet hn hs)⟩
  rintro ⟨-, hend | ⟨hasValue, pos, hret⟩⟩
  · omega
  · rw [Execution.instruction?, hruns, hat.pc_eq] at hret
    exact htransits.ne_ret hasValue pos hret

section

variable (h : loop.Rounds first range count execution)
  (hbegins : loop.Begins program shape table lower first range)
include h hbegins

theorem Rounds.leads_step {spot goal : Spot} {op : Op} {pos : Option SourcePos}
    (hat : execution.At lower spot)
    (hi : program.code[spot.index]? = some ⟨op, pos⟩) (ht : Transit op spot goal)
    (hknows : ∀ binding ∈ goal.vars, loop.Owns binding.1)
    (hset : op = .setVariable loop.name → spot.index = loop.begun)
    (htested : goal.index ≠ loop.tested) (hafter : spot.index ≠ loop.after) :
    execution.Leads goal.index (loop.Rounds first range
      (if spot.index + 1 = loop.opening ∧ goal.index = loop.opening then count + 1 else count)) := by
  rintro H setting machine hdiscreet hlimit rfl hrunning
  obtain ⟨-, horderly, hclear⟩ := h.stage hbegins
  have htransits : program.Transits (fun _ => True) loop.Owns spot goal :=
    ⟨trivial, hknows, op, pos, hi, ht⟩
  have hstep : ∃ instruction last, machine.next? = some instruction ∧
      machine.step setting instruction = .ok last ∧ _ :=
    Machine.exists_step_of_transits htransits hbegins.compiled hlimit horderly.resting.runs hrunning hat
      fun _ => clear_of_owns hbegins.toStaged horderly hclear
  obtain ⟨instruction, last, hn, hs, hrunning', hlast, hcolumn⟩ := hstep
  refine ⟨last, .single hn hs, hrunning', hlast.depth_eq.trans hat.depth_eq.symm, hlast.pc_eq,
    h.of_transits hbegins htransits hat (.step hdiscreet hn hs) hlast
      (fun name hother => hcolumn name fun hop => ?_) (fun pos' hsets => ?_) htested hafter⟩
  · refine hother instruction.pos ?_
    rw [Machine.instruction?_of_next? hn, ← hop]
  · cases hi.symm.trans hsets
    exact .inl (hset rfl)

theorem Rounds.leads_begun (hdepth : execution.depth = first.depth) (hpc : execution.pc = loop.begun) :
    execution.Leads (loop.begun + 1) (loop.Rounds first range count) := by
  have hspan := loop.span
  obtain ⟨base, hat⟩ := (h.position hbegins hdepth).at_begun hpc
  have hleads := h.leads_step hbegins hat hbegins.laid.counted.1
    (transit_begun hbegins.stepName_ne range base) owns_vars fun _ => rfl
  dsimp only at hleads
  rw [if_neg (by omega)] at hleads
  exact hleads (by omega) (by omega)

theorem Rounds.leads_between (hdepth : execution.depth = first.depth)
    (hpc : execution.pc = loop.begun + 1 ∨ loop.closing ≤ execution.pc ∧ execution.pc < loop.after) :
    execution.Leads (loop.begun + 2) (loop.Rounds first range count) := by
  rintro H setting machine hdiscreet hlimit rfl hrunning
  have hspan := loop.span
  have hlt := hbegins.begun_lt_tested
  have hclear (execution : Execution) (h : loop.Rounds first range count execution) :
      execution.program = program ∧ ∀ name, loop.Owns name → execution.Clear lower.length name := by
    obtain ⟨-, horderly, hclear⟩ := h.stage hbegins
    exact ⟨horderly.resting.runs, fun _ => clear_of_owns hbegins.toStaged horderly hclear⟩
  obtain ⟨spot, base, hat, hpasses⟩ := (h.position hbegins hdepth).at_between hpc
  obtain ⟨last, hreaches, hrunning, hlast, hrounds⟩ :=
    Machine.exists_reaches_of_passes (R := loop.Rounds first range count) hpasses hbegins.compiled
      hdiscreet hlimit hrunning hat h hclear
      fun execution after spot next h htransits hat hproceeds hat' hindex hcolumn => by
        have hbetween := htransits.passes
        have hrounds := h.of_transits hbegins htransits hat hproceeds hat' hcolumn
          fun pos hi => .inr (hbegins.laid.index_of_set hbetween hi)
        unfold Between at hbetween hindex
        dsimp only at hindex
        rw [if_neg (by omega)] at hrounds
        exact hrounds (by omega) (by omega)
  exact ⟨last, hreaches, hrunning, hlast.depth_eq.trans hat.depth_eq.symm, hlast.pc_eq, hrounds⟩

theorem Rounds.leads_tested (hdepth : execution.depth = first.depth) (hpc : execution.pc = loop.tested) :
    execution.Leads (loop.tested + 1) (loop.Rounds first range count) := by
  have hspan := loop.span
  obtain ⟨base, hat⟩ := (h.position hbegins hdepth).at_tested hpc
  have hleads := h.leads_step hbegins hat hbegins.laid.compared.1
    (loop.transit_tested hbegins.fits base (h.stage hbegins).1.le_count) owns_vars nofun
  dsimp only at hleads
  rw [if_neg (by omega)] at hleads
  exact hleads (by omega) (by omega)

theorem Rounds.leads_compared (hdepth : execution.depth = first.depth)
    (hpc : execution.pc = loop.tested + 1) :
    execution.Leads (if count < range.count then loop.opening else loop.after)
      (loop.Rounds first range (if count < range.count then count + 1 else count)) := by
  have hspan := loop.span
  obtain ⟨base, hat⟩ := (h.position hbegins hdepth).at_compared hpc
  obtain ⟨-, hi, -⟩ := hbegins.laid.compared
  have hleads := h.leads_step hbegins hat hi (loop.transit_compared range base count) owns_vars nofun
  dsimp only at hleads
  by_cases hlt : count < range.count
  · rw [if_pos hlt, if_pos ⟨rfl, rfl⟩] at hleads
    rw [if_pos hlt, if_pos hlt]
    exact hleads (by omega) (by omega)
  · rw [if_neg hlt, if_neg (by omega)] at hleads
    rw [if_neg hlt, if_neg hlt]
    exact hleads (by omega) (by omega)

theorem Rounds.leads_decision (hdepth : execution.depth = first.depth)
    (hpc : execution.pc = loop.tested ∨ execution.pc = loop.tested + 1) :
    execution.Leads (if count < range.count then loop.opening else loop.after)
      (loop.Rounds first range (if count < range.count then count + 1 else count)) := by
  obtain hpc | hpc := hpc
  · exact (h.leads_tested hbegins hdepth hpc).trans fun _ hrounds hsame =>
      hrounds.leads_compared hbegins (hsame.trans hdepth)
  · exact h.leads_compared hbegins hdepth hpc

end

end Reaching

def Holds (execution : Execution) (name : String) (value : Int) : Prop :=
  ∃ word : Int64, word.toInt = value ∧ execution.lookup? name = some (.int word)

/-- What a loop has come to when so many rounds have begun. -/
structure Counts (loop : CountLoop) (first : Execution) (range : CountRange) (count : Nat)
    (execution : Execution) : Prop where
  bounded : count ≤ range.count
  deep : first.depth ≤ execution.depth
  within : execution.depth = first.depth → loop.begun ≤ execution.pc ∧ execution.pc ≤ loop.after
  /-- The next round begins with the next value, if it is not above the last one. -/
  enters : ∀ next, execution.Proceeds next → first.Enters loop.opening execution next →
    range.value count ≤ range.last.toInt ∧ Holds next loop.name (range.value count)
  /-- All through the body the counter has the value of the round. -/
  counter : execution.depth = first.depth → loop.opening ≤ execution.pc →
    execution.pc < loop.closing →
    ∃ round, count = round + 1 ∧ Holds execution loop.name (range.value round)
  tests : execution.depth = first.depth → execution.pc = loop.tested →
    Holds execution loop.name (range.value count) ∧ ∃ word : Int64, word.toInt = range.value count ∧
      ∃ base, execution.frame.stack = .int range.last :: .int word :: base
  /-- At the end each value has had its round. -/
  complete : execution.depth = first.depth → execution.pc = loop.after → count = range.count
  /-- With the first value, and from the end of each round, the loop goes on to evaluate the last
  value. -/
  goesOn : execution.depth = first.depth →
    execution.pc = loop.begun ∨ execution.pc = loop.begun + 1 ∨
      loop.closing ≤ execution.pc ∧ execution.pc < loop.after →
    execution.Leads (loop.begun + 2) (loop.Rounds first range count)
  again : execution.depth = first.depth →
    execution.pc = loop.tested ∨ execution.pc = loop.tested + 1 →
    range.value count ≤ range.last.toInt →
    execution.Leads loop.opening (loop.Rounds first range (count + 1))
  ends : execution.depth = first.depth →
    execution.pc = loop.tested ∨ execution.pc = loop.tested + 1 →
    range.last.toInt < range.value count →
    execution.Leads loop.after (loop.Rounds first range count)

section Results

variable {loop : CountLoop} {program : Program} {shape : Nat → Shape} {table : Table Procedure}
  {lower : List Level} {range : CountRange} {count : Nat} {first execution : Execution}

theorem holds_name {round : Nat} (hfits : range.Fits) (hround : round ≤ range.count)
    (h : execution.lookup? loop.name = some (range.item round)) :
    Holds execution loop.name (range.value round) :=
  ⟨_, hfits.toInt_eq hround, h⟩

theorem Rounds.counts (h : loop.Rounds first range count execution)
    (hbegins : loop.Begins program shape table lower first range) :
    loop.Counts first range count execution := by
  have hfirst := hbegins.depth_eq
  have hfits := hbegins.fits
  have hpositive := hfits.positive
  have hstaged := hbegins.toStaged
  obtain ⟨hstage, horderly, hclear⟩ := h.stage hbegins
  have hcount := hstage.le_count
  have hposition := h.position hbegins
  exact {
    bounded := hcount
    deep := hfirst ▸ hstage.lt_depth
    within := fun hdepth => (hposition hdepth).within
    enters := fun next hproceeds henters => by
      obtain ⟨hlt, hlookup⟩ := (hposition henters.1).enters hstaged horderly hclear
        (hproceeds.turn hstaged.compiled horderly.resting) henters
      exact ⟨(CountRange.lt_count_iff hpositive count).1 hlt, holds_name hfits hcount hlookup⟩
    counter := fun hdepth hlow hhigh => by
      obtain ⟨round, rfl, hcarries⟩ := (hposition hdepth).carries hlow hhigh
      exact ⟨round, rfl, holds_name hfits (Nat.le_of_succ_le hcount)
        (lookup?_name hcarries (hdepth.trans hfirst))⟩
    tests := fun hdepth hpc => by
      obtain ⟨base, hat⟩ := (hposition hdepth).at_tested hpc
      exact ⟨holds_name hfits hcount (lookup?_name hat.carries (hdepth.trans hfirst)), _,
        hfits.toInt_eq hcount, base, hat.stack_eq⟩
    complete := fun hdepth => (hposition hdepth).eq_count
    goesOn := fun hdepth hpc => by
      obtain hpc | hpc := hpc
      · exact (h.leads_begun hbegins hdepth hpc).trans fun _ hrounds hsame hpc =>
          hrounds.leads_between hbegins (hsame.trans hdepth) (.inl hpc)
      · exact h.leads_between hbegins hdepth hpc
    again := fun hdepth hpc hle => by
      have hlt := (CountRange.lt_count_iff hpositive count).2 hle
      have hleads := h.leads_decision hbegins hdepth hpc
      rwa [if_pos hlt, if_pos hlt] at hleads
    ends := fun hdepth hpc hgt => by
      have hnot : ¬ count < range.count :=
        fun hlt => Int.not_le.2 hgt ((CountRange.lt_count_iff hpositive count).1 hlt)
      have hleads := h.leads_decision hbegins hdepth hpc
      rwa [if_neg hnot, if_neg hnot] at hleads }

end Results

end CountLoop

/-- Once the step of a loop is on the stack, in the global scope or in any call, its first value is
evaluated. Then the rounds of the body begin with the values of the range, one after another, and behind
the last one the loop ends. The first value above the range is to be an integer of 64 bits, too. -/
theorem count_loop_runs_its_range {program : Program} {loop : CountLoop}
    (hloop : program.Contains loop.start loop.node) {first : Execution}
    (hcareer : Execution.Career program first) (hpc : first.pc = loop.given) {range : CountRange}
    (hstack : first.frame.stack.head? = some (.int range.step)) (hfits : range.Fits) :
    (∀ execution, loop.Opens first execution → execution.depth = first.depth →
      execution.pc = loop.given → execution.Leads (loop.given + 1) (loop.Opens first)) ∧
    ∀ count execution, loop.Rounds first range count execution →
      loop.Counts first range count execution := by
  obtain ⟨shape, table, hc, hstart, hhome, hhas, hnames⟩ := hloop.exists_setAtHome
  have horderly := hcareer.orderly hc hstart hhome
  have hlaid := CountLoop.Laid.of_has hhas
  have hi : first.instruction? = some ⟨.setVariable loop.stepName, loop.pos⟩ := by
    rw [Execution.instruction?, horderly.resting.runs, hpc]
    exact hlaid.stepped.1
  obtain ⟨base, hstack⟩ := List.head?_eq_some_iff.1 hstack
  have hat : first.At first.lower ⟨loop.given, .int range.step :: base, []⟩ := by
    refine ⟨?_, List.forall_mem_nil _⟩
    rw [Execution.levels_eq_cons, hpc, hstack]
  have hbegins : loop.Begins program shape table first.lower first range :=
    ⟨⟨hc, hhome, hlaid, hnames, horderly.resting.seat hhome hi⟩, hfits, ⟨base, hat⟩, horderly⟩
  exact ⟨fun _ h => h.leads_given hbegins, fun _ _ h => h.counts hbegins⟩

def climbing : Node :=
  .root [.procedure "climb" ["top"]
    [.countLoop (.int 1 none) (.ident "top" none) (some (.int 2 none)) (some "k")
      [.call "climb" [.int 0 none] none] none] none,
    .call "climb" [.int 4 none] none] none

def climbingProgram : Program := (climbing.compile []).toOption.getD .empty

def climbingLoop : CountLoop :=
  ⟨3, .int 1 none, .ident "top" none, some (.int 2 none), some "k",
    [.call "climb" [.int 0 none] none], none⟩

def climbingStart : Machine Unit := ⟨.start climbingProgram, .started, ⟨.empty, ()⟩⟩

def climbingAt (count : Nat) : Machine Unit :=
  (climbingStart.stepped alone count).getD climbingStart

theorem stepped_climbing {count : Nat} (h : count ≤ 11) :
    climbingStart.stepped alone count = some (climbingAt count) := by
  have hlong : (climbingStart.stepped alone 11).isSome = true := rfl
  rw [← Nat.add_sub_of_le h, Machine.stepped_add] at hlong
  obtain ⟨machine, hmachine⟩ := Option.isSome_iff_exists.1 (Option.isSome_of_isSome_bind hlong)
  rw [climbingAt, hmachine]
  rfl

theorem climbing_proceeds {count : Nat} (h : count < 11) :
    (climbingAt count).execution.Proceeds (climbingAt (count + 1)).execution := by
  have hstep : climbingStart.stepped alone (count + 1) = some (climbingAt (count + 1)) :=
    stepped_climbing h
  rw [Machine.stepped_add, stepped_climbing (Nat.le_of_lt h)] at hstep
  obtain ⟨instruction, next, hn, hs, hnext⟩ := Machine.stepped_succ_eq_some.1 hstep
  cases hnext
  exact .step discreet_alone hn hs

theorem count_loop_runs_its_range_climbing :
    ∃ first last : Machine Unit, Execution.Career climbingProgram first.execution ∧
      first.execution.depth = 2 ∧ first.execution.frame.stack.head? = some (.int 2) ∧
      Machine.Reaches alone first last ∧ last.execution.pc = climbingLoop.opening ∧
      climbingLoop.Rounds first.execution ⟨1, 4, 2⟩ 1 last.execution ∧
      climbingLoop.Counts first.execution ⟨1, 4, 2⟩ 1 last.execution := by
  have hcompile : climbing.compile [] = .ok climbingProgram := rfl
  have hloop : climbingProgram.Contains climbingLoop.start climbingLoop.node := by
    refine .script hcompile ?_ ?_
    · unfold Discreet
      decide
    · simp [climbing, topLevel, locatedIn, located, climbingLoop, CountLoop.node]
  have hcareer : Execution.Career climbingProgram (climbingAt 6).execution :=
    Execution.Career.start.reaches discreet_alone
      (Machine.reaches_of_stepped (stepped_climbing (by decide)))
  have hfits : CountRange.Fits ⟨1, 4, 2⟩ := ⟨by decide, by decide⟩
  obtain ⟨-, hcounts⟩ := count_loop_runs_its_range hloop hcareer rfl rfl hfits
  have hstays {count index : Nat} {op : Op}
      (hi : (climbingAt count).execution.instruction? = some ⟨op, none⟩) (hop : op.straight = true)
      (hpc : (climbingAt count).execution.pc < index) :
      ¬ (climbingAt 6).execution.Leaves index (climbingAt count).execution := by
    rintro ⟨-, hend | ⟨hasValue, pos, hret⟩⟩
    · exact Nat.ne_of_lt hpc hend
    · cases hi.symm.trans hret
      cases hop
  -- The step is set, and the first value is evaluated.
  have hopens : climbingLoop.Opens (climbingAt 6).execution (climbingAt 8).execution :=
    (CountLoop.Opens.first.proceed (hstays rfl rfl (by decide)) (climbing_proceeds (by decide))).proceed
      (hstays rfl rfl (by decide)) (climbing_proceeds (by decide))
  have hclear (name : String) (h : climbingLoop.counter = some name) :
      (climbingAt 8).execution.Clear 1 name := by
    cases h
    exact .inr (.inl rfl)
  have hwalk {count : Nat} {op : Op}
      (h : climbingLoop.Rounds (climbingAt 6).execution ⟨1, 4, 2⟩ 0 (climbingAt count).execution)
      (hi : (climbingAt count).execution.instruction? = some ⟨op, none⟩)
      (hop : op.straight = true) (hpc : (climbingAt count).execution.pc < 10) (hcount : count < 11)
      (hallows : climbingLoop.Allows (climbingAt 6).execution ⟨1, 4, 2⟩ (climbingAt count).execution
        (climbingAt (count + 1)).execution) :
      climbingLoop.Rounds (climbingAt 6).execution ⟨1, 4, 2⟩ 0 (climbingAt (count + 1)).execution := by
    refine h.proceed (hstays hi hop (Nat.lt_trans hpc (by decide))) (climbing_proceeds hcount) hallows ?_
    rintro ⟨-, hbefore, -⟩
    have hlast : (climbingAt count).execution.pc + 1 = 11 := hbefore
    omega
  have hsame {count : Nat} (h : (climbingAt count).execution.column "k" = [none, some (.int 1)])
      (h' : (climbingAt (count + 1)).execution.column "k" = [none, some (.int 1)]) (name : String)
      (hname : climbingLoop.counter = some name) :
      (climbingAt count).execution.SameAt 1 name (climbingAt (count + 1)).execution := by
    cases hname
    exact .of_eq (h'.trans h.symm)
  -- The counter is set and read, then the last value is evaluated.
  have hset := hwalk (.begin hopens (by decide) rfl rfl hclear) rfl rfl (by decide) (by decide)
    ⟨fun _ _ => .inr ⟨by decide, .inl rfl, by decide⟩, fun _ => by rintro ⟨⟩⟩
  have hread := hwalk hset rfl rfl (by decide) (by decide)
    ⟨fun name h => .inl (hsame rfl rfl name h), fun _ => by rintro ⟨⟩⟩
  have hlast := hwalk hread rfl rfl (by decide) (by decide)
    ⟨fun name h => .inl (hsame rfl rfl name h), fun _ _ => rfl⟩
  have hreaches : Machine.Reaches alone (climbingAt 6) (climbingAt 11) := by
    have hsteps := stepped_climbing (show 6 + 5 ≤ 11 by decide)
    rw [Machine.stepped_add, stepped_climbing (by decide)] at hsteps
    exact Machine.reaches_of_stepped hsteps
  have hrunning : (climbingAt 11).status.running = true := rfl
  obtain ⟨last, hreaches', -, -, hpc, hrounds⟩ :=
    (hcounts _ _ hlast).again (by decide) (.inl rfl) (by decide) discreet_alone rfl rfl hrunning
  exact ⟨climbingAt 6, last, hcareer, rfl, rfl, hreaches.trans hreaches', hpc, hrounds,
    hcounts _ _ hrounds⟩

def brim : Node :=
  .root [.countLoop (.int 9223372036854775807 none) (.int 9223372036854775807 none) none (some "i") []
    none] none

def brimProgram : Program := (brim.compile []).toOption.getD .empty

def brimLoop : CountLoop :=
  ⟨0, .int 9223372036854775807 none, .int 9223372036854775807 none, none, some "i", [], none⟩

def brimStart : Machine Unit := ⟨.start brimProgram, .started, ⟨.empty, ()⟩⟩

set_option maxRecDepth 20000 in
/-- Beyond the greatest integer the counter goes on as a float, and there is a second round. -/
theorem count_loop_overflows : brimProgram.Contains brimLoop.start brimLoop.node ∧
    ∃ first second : Machine Unit, brimStart.stepped alone 8 = some first ∧
      first.execution.pc = brimLoop.opening ∧
      first.execution.lookup? "i" = some (.int 9223372036854775807) ∧
      first.stepped alone 9 = some second ∧ second.execution.pc = brimLoop.opening ∧
      ∃ value, second.execution.lookup? "i" = some (.float value) := by
  have hcompile : brim.compile [] = .ok brimProgram := rfl
  refine ⟨.script hcompile ?_ ?_, _, _, rfl, rfl, rfl, rfl, rfl, _, rfl⟩
  · unfold Discreet
    decide
  · simp [brim, topLevel, locatedIn, located, brimLoop, CountLoop.node]

end DurableScript
