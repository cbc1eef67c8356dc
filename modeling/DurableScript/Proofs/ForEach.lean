import DurableScript.Proofs.LoopControl
import DurableScript.Proofs.Loops
import DurableScript.Proofs.PuttingOff

namespace DurableScript

open Node

namespace EachLoop

variable {loop : EachLoop} {program : Program} {count : Nat} {shape : Nat → Shape}
  {table : Table Procedure} {lower : List Level}

/-- Since `first` so many rounds have begun. The loop has neither ended nor has its frame returned
before. -/
inductive Rounds (loop : EachLoop) (first : Execution) : Nat → Execution → Prop where
  | first : Rounds loop first 0 first
  | proceed {count : Nat} {execution next : Execution} : Rounds loop first count execution →
      ¬ first.Leaves loop.after execution → execution.Proceeds next →
      ¬ first.Enters loop.opening execution next → Rounds loop first count next
  | enter {count : Nat} {execution next : Execution} : Rounds loop first count execution →
      ¬ first.Leaves loop.after execution → execution.Proceeds next →
      first.Enters loop.opening execution next → Rounds loop first (count + 1) next

def Between (loop : EachLoop) (index : Nat) : Prop :=
  loop.given ≤ index ∧ index < loop.given + 13 ∨ loop.closing ≤ index ∧ index < loop.after

def Owns (loop : EachLoop) (name : String) : Prop := ∃ role, name = loop.var role

def vars (loop : EachLoop) (array : Value) (count total : Nat) : List (String × Value) :=
  [(loop.var "a", array), (loop.var "i", .int (Int64.ofNat count)),
    (loop.var "c", .int (Int64.ofNat total))]

theorem owns_vars {array : Value} {total : Nat} :
    ∀ binding ∈ loop.vars array count total, loop.Owns binding.1 := by
  simp only [vars, List.forall_mem_cons]
  exact ⟨⟨_, rfl⟩, ⟨_, rfl⟩, ⟨_, rfl⟩, nofun⟩

def goal (loop : EachLoop) (array : Value) (items base : List Value) (count : Nat) : Spot :=
  match items[count]? with
  | some element => ⟨loop.given + 13, element :: base, loop.vars array count items.length⟩
  | none => ⟨loop.after, base, loop.vars array count items.length⟩

theorem goal_of_some (loop : EachLoop) (array : Value) {items : List Value} (base : List Value)
    {element : Value} (h : items[count]? = some element) :
    loop.goal array items base count =
      ⟨loop.given + 13, element :: base, loop.vars array count items.length⟩ := by
  rw [goal, h]

theorem goal_of_none (loop : EachLoop) (array : Value) {items : List Value} (base : List Value)
    (h : items[count]? = none) :
    loop.goal array items base count = ⟨loop.after, base, loop.vars array count items.length⟩ := by
  rw [goal, h]

structure Lists (array : Value) (items : List Value) : Prop where
  elements : Builtin.arrayCount.items array = .ok items
  small : items.length < 2 ^ 63

section Passes

variable {loop : EachLoop} {program : Program} {array : Value} {items : List Value}

theorem passes_test (h : loop.Laid program) (hlists : Lists array items) (base : List Value)
    {count : Nat} (hcount : count ≤ items.length) :
    program.Passes loop.Between loop.Owns
      ⟨loop.given + 6, base, loop.vars array count items.length⟩
      (loop.goal array items base count) := by
  obtain ⟨h₀, h₁, h₂, h₃, h₄, h₅, h₆, -⟩ := h.tested
  have hsmall := hlists.small
  obtain ⟨hget, hplain⟩ := Builtin.items_eq hlists.elements .arrayGet
  have harray : (loop.var "a", array) ∈ loop.vars array count items.length := by simp [vars]
  have hindex : (loop.var "i", Value.int (Int64.ofNat count)) ∈
    loop.vars array count items.length := by simp [vars]
  have htotal : (loop.var "c", Value.int (Int64.ofNat items.length)) ∈
    loop.vars array count items.length := by simp [vars]
  have hbetween (k : Nat) (hk : k < 13) : loop.Between (loop.given + k) := .inl (by omega)
  refine .cons h₀ (hbetween 6 (by omega)) (.read hindex rfl) owns_vars ?_
  refine .cons h₁ (hbetween 7 (by omega)) (.read htotal rfl) owns_vars ?_
  refine .cons h₂ (hbetween 8 (by omega))
    (.operate fun objects => Value.apply_lt_ofNat objects (by omega) hsmall) owns_vars ?_
  obtain hlt | rfl := Nat.lt_or_eq_of_le hcount
  · have hitem := List.getElem?_eq_getElem hlt
    rw [goal_of_some loop array base hitem]
    refine .cons h₃ (hbetween 9 (by omega)) (.pass (decide_eq_true hlt)) owns_vars ?_
    refine .cons h₄ (hbetween 10 (by omega)) (.read hindex rfl) owns_vars ?_
    refine .cons h₅ (hbetween 11 (by omega)) (.read harray hplain) owns_vars ?_
    exact .cons h₆ (hbetween 12 (by omega))
      (.builtin fun signals => Builtin.run_arrayGet hget (by omega) hitem signals) owns_vars .refl
  · rw [goal_of_none loop array base (List.getElem?_eq_none (Nat.le_refl _))]
    exact .cons h₃ (hbetween 9 (by omega)) (.branch (decide_eq_false (Nat.lt_irrefl _))) owns_vars .refl

theorem passes_given (h : loop.Laid program) (hlists : Lists array items) (base : List Value) :
    program.Passes loop.Between loop.Owns ⟨loop.given, array :: base, []⟩
      (loop.goal array items base 0) := by
  obtain ⟨h₀, h₁, h₂, h₃, h₄, h₅, -⟩ := h.opened
  obtain ⟨-, hplain⟩ := Builtin.items_eq hlists.elements .arrayGet
  have hcount (signals : List String) :
      Builtin.arrayCount.run [array] signals = .ok (.int (Int64.ofNat items.length)) := by
    have hrun : Builtin.arrayCount.run [array] signals =
      (Builtin.arrayCount.items array).map fun items => .int (Int64.ofNat items.length) := rfl
    rw [hrun, hlists.elements]
    rfl
  have hbetween (k : Nat) (hk : k < 13) : loop.Between (loop.given + k) := .inl (by omega)
  have hknows₁ : ∀ binding ∈ [(loop.var "a", array)], loop.Owns binding.1 :=
    List.forall_mem_cons.2 ⟨⟨_, rfl⟩, nofun⟩
  have hknows₂ : ∀ binding ∈ [(loop.var "a", array), (loop.var "i", .int 0)], loop.Owns binding.1 :=
    List.forall_mem_cons.2 ⟨⟨_, rfl⟩, List.forall_mem_cons.2 ⟨⟨_, rfl⟩, nofun⟩⟩
  refine .cons h₀ (hbetween 0 (by omega)) (.set (by simp)) hknows₁ ?_
  refine .cons h₁ (hbetween 1 (by omega)) (.value (.int 0)) hknows₁ ?_
  refine .cons h₂ (hbetween 2 (by omega)) (.set (by simp [Literal.value])) hknows₂ ?_
  refine .cons h₃ (hbetween 3 (by omega)) (.read (by simp) hplain) hknows₂ ?_
  refine .cons h₄ (hbetween 4 (by omega)) (.builtin hcount) hknows₂ ?_
  refine .cons h₅ (hbetween 5 (by omega)) (.set ?_) owns_vars
    (passes_test h hlists base (Nat.zero_le _))
  simp

theorem passes_closing (h : loop.Laid program) (hlists : Lists array items) (base : List Value)
    {count : Nat} (hcount : count < items.length) :
    program.Passes loop.Between loop.Owns ⟨loop.closing, base, loop.vars array count items.length⟩
      (loop.goal array items base (count + 1)) := by
  obtain ⟨h₀, h₁, h₂, h₃, h₄, -⟩ := h.closed
  have hsmall := hlists.small
  have hindex : (loop.var "i", Value.int (Int64.ofNat count)) ∈
    loop.vars array count items.length := by simp [vars]
  have hbetween (k : Nat) (hk : k < 5) : loop.Between (loop.closing + k) :=
    .inr ⟨by omega, by rw [after]; omega⟩
  refine .cons h₀ (hbetween 0 (by omega)) (.value (.int 1)) owns_vars ?_
  refine .cons h₁ (hbetween 1 (by omega)) (.read hindex rfl) owns_vars ?_
  refine .cons h₂ (hbetween 2 (by omega))
    (.operate fun objects => Value.apply_add_one_ofNat objects (by omega)) owns_vars ?_
  refine .cons h₃ (hbetween 3 (by omega)) (.set ?_) owns_vars
    (.cons h₄ (hbetween 4 (by omega)) .jump owns_vars (passes_test h hlists base hcount))
  simp [vars]

end Passes

structure Staged (loop : EachLoop) (program : Program) (shape : Nat → Shape) (table : Table Procedure)
    (lower : List Level) : Prop where
  compiled : Compiled program shape table
  home : Along (SetAtHome shape 0) 0 program.code.toList
  laid : loop.Laid program
  names : Discreet loop.node.names
  seat : (shape loop.start).place = .top ↔ lower.length = 0

theorem Staged.item (h : loop.Staged program shape table lower) : isHidden loop.item = false := by
  have hnames := h.names
  simp only [node, Node.names, Discreet.append_iff] at hnames
  exact hnames.1 loop.item List.mem_cons_self

theorem Staged.discreet_body (h : loop.Staged program shape table lower) :
    Discreet (namesIn loop.body) := by
  have hnames := h.names
  simp only [node, Node.names, Discreet.append_iff] at hnames
  exact hnames.2

theorem Staged.transit_item (h : loop.Staged program shape table lower) (array element : Value)
    (base : List Value) (count total : Nat) :
    Transit (.setVariable loop.item)
      ⟨loop.given + 13, element :: base, loop.vars array count total⟩
      ⟨loop.opening, base, loop.vars array count total⟩ := by
  refine .set fun binding hmem => .inr ⟨hmem, fun hname => ?_⟩
  obtain ⟨role, hown⟩ := owns_vars binding hmem
  have hhidden := isHidden_loopVariable loop.start role
  rw [← var, ← hown, hname] at hhidden
  cases hhidden.symm.trans h.item

inductive Stage (loop : EachLoop) (program : Program) (lower : List Level) (array : Value)
    (items : List Value) : Nat → Execution → Prop where
  | between {count : Nat} {spot : Spot} {base : List Value} {execution : Execution} :
      execution.At lower spot → (∀ binding ∈ spot.vars, loop.Owns binding.1) →
      program.Passes loop.Between loop.Owns spot (loop.goal array items base count) →
      count ≤ items.length → Stage loop program lower array items count execution
  | round {count : Nat} {execution : Execution} :
      execution.Inside lower loop.opening loop.closing [] →
      execution.Carries lower.length (loop.vars array count items.length) → count < items.length →
      ¬ (execution.depth = lower.length + 1 ∧ execution.pc = loop.closing) →
      Stage loop program lower array items (count + 1) execution

section Stages

variable {loop : EachLoop} {program : Program} {shape : Nat → Shape} {table : Table Procedure}
  {lower : List Level} {array : Value} {items : List Value} {count : Nat}
  {first execution next : Execution}

theorem Stage.of_inside (hlaid : loop.Laid program) (hlists : Lists array items)
    (hin : execution.Inside lower loop.opening loop.closing [])
    (hcarries : execution.Carries lower.length (loop.vars array count items.length))
    (hcount : count < items.length) : Stage loop program lower array items (count + 1) execution := by
  by_cases hend : execution.depth = lower.length + 1 ∧ execution.pc = loop.closing
  · obtain ⟨base, hlevels, -⟩ := hin.levels_eq hend.1
    rw [hend.2, List.append_nil] at hlevels
    exact .between ⟨hlevels, hcarries⟩ owns_vars (passes_closing hlaid hlists base hcount) hcount
  · exact .round hin hcarries hcount hend

theorem Stage.between_turn {spot : Spot} {base : List Value}
    (hstaged : loop.Staged program shape table lower) (hlists : Lists array items)
    (hfirst : first.depth = lower.length + 1) (horderly : execution.Orderly program shape table)
    (hleaves : ¬ first.Leaves loop.after execution) (hturn : execution.Turn next)
    (hat : execution.At lower spot) (howns : ∀ binding ∈ spot.vars, loop.Owns binding.1)
    (hpasses : program.Passes loop.Between loop.Owns spot (loop.goal array items base count))
    (hcount : count ≤ items.length) :
    (¬ first.Enters loop.opening execution next → Stage loop program lower array items count next) ∧
      (first.Enters loop.opening execution next →
        Stage loop program lower array items (count + 1) next) := by
  have hruns := horderly.resting.runs
  have hpc := hat.pc_eq
  have hsame (hlevels : next.levels = execution.levels) :
      ∀ binding ∈ spot.vars, execution.SameAt lower.length binding.1 next := by
    intro binding hmem
    obtain ⟨role, hname⟩ := howns binding hmem
    rw [hname]
    refine hturn.sameAt_of_levels_eq hlevels (isHidden_loopVariable _ _) ?_
    exact hat.depth_eq ▸ Nat.lt_succ_self _
  have hclear {vars : List (String × Value)} (hvars : ∀ binding ∈ vars, loop.Owns binding.1) :
      ∀ binding ∈ vars, execution.Clear lower.length binding.1 := by
    intro binding hmem
    obtain ⟨role, hname⟩ := hvars binding hmem
    rw [hname]
    exact horderly.clear hstaged.seat role
  obtain rfl | ⟨mid, htransits, hrest⟩ := hpasses.cases_head
  · cases hitem : items[count]? with
    | none =>
      rw [goal_of_none loop array base hitem] at hpc
      exact absurd ⟨hat.depth_eq.trans hfirst.symm, .inl hpc⟩ hleaves
    | some element =>
      have hlt : count < items.length := (List.getElem?_eq_some_iff.1 hitem).1
      rw [goal_of_some loop array base hitem] at hat hpc hsame
      have ht := hstaged.transit_item array element base count items.length
      have hi' := (Execution.instruction?_eq hruns hpc).trans hstaged.laid.assigned
      obtain hstays | hgoes := hturn.at_of_transit ht hat hi' nofun (hclear owns_vars) hsame
      · refine ⟨fun _ => ?_, fun henters => ?_⟩
        · have hgoal := goal_of_some loop array base hitem
          exact .between (hgoal ▸ hstays) howns hpasses hcount
        · have hstill : next.pc = loop.given + 13 := hstays.pc_eq
          exact absurd (hstill.symm.trans henters.2.2) (Nat.ne_of_lt (Nat.lt_succ_self _))
      · refine ⟨fun hnot => ?_, fun _ => ?_⟩
        · refine absurd ⟨hat.depth_eq.trans hfirst.symm, ?_, hgoes.pc_eq⟩ hnot
          rw [hpc]
          rfl
        · refine .of_inside hstaged.laid hlists ⟨[], loop.opening, base, ?_, Nat.le_refl _, ?_⟩
            hgoes.carries hlt
          · rw [hgoes.levels, List.append_nil]
            rfl
          · exact Nat.le_add_right ..
  · obtain ⟨op, pos, hi, ht⟩ := htransits.transit
    have hi' := (Execution.instruction?_eq hruns hpc).trans hi
    have htargets := (hstaged.compiled.fits_at hi).targets_le
    rw [← hruns] at htargets
    refine ⟨fun _ => ?_, fun henters => ?_⟩
    · obtain hstays | hgoes := hturn.at_of_transit ht hat hi' htargets (hclear htransits.knows) hsame
      · exact .between hstays howns hpasses hcount
      · exact .between hgoes htransits.knows hrest hcount
    · have hbefore := henters.2.1
      have hbetween := htransits.passes
      rw [hpc] at hbefore
      have hspan := loop.span
      unfold Between at hbetween
      omega

theorem Stage.round_turn (hstaged : loop.Staged program shape table lower)
    (hlists : Lists array items) (hfirst : first.depth = lower.length + 1)
    (horderly : execution.Orderly program shape table)
    (hleaves : ¬ first.Leaves loop.after execution) (hturn : execution.Turn next)
    (hin : execution.Inside lower loop.opening loop.closing [])
    (hcarries : execution.Carries lower.length (loop.vars array count items.length))
    (hcount : count < items.length)
    (hend : ¬ (execution.depth = lower.length + 1 ∧ execution.pc = loop.closing)) :
    Stage loop program lower array items (count + 1) next := by
  have hruns := horderly.resting.runs
  have hin' : next.Inside lower loop.opening loop.closing [] :=
    hturn.inside_body hstaged.laid.body hruns hfirst hleaves hin hend
  refine .of_inside hstaged.laid hlists hin' (hcarries.of_sameAt fun binding hmem => ?_) hcount
  obtain ⟨role, hname⟩ := owns_vars binding hmem
  rw [hname]
  have hspan := loop.span
  exact hturn.sameAt hstaged.home horderly hstaged.seat hin.lt_depth hin'.lt_depth fun hdepth =>
    hin.sets_other hstaged.laid.body hruns hstaged.discreet_body (by omega) hdepth hend role

section

variable (h : Stage loop program lower array items count execution)
include h

theorem Stage.le_length : count ≤ items.length := by
  cases h with
  | between _ _ _ hcount | round _ _ hcount => exact hcount

theorem Stage.lt_depth : lower.length < execution.depth := by
  cases h with
  | between hat => exact hat.depth_eq ▸ Nat.lt_succ_self _
  | round hin => exact hin.lt_depth

theorem Stage.exists_between (hdepth : execution.depth = lower.length + 1)
    (hpc : execution.pc < loop.opening ∨ loop.closing ≤ execution.pc) :
    ∃ spot base, execution.At lower spot ∧
      program.Passes loop.Between loop.Owns spot (loop.goal array items base count) := by
  cases h with
  | between hat _ hpasses => exact ⟨_, _, hat, hpasses⟩
  | round hin _ _ hend =>
    obtain ⟨-, -, hlow, hhigh⟩ := hin.levels_eq hdepth
    have hne : execution.pc ≠ loop.closing := fun hpc => hend ⟨hdepth, hpc⟩
    omega

end

theorem index_of_passes {spot : Spot} {base : List Value}
    (h : program.Passes loop.Between loop.Owns spot (loop.goal array items base count)) :
    loop.Between spot.index ∨
      (∃ element, items[count]? = some element ∧ spot =
        ⟨loop.given + 13, element :: base, loop.vars array count items.length⟩) ∨
      items[count]? = none ∧ spot.index = loop.after := by
  obtain rfl | ⟨mid, htransits, -⟩ := h.cases_head
  · right
    cases hitem : items[count]? with
    | none => exact .inr ⟨rfl, by rw [goal_of_none loop array base hitem]⟩
    | some element => exact .inl ⟨element, rfl, goal_of_some loop array base hitem⟩
  · exact .inl htransits.passes

section

variable (h : Stage loop program lower array items count execution)
include h

theorem Stage.pc_within (hdepth : execution.depth = lower.length + 1) :
    loop.given ≤ execution.pc ∧ execution.pc ≤ loop.after := by
  have hspan := loop.span
  cases h with
  | between hat _ hpasses =>
    rw [hat.pc_eq]
    obtain hbetween | ⟨element, -, rfl⟩ | ⟨-, hend⟩ := index_of_passes hpasses
    · unfold Between at hbetween
      omega
    · dsimp only
      omega
    · omega
  | round hin =>
    obtain ⟨-, -, hlow, hhigh⟩ := hin.levels_eq hdepth
    omega

theorem Stage.eq_length (hdepth : execution.depth = lower.length + 1)
    (hpc : execution.pc = loop.after) :
    count = items.length := by
  have hspan := loop.span
  obtain ⟨spot, base, hat, hpasses⟩ := h.exists_between hdepth (.inr (by omega))
  rw [hat.pc_eq] at hpc
  obtain hbetween | ⟨element, -, rfl⟩ | ⟨hitem, -⟩ := index_of_passes hpasses
  · unfold Between at hbetween
    omega
  · dsimp only at hpc
    omega
  · exact Nat.le_antisymm h.le_length (List.getElem?_eq_none_iff.1 hitem)

theorem Stage.sets_of_enters (hlaid : loop.Laid program) (hruns : execution.program = program)
    (hfirst : first.depth = lower.length + 1) (hturn : execution.Turn next)
    (henters : first.Enters loop.opening execution next) :
    ∃ element, items[count]? = some element ∧ execution.Sets loop.item element next := by
  obtain ⟨hdepth, hbefore, hafter⟩ := henters
  have hpc : execution.pc = loop.given + 13 := Nat.succ.inj hbefore
  have hspan := loop.span
  obtain ⟨spot, base, hat, hpasses⟩ := h.exists_between (hdepth.trans hfirst) (.inl (by omega))
  rw [hat.pc_eq] at hpc
  obtain hbetween | ⟨element, hitem, rfl⟩ | ⟨-, hend⟩ := index_of_passes hpasses
  · unfold Between at hbetween
    omega
  · have hi' := (Execution.instruction?_eq hruns hat.pc_eq).trans hlaid.assigned
    obtain ⟨value, hsets⟩ := hturn.sets hi' (by omega)
    obtain ⟨rest, hstack⟩ := hsets.stack
    have hvalue := hat.stack_eq.symm.trans hstack
    cases hvalue
    exact ⟨element, hitem, hsets⟩
  · omega

theorem Stage.turn (hstaged : loop.Staged program shape table lower) (hlists : Lists array items)
    (hfirst : first.depth = lower.length + 1) (horderly : execution.Orderly program shape table)
    (hleaves : ¬ first.Leaves loop.after execution) (hturn : execution.Turn next) :
    (¬ first.Enters loop.opening execution next → Stage loop program lower array items count next) ∧
      (first.Enters loop.opening execution next →
        Stage loop program lower array items (count + 1) next) := by
  cases h with
  | between hat howns hpasses hcount =>
    exact between_turn hstaged hlists hfirst horderly hleaves hturn hat howns hpasses hcount
  | round hin hcarries hcount hend =>
    refine ⟨fun _ => round_turn hstaged hlists hfirst horderly hleaves hturn hin hcarries hcount hend,
      fun henters => ?_⟩
    obtain ⟨-, -, hlow, -⟩ := hin.levels_eq (henters.1.trans hfirst)
    have hbefore := henters.2.1
    omega

end

theorem Rounds.stage (h : loop.Rounds first count execution)
    (hstaged : loop.Staged program shape table lower) (hlists : Lists array items)
    {base : List Value} (hat : first.At lower ⟨loop.given, array :: base, []⟩)
    (horderly : first.Orderly program shape table) :
    Stage loop program lower array items count execution ∧
      execution.Orderly program shape table := by
  induction h with
  | first =>
    exact ⟨.between hat nofun (passes_given hstaged.laid hlists base) (Nat.zero_le _), horderly⟩
  | proceed _ hleaves hproceeds henters ih =>
    obtain ⟨hstage, horderly⟩ := ih
    have hturn := hproceeds.turn hstaged.compiled horderly.resting
    exact ⟨(hstage.turn hstaged hlists hat.depth_eq horderly hleaves hturn).1 henters,
      horderly.proceeds hstaged.compiled hstaged.home hproceeds⟩
  | enter _ hleaves hproceeds henters ih =>
    obtain ⟨hstage, horderly⟩ := ih
    have hturn := hproceeds.turn hstaged.compiled horderly.resting
    exact ⟨(hstage.turn hstaged hlists hat.depth_eq horderly hleaves hturn).2 henters,
      horderly.proceeds hstaged.compiled hstaged.home hproceeds⟩

theorem Rounds.exists_reaches (h : loop.Rounds first count execution)
    (hstaged : loop.Staged program shape table lower) (hlists : Lists array items)
    {base : List Value} (hat : first.At lower ⟨loop.given, array :: base, []⟩)
    (horderly : first.Orderly program shape table) {H : Type} {setting : Setting H}
    {machine : Machine H} (hdiscreet : setting.Discreet) (hlimit : setting.limits.maxCycles = none)
    (hmachine : machine.execution = execution) (hrunning : machine.status.running = true)
    (hdepth : execution.depth = first.depth)
    (hpc : execution.pc < loop.opening ∨ loop.closing ≤ execution.pc) :
    ∃ last, Machine.Reaches setting machine last ∧ last.status.running = true ∧
      last.execution.depth = first.depth ∧
      (loop.Rounds first (count + 1) last.execution ∧ last.execution.pc = loop.opening ∨
        loop.Rounds first count last.execution ∧ last.execution.pc = loop.after) := by
  subst hmachine
  have hspan := loop.span
  have hclear (execution : Execution) (h : loop.Rounds first count execution) :
      execution.program = program ∧ ∀ name, loop.Owns name → execution.Clear lower.length name := by
    obtain ⟨-, horderly⟩ := h.stage hstaged hlists hat horderly
    refine ⟨horderly.resting.runs, ?_⟩
    rintro name ⟨role, rfl⟩
    exact horderly.clear hstaged.seat role
  obtain ⟨hstage, -⟩ := h.stage hstaged hlists hat horderly
  obtain ⟨spot, base, hhere, hpasses⟩ := hstage.exists_between (hdepth.trans hat.depth_eq) hpc
  obtain ⟨last, hreaches, hrunning, hlast, hrounds⟩ :=
    Machine.exists_reaches_of_passes (R := loop.Rounds first count) hpasses hstaged.compiled hdiscreet
      hlimit hrunning hhere h hclear fun execution after spot next h htransits hat hproceeds _ _ _ => by
        have hbetween := htransits.passes
        rw [← hat.pc_eq] at hbetween
        unfold Between at hbetween
        refine h.proceed ?_ hproceeds ?_
        · rintro ⟨-, hpc | ⟨hasValue, pos, hret⟩⟩
          · omega
          · rw [Execution.instruction?, (hclear _ h).1, hat.pc_eq] at hret
            exact htransits.ne_ret hasValue pos hret
        · rintro ⟨-, hpc, -⟩
          omega
  cases hitem : items[count]? with
  | none =>
    rw [goal_of_none loop array base hitem] at hlast
    exact ⟨last, hreaches, hrunning, hlast.depth_eq.trans hat.depth_eq.symm, .inr ⟨hrounds, hlast.pc_eq⟩⟩
  | some element =>
    rw [goal_of_some loop array base hitem] at hlast
    have hi := hstaged.laid.assigned
    have htransits : program.Transits (fun _ => True) loop.Owns _ _ :=
      ⟨trivial, owns_vars, _, _, hi, hstaged.transit_item array element base count items.length⟩
    obtain ⟨hruns, hclear⟩ := hclear _ hrounds
    obtain ⟨instruction, entered, hn, hs, hrunning, hentered, -⟩ :=
      Machine.exists_step_of_transits htransits hstaged.compiled hlimit hruns hrunning hlast hclear
    have hpc : last.execution.pc = loop.given + 13 := hlast.pc_eq
    refine ⟨entered, hreaches.trans (.single hn hs), hrunning,
      hentered.depth_eq.trans hat.depth_eq.symm, .inl ⟨?_, hentered.pc_eq⟩⟩
    refine hrounds.enter ?_ (.step hdiscreet hn hs)
      ⟨hlast.depth_eq.trans hat.depth_eq.symm, by omega, hentered.pc_eq⟩
    rintro ⟨-, hend | ⟨hasValue, pos, hret⟩⟩
    · omega
    · rw [Execution.instruction?, hruns, hpc] at hret
      cases hi.symm.trans hret

end Stages

/-- What a loop has come to when so many rounds have begun. -/
structure Visits (loop : EachLoop) (first : Execution) (items : List Value) (count : Nat)
    (execution : Execution) : Prop where
  bounded : count ≤ items.length
  deep : first.depth ≤ execution.depth
  within : execution.depth = first.depth → loop.given ≤ execution.pc ∧ execution.pc ≤ loop.after
  /-- The next round begins with the assignment of the next element. -/
  sets : ∀ next, execution.Proceeds next → first.Enters loop.opening execution next →
    ∃ element, items[count]? = some element ∧ execution.Sets loop.item element next
  /-- At the end each element has had its round. -/
  complete : execution.depth = first.depth → execution.pc = loop.after → count = items.length
  /-- Out of the body the loop goes on to its next round, or it ends. -/
  goesOn : ∀ {H : Type} {setting : Setting H} {machine : Machine H}, setting.Discreet →
    setting.limits.maxCycles = none → machine.execution = execution →
    machine.status.running = true → execution.depth = first.depth →
    execution.pc < loop.opening ∨ loop.closing ≤ execution.pc →
    ∃ last, Machine.Reaches setting machine last ∧ last.status.running = true ∧
      last.execution.depth = first.depth ∧
      (loop.Rounds first (count + 1) last.execution ∧ last.execution.pc = loop.opening ∨
        loop.Rounds first count last.execution ∧ last.execution.pc = loop.after)

end EachLoop

/-- Once the value of a loop is on the stack, in the global scope or in any call, the rounds of the body
begin with its elements, one after another, and with none left the loop ends. Nothing that happens in
the rounds changes this: not what the host writes, not suspensions, other loops or calls, nor this same
loop in other calls. -/
theorem each_loop_visits_every_element {program : Program} {loop : EachLoop}
    (hloop : program.Contains loop.start loop.node) {first : Execution}
    (hcareer : Execution.Career program first) (hpc : first.pc = loop.given) {array : Value}
    {items : List Value} (hstack : first.frame.stack.head? = some array)
    (hlists : EachLoop.Lists array items) {count : Nat} {execution : Execution}
    (h : loop.Rounds first count execution) : loop.Visits first items count execution := by
  obtain ⟨shape, table, hc, hstart, hhome, hhas, hnames⟩ := hloop.exists_setAtHome
  have horderly := hcareer.orderly hc hstart hhome
  have hlaid := EachLoop.Laid.of_has hhas
  have hi : first.instruction? = some ⟨.setVariable (loop.var "a"), loop.pos⟩ := by
    rw [Execution.instruction?, horderly.resting.runs, hpc]
    exact hlaid.opened.1
  have hstaged : loop.Staged program shape table first.lower :=
    ⟨hc, hhome, hlaid, hnames, horderly.resting.seat hhome hi⟩
  obtain ⟨base, hstack⟩ := List.head?_eq_some_iff.1 hstack
  have hat : first.At first.lower ⟨loop.given, array :: base, []⟩ := by
    refine ⟨?_, List.forall_mem_nil _⟩
    rw [Execution.levels_eq_cons, hpc, hstack]
  obtain ⟨hstage, hdone⟩ := h.stage hstaged hlists hat horderly
  have hdepth := hat.depth_eq
  exact {
    bounded := hstage.le_length
    deep := hdepth ▸ hstage.lt_depth
    within := fun hsame => hstage.pc_within (hsame.trans hdepth)
    sets := fun next hproceeds henters =>
      hstage.sets_of_enters hlaid hdone.resting.runs hdepth (hproceeds.turn hc hdone.resting) henters
    complete := fun hsame => hstage.eq_length (hsame.trans hdepth)
    goesOn := fun hdiscreet hlimit hmachine hrunning hsame hout =>
      h.exists_reaches hstaged hlists hat horderly hdiscreet hlimit hmachine hrunning hsame hout }

def walking : Node :=
  .root [.procedure "walk" ["list"]
    [.eachLoop (.ident "list" none) "part" [.call "walk" [.ident "part" none] none] none] none,
    .call "walk" [.ident "forest" none] none] none

def walkingProgram : Program := (walking.compile []).toOption.getD .empty

def walkingLoop : EachLoop :=
  ⟨3, .ident "list" none, "part", [.call "walk" [.ident "part" none] none], none⟩

def walkingStart : Machine Unit :=
  ⟨(HostWrite.toGlobals "forest" (.list [.list [.list [], .list []]])).run (.start walkingProgram),
    .started, ⟨.empty, ()⟩⟩

theorem each_loop_visits_every_element_walking :
    ∃ first last : Machine Unit, Execution.Career walkingProgram first.execution ∧
      first.execution.depth = 3 ∧
      first.execution.frame.stack.head? = some (.list [.list [], .list []]) ∧
      Machine.Reaches alone first last ∧ last.execution.pc = walkingLoop.opening ∧
      walkingLoop.Rounds first.execution 1 last.execution ∧
      walkingLoop.Visits first.execution [.list [], .list []] 1 last.execution := by
  have hcompile : walking.compile [] = .ok walkingProgram := rfl
  have hloop : walkingProgram.Contains walkingLoop.start walkingLoop.node := by
    refine .script hcompile ?_ ?_
    · unfold Discreet
      decide
    · simp [walking, topLevel, locatedIn, located, walkingLoop, EachLoop.node]
  obtain ⟨first, hfirst, hrunning, hdepth, hpc, hstack⟩ :
      ∃ first, walkingStart.stepped alone 25 = some first ∧ first.status.running = true ∧
        first.execution.depth = 3 ∧ first.execution.pc = walkingLoop.given ∧
        first.execution.frame.stack.head? = some (.list [.list [], .list []]) :=
    ⟨_, rfl, rfl, rfl, rfl, rfl⟩
  have hstart : Execution.Career walkingProgram walkingStart.execution :=
    Execution.Career.start.proceed
      (.write (.toGlobals "forest" (.list [.list [.list [], .list []]])) rfl)
  have hcareer := hstart.reaches discreet_alone (Machine.reaches_of_stepped hfirst)
  have hlists : EachLoop.Lists (.list [.list [], .list []]) [.list [], .list []] := ⟨rfl, by decide⟩
  have hvisits := each_loop_visits_every_element hloop hcareer hpc hstack hlists .first
  obtain ⟨last, hreaches, -, hlevel, ⟨hrounds, hopening⟩ | ⟨hrounds, hend⟩⟩ :=
    hvisits.goesOn discreet_alone rfl rfl hrunning rfl (.inl (by rw [hpc]; decide))
  · exact ⟨first, last, hcareer, hdepth, hstack, hreaches, hopening, hrounds,
      each_loop_visits_every_element hloop hcareer hpc hstack hlists hrounds⟩
  · have hover := each_loop_visits_every_element hloop hcareer hpc hstack hlists hrounds
    cases hover.complete hlevel hend

end DurableScript
