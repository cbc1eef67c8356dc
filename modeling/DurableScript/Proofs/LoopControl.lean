import DurableScript.Proofs.LoopCode
import DurableScript.Proofs.LoopVariables

namespace DurableScript

open Node

/-! Variables of one frame. -/

namespace Execution

variable {execution after : Execution} {level : Nat} {name : String} {value : Value}

theorem instruction?_eq {program : Program} {index : Nat} (hruns : execution.program = program)
    (hpc : execution.pc = index) : execution.instruction? = program.code[index]? := by
  rw [instruction?, hruns, hpc]

structure SameAt (level : Nat) (name : String) (execution after : Execution) : Prop where
  outer : (after.column name)[0]? = (execution.column name)[0]?
  own : (after.column name)[level]? = (execution.column name)[level]?

theorem SameAt.of_eq (h : after.column name = execution.column name) :
    execution.SameAt level name after :=
  ⟨congrArg (·[0]?) h, congrArg (·[level]?) h⟩

def Clear (level : Nat) (name : String) (execution : Execution) : Prop :=
  level = 0 ∨ (execution.column name)[0]? = some none ∨ (execution.column name)[level]? = some none

/-- What a frame reads and sets under the name is one variable, with this value. -/
inductive Binds (level : Nat) (name : String) (value : Value) (execution : Execution) : Prop where
  | own : (execution.column name)[level]? = some (some value) →
      level = 0 ∨ (execution.column name)[0]? = some none → Binds level name value execution
  | outer : (execution.column name)[0]? = some (some value) →
      (execution.column name)[level]? = some none → Binds level name value execution

def Carries (level : Nat) (vars : List (String × Value)) (execution : Execution) : Prop :=
  ∀ binding ∈ vars, execution.Binds level binding.1 binding.2

theorem Binds.clear (h : execution.Binds level name value) : execution.Clear level name := by
  cases h with
  | own _ houter => exact houter.imp_right .inl
  | outer _ hown => exact .inr (.inr hown)

theorem Binds.of_sameAt (h : execution.Binds level name value)
    (hsame : execution.SameAt level name after) : after.Binds level name value := by
  cases h with
  | own hown houter => exact .own (hsame.own.trans hown) (houter.imp_right hsame.outer.trans)
  | outer houter hown => exact .outer (hsame.outer.trans houter) (hsame.own.trans hown)

theorem Clear.of_sameAt (h : execution.Clear level name)
    (hsame : execution.SameAt level name after) : after.Clear level name :=
  h.imp_right (Or.imp hsame.outer.trans hsame.own.trans)

theorem Carries.of_sameAt {vars : List (String × Value)} (h : execution.Carries level vars)
    (hsame : ∀ binding ∈ vars, execution.SameAt level binding.1 after) : after.Carries level vars :=
  fun binding hmem => (h binding hmem).of_sameAt (hsame binding hmem)

theorem getElem?_column (execution : Execution) (name : String) :
    (execution.column name)[execution.calls.length]? = some (execution.frame.get? name) := by
  obtain ⟨_, _, calls, _, _, _⟩ := execution
  cases calls with
  | nil => rfl
  | cons call rest => simp [column, frames, frame]

theorem Binds.lookup?_eq (h : execution.Binds level name value) (hlevel : execution.calls.length = level) :
    execution.lookup? name = some value := by
  subst hlevel
  unfold lookup?
  cases h with
  | own hown =>
    rw [getElem?_column, Option.some.injEq] at hown
    rw [hown, Option.some_or]
  | outer houter hown =>
    rw [getElem?_column, Option.some.injEq] at hown
    rw [head?_column, Option.some.injEq] at houter
    rw [hown, houter, Option.none_or]

theorem Clear.binds_assign (h : execution.Clear level name)
    (hlevel : execution.calls.length = level) (value : Value) :
    (execution.assign name value).Binds level name value := by
  have hcolumn := column_assign execution name value
  have hlt : level < (execution.column name).length := by
    rw [length_column, depth, hlevel]
    exact Nat.lt_succ_self level
  rw [hlevel] at hcolumn
  have houter := execution.head?_column name
  cases hglobal : execution.globals.get? name with
  | none =>
    rw [hglobal] at hcolumn houter
    simp only [Option.isSome_none, Bool.false_eq_true, if_false] at hcolumn
    refine .own (by rw [hcolumn, List.getElem?_set_self hlt]) ?_
    by_cases hzero : level = 0
    · exact .inl hzero
    · rw [hcolumn, List.getElem?_set_ne hzero, houter]
      exact .inr rfl
  | some old =>
    rw [hglobal] at hcolumn houter
    simp only [Option.isSome_some, if_true] at hcolumn
    have hset : ((execution.assign name value).column name)[0]? = some (some value) := by
      rw [hcolumn, List.getElem?_set_self (Nat.lt_of_le_of_lt (Nat.zero_le level) hlt)]
    by_cases hzero : level = 0
    · exact .own (hzero ▸ hset) (.inl hzero)
    · refine .outer hset ?_
      rw [hcolumn, List.getElem?_set_ne (Ne.symm hzero)]
      obtain h | h | h := h
      · exact absurd h hzero
      · cases houter.symm.trans h
      · exact h

theorem Sets.binds (h : execution.Sets name value after) (hclear : execution.Clear level name)
    (hlevel : execution.calls.length = level) : after.Binds level name value := by
  have hdropped : execution.SameAt level name (execution.dropOperands 1) :=
    .of_eq (execution.column_dropOperands 1 name)
  have hcalls : (execution.dropOperands 1).calls.length = level :=
    (Nat.succ.inj (execution.stays_dropOperands 1).depth_eq).trans hlevel
  exact ((hclear.of_sameAt hdropped).binds_assign hcalls value).of_sameAt
    (.of_eq (h.frames.column_eq name))

end Execution

/-! Code that depends on known variables only. -/

/-- Where a frame stands, with its operands and some of its variables. -/
structure Spot where
  index : Nat
  stack : List Value
  vars : List (String × Value)

inductive Transit : Op → Spot → Spot → Prop where
  | value {index : Nat} {stack : List Value} {vars : List (String × Value)} (literal : Literal) :
      Transit (.pushValue literal) ⟨index, stack, vars⟩ ⟨index + 1, literal.value :: stack, vars⟩
  | read {index : Nat} {stack : List Value} {vars : List (String × Value)} {name : String}
      {value : Value} : (name, value) ∈ vars → value.object? = none →
      Transit (.pushVariable name) ⟨index, stack, vars⟩ ⟨index + 1, value :: stack, vars⟩
  | operate {index : Nat} {stack : List Value} {vars : List (String × Value)} {operator : Operator}
      {left right value : Value} :
      (∀ objects, Value.apply objects operator left right = .ok value) →
      Transit (.operate operator) ⟨index, right :: left :: stack, vars⟩ ⟨index + 1, value :: stack, vars⟩
  | builtin {index : Nat} {args stack : List Value} {vars : List (String × Value)}
      {function : Builtin} {value : Value} : (∀ signals, function.run args signals = .ok value) →
      Transit (.callBuiltin function args.length) ⟨index, args ++ stack, vars⟩
        ⟨index + 1, value :: stack, vars⟩
  | set {index : Nat} {stack : List Value} {vars known : List (String × Value)} {name : String}
      {value : Value} :
      (∀ binding ∈ known, binding = (name, value) ∨ binding ∈ vars ∧ binding.1 ≠ name) →
      Transit (.setVariable name) ⟨index, value :: stack, vars⟩ ⟨index + 1, stack, known⟩
  | pass {index target : Nat} {stack : List Value} {vars : List (String × Value)} {condition : Value} :
      condition.truthy = true →
      Transit (.jumpUnless target) ⟨index, condition :: stack, vars⟩ ⟨index + 1, stack, vars⟩
  | branch {index target : Nat} {stack : List Value} {vars : List (String × Value)}
      {condition : Value} : condition.truthy = false →
      Transit (.jumpUnless target) ⟨index, condition :: stack, vars⟩ ⟨target, stack, vars⟩
  | jump {index target : Nat} {stack : List Value} {vars : List (String × Value)} :
      Transit (.jump target) ⟨index, stack, vars⟩ ⟨target, stack, vars⟩

namespace Execution

structure At (lower : List Level) (spot : Spot) (execution : Execution) : Prop where
  levels : execution.levels = ⟨spot.index, spot.stack⟩ :: lower
  carries : execution.Carries lower.length spot.vars

variable {execution other : Execution} {lower : List Level} {spot : Spot}

section

variable (h : execution.At lower spot)
include h

theorem At.pc_eq : execution.pc = spot.index :=
  congrArg Level.index (List.cons.inj (execution.levels_eq_cons.symm.trans h.levels)).1

theorem At.stack_eq : execution.frame.stack = spot.stack :=
  congrArg Level.stack (List.cons.inj (execution.levels_eq_cons.symm.trans h.levels)).1

theorem At.lower_eq : execution.lower = lower :=
  (List.cons.inj (execution.levels_eq_cons.symm.trans h.levels)).2

theorem At.depth_eq : execution.depth = lower.length + 1 := by
  rw [← length_levels, h.levels, List.length_cons]

theorem At.calls_length : execution.calls.length = lower.length :=
  Nat.succ.inj h.depth_eq

end

theorem SameFrames.levels_eq (h : execution.SameFrames other) (hpc : execution.pc = other.pc) :
    execution.levels = other.levels := by
  rw [levels, levels, h.program, h.globals, h.calls, hpc]

theorem At.of_sameFrames (h : other.At lower spot) (hsame : execution.SameFrames other)
    (hpc : execution.pc = other.pc) : execution.At lower spot :=
  ⟨(hsame.levels_eq hpc).trans h.levels,
    h.carries.of_sameAt fun _ _ => .of_eq (hsame.column_eq _)⟩

end Execution

namespace Machine

variable {H : Type} {setting : Setting H} {machine taken : Machine H} {lower : List Level}
  {spot : Spot}

theorem column_push {count : Nat}
    (htaken : taken.execution = machine.execution.dropOperands count) (value : Value) (name : String) :
    (taken.push value).advance.execution.column name = machine.execution.column name := by
  have hcolumn := column_setStack taken (value :: taken.stack) name
  rw [← push_eq_setStack, htaken, Execution.column_dropOperands] at hcolumn
  exact hcolumn

theorem column_goTo {count : Nat}
    (htaken : taken.execution = machine.execution.dropOperands count) (index : Nat) (name : String) :
    (taken.goTo index).execution.column name = machine.execution.column name := by
  have hcolumn := machine.execution.column_dropOperands count name
  rw [← htaken] at hcolumn
  exact hcolumn

theorem at_push {count : Nat} (hat : machine.execution.At lower spot)
    (htaken : taken.execution = machine.execution.dropOperands count) (value : Value) :
    (taken.push value).advance.execution.At lower
      ⟨spot.index + 1, value :: spot.stack.drop count, spot.vars⟩ := by
  have hstack : taken.stack = spot.stack.drop count := by
    rw [stack, htaken, Execution.stack_dropOperands, hat.stack_eq]
  have habreast : taken.execution.Abreast machine.execution :=
    htaken ▸ (machine.execution.stays_dropOperands count).abreast
  have hpushed := (stays_setStack taken (value :: taken.stack)).abreast.trans habreast
  refine ⟨?_, hat.carries.of_sameAt fun _ _ => .of_eq (column_push htaken value _)⟩
  rw [push_eq_setStack, advance, levels_goTo, stack_setStack, hpushed.pc, hpushed.lower, hat.pc_eq,
    hat.lower_eq, hstack]

theorem at_goTo {count index : Nat} (hat : machine.execution.At lower spot)
    (htaken : taken.execution = machine.execution.dropOperands count) :
    (taken.goTo index).execution.At lower ⟨index, spot.stack.drop count, spot.vars⟩ := by
  have habreast : taken.execution.Abreast machine.execution :=
    htaken ▸ (machine.execution.stays_dropOperands count).abreast
  refine ⟨?_, hat.carries.of_sameAt fun _ _ => .of_eq (column_goTo htaken index _)⟩
  rw [levels_goTo, habreast.lower, hat.lower_eq, stack, htaken, Execution.stack_dropOperands,
    hat.stack_eq]

theorem at_assign {index : Nat} {stack : List Value} {vars known : List (String × Value)}
    {name : String} {value : Value} (hat : machine.execution.At lower ⟨index, value :: stack, vars⟩)
    (htaken : taken.execution = machine.execution.dropOperands 1)
    (hknown : ∀ binding ∈ known, binding = (name, value) ∨ binding ∈ vars ∧ binding.1 ≠ name)
    (hclear : ∀ binding ∈ known, machine.execution.Clear lower.length binding.1) :
    (({ taken with execution := taken.execution.assign name value } : Machine H)
      ).advance.execution.At lower ⟨index + 1, stack, known⟩ := by
  have habreast : (taken.execution.assign name value).Abreast machine.execution :=
    (taken.execution.stays_assign name value).abreast.trans
      (htaken ▸ (machine.execution.stays_dropOperands 1).abreast)
  have hcolumn (other : String) :
      taken.execution.column other = machine.execution.column other := by
    rw [htaken, Execution.column_dropOperands]
  refine ⟨?_, fun binding hmem => ?_⟩
  · rw [advance, levels_goTo, habreast.pc, habreast.lower, hat.pc_eq, hat.lower_eq, Machine.stack,
      Execution.stack_assign, htaken, Execution.stack_dropOperands, hat.stack_eq]
    rfl
  · obtain rfl | ⟨hvar, hne⟩ := hknown binding hmem
    · have hclear := (hclear _ hmem).of_sameAt (.of_eq (hcolumn name))
      refine (hclear.binds_assign ?_ value).of_sameAt (.of_eq rfl)
      rw [← hat.calls_length, htaken]
      exact Nat.succ.inj (machine.execution.stays_dropOperands 1).depth_eq
    · refine (hat.carries binding hvar).of_sameAt (.of_eq ?_)
      exact (Execution.column_assign_ne _ hne.symm value).trans (hcolumn binding.1)

theorem popThen_cons {f : Value → Machine H → Outcome H} {value : Value} {rest : List Value}
    (h : machine.stack = value :: rest) :
    machine.popThen f = f value (machine.setStack rest) := by
  unfold popThen
  rw [h]

theorem jump_of_le {target : Nat} (h : target ≤ machine.execution.program.size) :
    machine.jump target = .ok (machine.goTo target) := by
  unfold jump
  dsimp only
  rw [if_neg (Nat.not_lt.2 h)]

end Machine

theorem Transit.execute {H : Type} {setting : Setting H} {machine : Machine H} {lower : List Level}
    {spot next : Spot} {op : Op} (h : Transit op spot next) (hat : machine.execution.At lower spot)
    (htargets : ∀ target ∈ op.targets, target ≤ machine.execution.program.size)
    (hclear : ∀ binding ∈ next.vars, machine.execution.Clear lower.length binding.1) :
    ∃ done, Machine.execute setting machine op = .ok done ∧ done.status = machine.status ∧
      done.execution.At lower next ∧ ∀ name, op ≠ .setVariable name →
        done.execution.column name = machine.execution.column name := by
  have hstack : machine.stack = spot.stack := hat.stack_eq
  have hsame : machine.execution = machine.execution.dropOperands 0 :=
    machine.execution.dropOperands_zero.symm
  cases h with
  | value literal =>
    exact ⟨_, rfl, rfl, Machine.at_push hat hsame literal.value,
      fun name _ => Machine.column_push hsame literal.value name⟩
  | @read index stack vars name value hmem hplain =>
    have hread : machine.readVariable name = .ok (value, machine) := by
      unfold Machine.readVariable
      rw [(hat.carries _ hmem).lookup?_eq hat.calls_length]
      cases value with
      | object ref => cases hplain
      | null | bool | int | float | str | list | record => rfl
    refine ⟨_, ?_, ?_, Machine.at_push hat hsame value,
      fun name _ => Machine.column_push hsame value name⟩
    · rw [Machine.execute, hread]
    · rfl
  | @operate index stack vars operator left right value happly =>
    have htaken : (machine.setStack stack).execution = machine.execution.dropOperands 2 :=
      Machine.execution_setStack (by rw [hstack]; rfl)
    refine ⟨_, ?_, ?_, Machine.at_push hat htaken value,
      fun name _ => Machine.column_push htaken value name⟩
    · rw [Machine.execute, Machine.popThen_cons hstack,
        Machine.popThen_cons (Machine.stack_setStack machine _), Machine.setStack_setStack]
      simp only [happly]
    · rfl
  | @builtin index args stack vars function value hrun =>
    have htaken : (machine.setStack stack).execution = machine.execution.dropOperands args.length :=
      Machine.execution_setStack (by rw [hstack]; exact List.drop_left)
    have hpushed := Machine.at_push hat htaken value
    rw [List.drop_left] at hpushed
    refine ⟨_, ?_, ?_, hpushed, fun name _ => Machine.column_push htaken value name⟩
    · have hlength : ¬ machine.stack.length < args.length := by simp [hstack]
      rw [Machine.execute, Machine.popArgsThen, if_neg hlength, hstack, List.take_left, List.drop_left]
      simp only [hrun]
    · rfl
  | @set index stack vars known name value hknown =>
    have htaken : (machine.setStack stack).execution = machine.execution.dropOperands 1 :=
      Machine.execution_setStack (by rw [hstack]; rfl)
    refine ⟨_, ?_, ?_, Machine.at_assign hat htaken hknown hclear, fun other hop => ?_⟩
    · rw [Machine.execute, Machine.popThen_cons hstack]
    · rfl
    · have hne : name ≠ other := fun hname => hop (congrArg _ hname)
      exact (Execution.column_assign_ne _ hne value).trans (Machine.column_setStack machine stack other)
  | @pass index target stack vars condition htruthy =>
    have htaken : (machine.setStack stack).execution = machine.execution.dropOperands 1 :=
      Machine.execution_setStack (by rw [hstack]; rfl)
    refine ⟨(machine.setStack stack).goTo (index + 1), ?_, rfl, Machine.at_goTo hat htaken,
      fun name _ => Machine.column_goTo htaken _ name⟩
    rw [Machine.execute, Machine.popThen_cons hstack, if_pos htruthy, Machine.advance,
      Machine.setStack_pc, hat.pc_eq]
  | @branch index target stack vars condition htruthy =>
    have htaken : (machine.setStack stack).execution = machine.execution.dropOperands 1 :=
      Machine.execution_setStack (by rw [hstack]; rfl)
    refine ⟨(machine.setStack stack).goTo target, ?_, rfl, Machine.at_goTo hat htaken,
      fun name _ => Machine.column_goTo htaken _ name⟩
    rw [Machine.execute, Machine.popThen_cons hstack, htruthy, if_neg Bool.false_ne_true]
    refine Machine.jump_of_le ?_
    rw [(Machine.stays_setStack machine stack).program]
    exact htargets target (List.mem_singleton_self target)
  | @jump index target stack vars =>
    refine ⟨machine.goTo target, ?_, rfl, Machine.at_goTo hat hsame,
      fun name _ => Machine.column_goTo hsame _ name⟩
    exact Machine.jump_of_le (htargets target (List.mem_singleton_self target))

namespace Execution

variable {execution after : Execution} {lower : List Level} {program : Program}
  {shape : Nat → Shape} {table : Table Procedure}

theorem Turn.moves (h : execution.Turn after) :
    after.levels = execution.levels ∨ ∃ instruction, execution.instruction? = some instruction ∧
      Moves execution.program instruction.op execution.levels after.levels := by
  cases h with
  | idle writes _ hframes hpc =>
    left
    rw [hframes.levels_eq (hpc.trans (alike_writes execution writes).pc.symm), levels_writes]
  | @done H setting machine done instruction _ hmachine hi hx hframes hpc =>
    right
    have hmoves := Machine.moves_execute hx
    rw [hmachine] at hmoves
    rw [hframes.levels_eq hpc]
    exact ⟨instruction, hi, hmoves⟩

theorem Turn.at_of_transit {op : Op} {pos : Option SourcePos} {spot next : Spot}
    (h : execution.Turn after) (ht : Transit op spot next) (hat : execution.At lower spot)
    (hi : execution.instruction? = some ⟨op, pos⟩)
    (htargets : ∀ target ∈ op.targets, target ≤ execution.program.size)
    (hclear : ∀ binding ∈ next.vars, execution.Clear lower.length binding.1)
    (hsame : after.levels = execution.levels →
      ∀ binding ∈ spot.vars, execution.SameAt lower.length binding.1 after) :
    after.At lower spot ∨ after.At lower next := by
  cases h with
  | idle writes _ hframes hpc =>
    have hlevels : after.levels = execution.levels := by
      rw [hframes.levels_eq (hpc.trans (alike_writes execution writes).pc.symm), levels_writes]
    exact .inl ⟨hlevels.trans hat.levels, hat.carries.of_sameAt (hsame hlevels)⟩
  | @done H setting machine done instruction _ hmachine hi' hx hframes hpc =>
    right
    cases hi.symm.trans hi'
    have hunmarked : machine.execution.SameFrames execution := hmachine ▸ ⟨rfl, rfl, rfl⟩
    have hat' := hat.of_sameFrames hunmarked (hmachine ▸ rfl)
    have hflow : ∃ done, Machine.execute setting machine op = .ok done ∧
        done.status = machine.status ∧ done.execution.At lower next ∧ _ :=
      ht.execute hat' (hunmarked.program ▸ htargets) fun binding hmem =>
        (hclear binding hmem).of_sameAt (.of_eq (hunmarked.column_eq _))
    obtain ⟨reached, hx', -, hreached, -⟩ := hflow
    cases hx.symm.trans hx'
    exact hreached.of_sameFrames hframes hpc

variable {level loop : Nat} {role : String}

theorem Resting.seat {pos : Option SourcePos} (h : execution.Resting program shape table)
    (hhome : Along (SetAtHome shape 0) 0 program.code.toList)
    (hi : execution.instruction? = some ⟨.setVariable (loopVariable loop role), pos⟩) :
    (shape loop).place = .top ↔ execution.lower.length = 0 := by
  have hlength : execution.lower.length = execution.calls.length := by
    rw [lower, List.length_tail, length_levels]
    rfl
  rw [h.place_eq hhome hi, hlength, List.length_eq_zero_iff]

theorem Orderly.clear (h : execution.Orderly program shape table)
    (hseat : (shape loop).place = .top ↔ level = 0) (role : String) :
    execution.Clear level (loopVariable loop role) := by
  by_cases hzero : level = 0
  · exact .inl hzero
  · right
    left
    rw [head?_column, Option.some.injEq, ← Option.not_isSome_iff_eq_none]
    exact fun hsome => hzero (hseat.1 (h.sheltered loop role hsome))

theorem Turn.sameAt_of_levels_eq {name : String} (h : execution.Turn after)
    (hlevels : after.levels = execution.levels) (hname : isHidden name = true)
    (hdepth : level < execution.depth) : execution.SameAt level name after := by
  obtain hadjusts | ⟨value, hsets⟩ := h.column hname
  · have hlength : (after.column name).length = (execution.column name).length := by
      rw [length_column, length_column, ← length_levels, hlevels, length_levels]
    rw [← length_column execution name] at hdepth
    exact ⟨hadjusts.getElem?_eq (by omega) (by omega), hadjusts.getElem?_eq hdepth (by omega)⟩
  · rw [levels_eq_cons, levels_eq_cons] at hlevels
    have hpc : after.pc = execution.pc := congrArg Level.index (List.cons.inj hlevels).1
    exact absurd (hsets.pc.symm.trans hpc) (Nat.succ_ne_self _)

theorem Turn.sameAt (h : execution.Turn after)
    (hhome : Along (SetAtHome shape 0) 0 program.code.toList)
    (horderly : execution.Orderly program shape table)
    (hseat : (shape loop).place = .top ↔ level = 0) (hdepth : level < execution.depth)
    (hdepth' : level < after.depth)
    (hother : execution.depth = level + 1 →
      ∀ pos, execution.instruction? ≠ some ⟨.setVariable (loopVariable loop role), pos⟩) :
    execution.SameAt level (loopVariable loop role) after := by
  obtain hadjusts | ⟨value, hsets⟩ := h.column (isHidden_loopVariable loop role)
  · rw [← length_column execution (loopVariable loop role)] at hdepth
    rw [← length_column after (loopVariable loop role)] at hdepth'
    exact ⟨hadjusts.getElem?_eq (by omega) (by omega), hadjusts.getElem?_eq hdepth hdepth'⟩
  · obtain ⟨pos, hi⟩ := hsets.instruction
    have hne : execution.calls.length ≠ level :=
      fun hlevel => hother (congrArg (· + 1) hlevel) pos hi
    have hplace := horderly.resting.place_eq hhome hi
    -- Another frame runs the loop, in a call: it sets a variable of its own.
    have hcalls : execution.calls.length ≠ 0 := by
      intro hzero
      exact hne (hzero.trans (hseat.1 (hplace.2 (List.eq_nil_of_length_eq_zero hzero))).symm)
    have hglobal : ¬ (execution.globals.get? (loopVariable loop role)).isSome = true := by
      intro hsome
      exact hcalls (congrArg List.length (hplace.1 (horderly.sheltered loop role hsome)))
    have hcolumn := hsets.column_eq
    rw [if_neg hglobal] at hcolumn
    exact ⟨by rw [hcolumn, List.getElem?_set_ne hcalls], by rw [hcolumn, List.getElem?_set_ne hne]⟩

/-! Frames in a stretch of code. -/

/-- The frame over these levels stands in a stretch of code, or will when its calls are done, with
these operands at the bottom. -/
def Inside (lower : List Level) (low high : Nat) (base : List Value) (execution : Execution) : Prop :=
  ∃ above index pushed, execution.levels = above ++ ⟨index, pushed ++ base⟩ :: lower ∧
    low ≤ index ∧ index ≤ high

variable {low high : Nat} {base : List Value}

theorem Inside.lt_depth (h : execution.Inside lower low high base) :
    lower.length < execution.depth := by
  obtain ⟨above, index, pushed, hlevels, -⟩ := h
  rw [← length_levels, hlevels, List.length_append, List.length_cons]
  omega

theorem Inside.levels_eq (h : execution.Inside lower low high base)
    (hdepth : execution.depth = lower.length + 1) : ∃ pushed,
      execution.levels = ⟨execution.pc, pushed ++ base⟩ :: lower ∧ low ≤ execution.pc ∧
        execution.pc ≤ high := by
  obtain ⟨above, index, pushed, hlevels, hindex⟩ := h
  have hlength := congrArg List.length hlevels
  rw [length_levels, hdepth, List.length_append, List.length_cons] at hlength
  obtain rfl : above = [] := List.eq_nil_of_length_eq_zero (by omega)
  have hat : execution.At lower ⟨index, pushed ++ base, []⟩ := ⟨hlevels, nofun⟩
  have hpc : execution.pc = index := hat.pc_eq
  rw [hpc]
  exact ⟨pushed, hlevels, hindex⟩

theorem Turn.inside (h : execution.Turn after) (hin : execution.Inside lower low high base)
    (hleads : ∀ index instruction, low ≤ index → index < high →
      execution.program.code[index]? = some instruction →
        ∀ target ∈ instruction.op.targets, low ≤ target ∧ target ≤ high)
    (hends : execution.depth = lower.length + 1 → execution.pc ≠ high ∧
      ∀ instruction, execution.instruction? = some instruction →
        (∀ hasValue, instruction.op ≠ .ret hasValue) ∧
          (base = [] ∨ instruction.op.needs + base.length ≤ execution.frame.stack.length)) :
    after.Inside lower low high base := by
  obtain ⟨above, index, pushed, hlevels, hlow, hhigh⟩ := hin
  obtain hsame | ⟨instruction, hi, hmoves⟩ := h.moves
  · exact ⟨above, index, pushed, hsame.trans hlevels, hlow, hhigh⟩
  rw [hlevels] at hmoves
  cases above with
  | cons call above =>
    rw [List.cons_append] at hmoves
    generalize hrest : above ++ ⟨index, pushed ++ base⟩ :: lower = rest at hmoves
    generalize hafter : after.levels = levels at hmoves
    cases hmoves with
    | stay =>
      exact ⟨call :: above, index, pushed, hafter.trans (congrArg (call :: ·) hrest.symm), hlow, hhigh⟩
    | on | jump | again => exact ⟨_ :: above, index, pushed, hrest ▸ hafter, hlow, hhigh⟩
    | enter => exact ⟨_ :: _ :: above, index, pushed, hrest ▸ hafter, hlow, hhigh⟩
    | leave => exact ⟨above, index, pushed, hrest ▸ hafter, hlow, hhigh⟩
    | finish => simp at hrest
  | nil =>
    have hat : execution.At lower ⟨index, pushed ++ base, []⟩ := ⟨hlevels, nofun⟩
    obtain ⟨hend, hends⟩ := hends hat.depth_eq
    obtain ⟨hret, hneeds⟩ := hends instruction hi
    have hpc : execution.pc = index := hat.pc_eq
    rw [hpc] at hend
    have hdrop : (pushed ++ base).drop instruction.op.needs =
        pushed.drop instruction.op.needs ++ base := by
      obtain rfl | hneeds := hneeds
      · rw [List.append_nil, List.append_nil]
      · rw [hat.stack_eq, List.length_append] at hneeds
        exact List.drop_append_of_le_length (by omega)
    have hleads := hleads index instruction hlow (by omega) (by rw [← hi, instruction?, hat.pc_eq])
    rw [List.nil_append] at hmoves
    generalize hafter : after.levels = levels at hmoves
    cases hmoves with
    | stay => exact ⟨[], index, pushed, hafter, hlow, hhigh⟩
    | on more =>
      rw [hdrop, ← List.append_assoc] at hafter
      exact ⟨[], index + 1, _, hafter, by omega, by omega⟩
    | jump hjump =>
      rw [hdrop] at hafter
      exact ⟨[], _, _, hafter, hleads _ (Op.mem_targets_of_jump? hjump)⟩
    | again hcall =>
      rw [hdrop] at hafter
      exact ⟨[], _, _, hafter, hleads _ (Op.mem_targets_of_call? hcall)⟩
    | enter =>
      rw [hdrop] at hafter
      exact ⟨[_], index + 1, _, hafter, by omega, by omega⟩
    | leave hop | finish hop => exact absurd hop (hret _)

end Execution

/-! The bodies of loops. -/

theorem Program.Holds.get_of_code {program : Program} {start index : Nat} {code : List Instruction}
    {instruction : Instruction} (h : program.Holds start code) (hlow : start ≤ index)
    (hhigh : index < start + code.length) (hi : program.code[index]? = some instruction) :
    code[index - start]? = some instruction := by
  have hget := List.getElem?_eq_getElem (show index - start < code.length by omega)
  have hat := h.get hget
  rw [Nat.add_sub_cancel' hlow] at hat
  rw [hget, ← hat, hi]

section Bodies

variable {program : Program} {body : List Node} {opening : Nat} {inner : List Instruction}
  {entries : List (String × Nat)}

theorem Lowers.leads_inside (h : Lowers (.many body) opening inner entries)
    (hcode : program.Holds opening inner) (index : Nat) (instruction : Instruction)
    (hlow : opening ≤ index) (hhigh : index < opening + statementsSize body)
    (hi : program.code[index]? = some instruction) :
    ∀ target ∈ instruction.op.targets, opening ≤ target ∧ target ≤ opening + statementsSize body := by
  have hlength : inner.length = statementsSize body := h.length_eq
  rw [← hlength] at hhigh ⊢
  exact h.leads.within instruction (List.mem_of_getElem? (hcode.get_of_code hlow hhigh hi))

theorem Lowers.sets_other (h : Lowers (.many body) opening inner entries)
    (hcode : program.Holds opening inner) (hnames : Discreet (namesIn body)) {loop index : Nat}
    (hloop : loop < opening) (hlow : opening ≤ index) (hhigh : index < opening + statementsSize body)
    (role : String) (pos : Option SourcePos) :
    program.code[index]? ≠ some ⟨.setVariable (loopVariable loop role), pos⟩ := by
  intro hi
  have hlength : inner.length = statementsSize body := h.length_eq
  have hsites := h.sites hnames
  obtain ⟨site, hsite, hmem, -⟩ := hsites.owned.get (hcode.get_of_code hlow (hlength ▸ hhigh) hi) _
    (List.mem_singleton_self _) (isHidden_loopVariable loop role)
  obtain ⟨role', hrole⟩ := eq_of_mem_hidden hmem
  have hwithin := (hsites.within site hsite).1
  rw [← (loopVariable_inj hrole).1] at hwithin
  exact Nat.not_le.2 hloop hwithin

end Bodies

/-! The values of loops. -/

namespace Program.Evaluates

variable {program : Program} {shape : Nat → Shape} {table : Table Procedure} {low : Nat} {node : Node}

section

variable (h : program.Evaluates low node)
include h

theorem operands_eq (hc : Compiled program shape table) :
    (shape (low + node.valueSize)).operands = (shape low).operands + 1 := by
  obtain ⟨code, hvalue, hcode⟩ := h
  have hlength : code.length = node.valueSize := hvalue.length_eq
  rw [← hlength]
  exact (hvalue.above (Along.of_get fun i instruction hget => hc.fits_at (hcode.get hget)) rfl).2

theorem size_pos (hc : Compiled program shape table) : 0 < node.valueSize := by
  refine Nat.pos_of_ne_zero fun hzero => ?_
  have hoperands := h.operands_eq hc
  rw [hzero] at hoperands
  exact Nat.succ_ne_self _ hoperands.symm

theorem instruction {index : Nat} {instruction : Instruction} (hc : Compiled program shape table)
    (hlow : low ≤ index) (hhigh : index < low + node.valueSize)
    (hi : program.code[index]? = some instruction) :
    instruction.op.computes = true ∧
      (∀ target ∈ instruction.op.targets, low ≤ target ∧ target ≤ low + node.valueSize) ∧
      (shape low).operands + instruction.op.needs ≤ (shape index).operands := by
  obtain ⟨code, hvalue, hcode⟩ := h
  have hlength : code.length = node.valueSize := hvalue.length_eq
  rw [← hlength] at hhigh ⊢
  have hget := hcode.get_of_code hlow hhigh hi
  have hfits : AllFit shape program.size low code :=
    Along.of_get fun i instruction hget => hc.fits_at (hcode.get hget)
  have habove := (hvalue.above hfits rfl).1.get hget
  rw [Nat.add_sub_cancel' hlow] at habove
  have hmem := List.mem_of_getElem? hget
  exact ⟨hvalue.computes instruction hmem, hvalue.leads instruction hmem, habove⟩

theorem exists_instruction {index : Nat} (hlow : low ≤ index)
    (hhigh : index < low + node.valueSize) : ∃ instruction, program.code[index]? = some instruction := by
  obtain ⟨code, hvalue, hcode⟩ := h
  have hlength : code.length = node.valueSize := hvalue.length_eq
  have hget := List.getElem?_eq_getElem (show index - low < code.length by omega)
  have hat := hcode.get hget
  rw [Nat.add_sub_cancel' hlow] at hat
  exact ⟨_, hat⟩

end

end Program.Evaluates

namespace Execution

section Values

variable {program : Program} {shape : Nat → Shape} {table : Table Procedure} {low : Nat} {node : Node}
  {lower : List Level} {base : List Value} {execution after : Execution}

theorem Turn.inside_value (h : execution.Turn after) (hvalue : program.Evaluates low node)
    (hc : Compiled program shape table) (hrest : execution.Resting program shape table)
    (hin : execution.Inside lower low (low + node.valueSize) base)
    (hbase : base.length = (shape low).operands)
    (hend : ¬ (execution.depth = lower.length + 1 ∧ execution.pc = low + node.valueSize)) :
    after.Inside lower low (low + node.valueSize) base := by
  have hruns := hrest.runs
  refine h.inside hin ?_ fun hdepth => ⟨fun hpc => hend ⟨hdepth, hpc⟩, fun instruction hi => ?_⟩
  · rw [hruns]
    exact fun index instruction hlow hhigh hi => (hvalue.instruction hc hlow hhigh hi).2.1
  · obtain ⟨pushed, hlevels, hlow, hhigh⟩ := hin.levels_eq hdepth
    have hlt := Nat.lt_of_le_of_ne hhigh fun hpc => hend ⟨hdepth, hpc⟩
    have hi' := hi
    rw [instruction?, hruns] at hi'
    obtain ⟨hcomputes, -, hneeds⟩ := hvalue.instruction hc hlow hlt hi'
    refine ⟨fun hasValue hop => ?_, .inr ?_⟩
    · rw [hop] at hcomputes
      cases hcomputes
    · rw [(hrest.settled_of_straight hi (Op.straight_of_computes hcomputes)).nested.length_stack, hbase,
        Nat.add_comm]
      exact hneeds

theorem At.length_stack {spot : Spot} (hat : execution.At lower spot)
    (hvalue : program.Evaluates spot.index node) (hc : Compiled program shape table)
    (hrest : execution.Resting program shape table) :
    spot.stack.length = (shape spot.index).operands := by
  have hlt : spot.index < spot.index + node.valueSize := Nat.lt_add_of_pos_right (hvalue.size_pos hc)
  obtain ⟨instruction, hi⟩ := hvalue.exists_instruction (Nat.le_refl _) hlt
  have hcomputes := (hvalue.instruction hc (Nat.le_refl _) hlt hi).1
  have hi' := (instruction?_eq hrest.runs hat.pc_eq).trans hi
  rw [← hat.stack_eq, ← hat.pc_eq]
  exact (hrest.settled_of_straight hi' (Op.straight_of_computes hcomputes)).nested.length_stack

theorem At.inside {spot : Spot} (hat : execution.At lower spot) {high : Nat}
    (hhigh : spot.index ≤ high) : execution.Inside lower spot.index high spot.stack :=
  ⟨[], spot.index, [], hat.levels, Nat.le_refl _, hhigh⟩

theorem Inside.value_end (hin : execution.Inside lower low (low + node.valueSize) base)
    (hvalue : program.Evaluates low node) (hc : Compiled program shape table)
    (hrest : execution.Resting program shape table) (hbase : base.length = (shape low).operands)
    {instruction : Instruction} (hi : execution.instruction? = some instruction)
    (hop : instruction.op.straight = true) (hdepth : execution.depth = lower.length + 1)
    (hpc : execution.pc = low + node.valueSize) :
    ∃ value, execution.levels = ⟨low + node.valueSize, value :: base⟩ :: lower := by
  obtain ⟨pushed, hlevels, -⟩ := hin.levels_eq hdepth
  have hat : execution.At lower ⟨execution.pc, pushed ++ base, []⟩ := ⟨hlevels, nofun⟩
  have hlength := (hrest.settled_of_straight hi hop).nested.length_stack
  rw [hat.stack_eq, hpc, hvalue.operands_eq hc, List.length_append, hbase] at hlength
  obtain ⟨value, rfl⟩ := List.length_eq_one_iff.1 (show pushed.length = 1 by omega)
  rw [hpc] at hlevels
  exact ⟨value, hlevels⟩

end Values

def Leaves (first : Execution) (after : Nat) (execution : Execution) : Prop :=
  execution.depth = first.depth ∧
    (execution.pc = after ∨ ∃ hasValue pos, execution.instruction? = some ⟨.ret hasValue, pos⟩)

def Enters (first : Execution) (opening : Nat) (execution next : Execution) : Prop :=
  execution.depth = first.depth ∧ execution.pc + 1 = opening ∧ next.pc = opening

section Rounds

variable {program : Program} {body : List Node} {opening stop : Nat} {lower : List Level}
  {first execution after : Execution}

theorem Turn.inside_body (h : execution.Turn after) (hbody : ∃ inner entries,
      Lowers (.many body) opening inner entries ∧ program.Holds opening inner)
    (hruns : execution.program = program) (hfirst : first.depth = lower.length + 1)
    (hleaves : ¬ first.Leaves stop execution)
    (hin : execution.Inside lower opening (opening + statementsSize body) [])
    (hend : ¬ (execution.depth = lower.length + 1 ∧ execution.pc = opening + statementsSize body)) :
    after.Inside lower opening (opening + statementsSize body) [] := by
  obtain ⟨inner, entries, hlowers, hcode⟩ := hbody
  refine h.inside hin ?_ fun hdepth => ⟨fun hpc => hend ⟨hdepth, hpc⟩, fun instruction hi => ?_⟩
  · rw [hruns]
    exact hlowers.leads_inside hcode
  · refine ⟨fun hasValue hop => hleaves ⟨hdepth.trans hfirst.symm, .inr ?_⟩, .inl rfl⟩
    exact ⟨hasValue, instruction.pos, by rw [hi, ← hop]⟩

theorem Inside.sets_other (hin : execution.Inside lower opening (opening + statementsSize body) [])
    (hbody : ∃ inner entries, Lowers (.many body) opening inner entries ∧ program.Holds opening inner)
    (hruns : execution.program = program) (hnames : Discreet (namesIn body)) {loop : Nat}
    (hloop : loop < opening) (hdepth : execution.depth = lower.length + 1)
    (hend : ¬ (execution.depth = lower.length + 1 ∧ execution.pc = opening + statementsSize body))
    (role : String) (pos : Option SourcePos) :
    execution.instruction? ≠ some ⟨.setVariable (loopVariable loop role), pos⟩ := by
  obtain ⟨inner, entries, hlowers, hcode⟩ := hbody
  obtain ⟨-, -, hlow, hhigh⟩ := hin.levels_eq hdepth
  rw [instruction?, hruns]
  exact hlowers.sets_other hcode hnames hloop hlow
    (Nat.lt_of_le_of_ne hhigh fun hpc => hend ⟨hdepth, hpc⟩) role pos

end Rounds

end Execution

/-! Ways through known code. -/

/-- An instruction leads from the one spot to the other. Only instructions in `P` are executed, and
only variables in `Q` are looked at. -/
structure Program.Transits (program : Program) (P : Nat → Prop) (Q : String → Prop)
    (spot next : Spot) : Prop where
  passes : P spot.index
  knows : ∀ binding ∈ next.vars, Q binding.1
  transit : ∃ op pos, program.code[spot.index]? = some ⟨op, pos⟩ ∧ Transit op spot next

abbrev Program.Passes (program : Program) (P : Nat → Prop) (Q : String → Prop) :
    Spot → Spot → Prop :=
  Relation.ReflTransGen (program.Transits P Q)

theorem Program.Transits.ne_ret {program : Program} {P : Nat → Prop} {Q : String → Prop}
    {spot next : Spot} (h : program.Transits P Q spot next) (hasValue : Bool)
    (pos : Option SourcePos) : program.code[spot.index]? ≠ some ⟨.ret hasValue, pos⟩ := by
  intro hret
  obtain ⟨op, pos', hi, ht⟩ := h.transit
  cases hi.symm.trans hret
  cases ht

theorem Program.Passes.cons {program : Program} {P : Nat → Prop} {Q : String → Prop}
    {spot next goal : Spot} {op : Op} {pos : Option SourcePos}
    (hi : program.code[spot.index]? = some ⟨op, pos⟩) (hpasses : P spot.index)
    (ht : Transit op spot next) (hknows : ∀ binding ∈ next.vars, Q binding.1)
    (h : program.Passes P Q next goal) : program.Passes P Q spot goal :=
  .head ⟨hpasses, hknows, op, pos, hi, ht⟩ h

namespace Machine

variable {H : Type} {setting : Setting H} {machine : Machine H} {lower : List Level}
  {program : Program} {shape : Nat → Shape} {table : Table Procedure} {P : Nat → Prop}
  {Q : String → Prop} {spot next goal : Spot}

theorem exists_step_of_transits (h : program.Transits P Q spot next)
    (hc : Compiled program shape table) (hlimit : setting.limits.maxCycles = none)
    (hruns : machine.execution.program = program) (hrunning : machine.status.running = true)
    (hat : machine.execution.At lower spot)
    (hclear : ∀ name, Q name → machine.execution.Clear lower.length name) :
    ∃ instruction last, machine.next? = some instruction ∧
      machine.step setting instruction = .ok last ∧ last.status.running = true ∧
      last.execution.At lower next ∧ ∀ name, instruction.op ≠ .setVariable name →
        last.execution.column name = machine.execution.column name := by
  obtain ⟨op, pos, hi, ht⟩ := h.transit
  have hn : machine.next? = some ⟨op, pos⟩ := by
    rw [next?, if_pos hrunning, Execution.instruction?, hruns, hat.pc_eq, hi]
  have hat' : machine.clearMarks.execution.At lower spot := hat.of_sameFrames ⟨rfl, rfl, rfl⟩ rfl
  have hflow : ∃ done, execute setting machine.clearMarks op = .ok done ∧
      done.status = machine.clearMarks.status ∧ done.execution.At lower next ∧ _ :=
    ht.execute hat' (hruns ▸ (hc.fits_at hi).targets_le) fun binding hmem =>
      (hclear binding.1 (h.knows binding hmem)).of_sameAt (.of_eq rfl)
  obtain ⟨done, hx, hstatus, hdone, hcolumn⟩ := hflow
  have hstep : machine.step setting ⟨op, pos⟩ = .ok done.countStep := by
    rw [step_eq hlimit, hx]
    simp only [Outcome.atPos]
    rw [finishStep_of_none (hstatus ▸ rfl)]
  exact ⟨_, _, hn, hstep, (congrArg Status.running hstatus).trans hrunning,
    hdone.of_sameFrames ⟨rfl, rfl, rfl⟩ rfl, hcolumn⟩

theorem exists_reaches_of_passes {R : Execution → Prop} (h : program.Passes P Q spot goal)
    (hc : Compiled program shape table) (hdiscreet : setting.Discreet)
    (hlimit : setting.limits.maxCycles = none) (hrunning : machine.status.running = true)
    (hat : machine.execution.At lower spot) (hR : R machine.execution)
    (hclear : ∀ execution, R execution → execution.program = program ∧
      ∀ name, Q name → execution.Clear lower.length name)
    (hnext : ∀ execution after spot next, R execution → program.Transits P Q spot next →
      execution.At lower spot → execution.Proceeds after → after.At lower next →
      P next.index ∨ next.index = goal.index → (∀ name,
        (∀ pos, execution.instruction? ≠ some ⟨.setVariable name, pos⟩) →
        after.column name = execution.column name) → R after) :
    ∃ last, Reaches setting machine last ∧ last.status.running = true ∧
      last.execution.At lower goal ∧ R last.execution := by
  induction h using Relation.ReflTransGen.head_induction_on generalizing machine with
  | refl => exact ⟨machine, .refl, hrunning, hat, hR⟩
  | @head spot next hfirst hrest ih =>
    obtain ⟨hruns, hclear'⟩ := hclear _ hR
    have hstep : ∃ instruction last, machine.next? = some instruction ∧
        machine.step setting instruction = .ok last ∧ _ :=
      exists_step_of_transits hfirst hc hlimit hruns hrunning hat hclear'
    obtain ⟨instruction, last, hn, hs, hrunning', hat', hcolumn⟩ := hstep
    have hlast : R last.execution := by
      refine hnext _ _ _ _ hR hfirst hat (.step hdiscreet hn hs) hat' ?_ fun name hother => ?_
      · obtain rfl | ⟨_, hthen, -⟩ := hrest.cases_head
        · exact .inr rfl
        · exact .inl hthen.passes
      · refine hcolumn name fun hop => hother instruction.pos ?_
        rw [instruction?_of_next? hn, ← hop]
    obtain ⟨reached, hreaches, hreached⟩ := ih hrunning' hat' hlast
    exact ⟨reached, .step hn hs hreaches, hreached⟩

end Machine

end DurableScript
