import DurableScript.Proofs.Evaluation
import DurableScript.Proofs.Outline

namespace DurableScript

open Node Machine

/-- What stays as it is in a frame: its return pointer, and the hidden variables of loops that begin
outside of the range. -/
structure Frame.Keeps (range : Nat → Prop) (old new : Frame) : Prop where
  returnTo : new.returnTo = old.returnTo
  hidden : ∀ start role, ¬ range start →
    new.get? (loopVariable start role) = old.get? (loopVariable start role)

structure Frame.Waits (old new : Frame) : Prop where
  keeps : old.Keeps (fun _ => False) new
  stack : new.stack = old.stack

namespace Frame

variable {range wider : Nat → Prop} {a b c : Frame}

theorem Keeps.refl (range : Nat → Prop) (frame : Frame) : frame.Keeps range frame :=
  ⟨rfl, fun _ _ _ => rfl⟩

theorem Keeps.trans (h : a.Keeps range b) (h' : b.Keeps range c) : a.Keeps range c :=
  ⟨h'.returnTo.trans h.returnTo, fun start role hr =>
    (h'.hidden start role hr).trans (h.hidden start role hr)⟩

theorem Keeps.mono (h : a.Keeps range b) (hw : ∀ start, range start → wider start) :
    a.Keeps wider b := ⟨h.returnTo, fun start role hr => h.hidden start role (mt (hw start) hr)⟩

theorem Waits.refl (frame : Frame) : frame.Waits frame := ⟨.refl _ frame, rfl⟩

theorem Waits.trans (h : a.Waits b) (h' : b.Waits c) : a.Waits c :=
  ⟨h.keeps.trans h'.keeps, h'.stack.trans h.stack⟩

end Frame

namespace Execution

def below (execution : Execution) : List Frame :=
  match execution.calls with
  | [] => []
  | _ :: rest => rest ++ [execution.globals]

structure Keeps (range : Nat → Prop) (old new : Execution) : Prop where
  running : old.frame.Keeps range new.frame
  below : List.Forall₂ Frame.Waits old.below new.below

variable {range wider : Nat → Prop} {a b c : Execution}

theorem forall₂_waits_refl (frames : List Frame) : List.Forall₂ Frame.Waits frames frames :=
  List.forall₂_same.2 fun frame _ => .refl frame

theorem forall₂_waits_trans {as bs cs : List Frame} (h : List.Forall₂ Frame.Waits as bs)
    (h' : List.Forall₂ Frame.Waits bs cs) : List.Forall₂ Frame.Waits as cs := by
  induction h generalizing cs with
  | nil => exact h'
  | cons hab _ ih =>
    cases h' with
    | cons hbc hrest => exact .cons (hab.trans hbc) (ih hrest)

theorem Keeps.refl (range : Nat → Prop) (execution : Execution) : execution.Keeps range execution :=
  ⟨.refl range _, forall₂_waits_refl _⟩

theorem Keeps.trans (h : a.Keeps range b) (h' : b.Keeps range c) : a.Keeps range c :=
  ⟨h.running.trans h'.running, forall₂_waits_trans h.below h'.below⟩

theorem Keeps.mono (h : a.Keeps range b) (hw : ∀ start, range start → wider start) :
    a.Keeps wider b := ⟨h.running.mono hw, h.below⟩

theorem Keeps.of_frames (h : a.Keeps range b) (hg : c.globals = b.globals)
    (hc : c.calls = b.calls) : a.Keeps range c := by
  have hframe : c.frame = b.frame := by rw [frame, frame, hc, hg]
  have hbelow : c.below = b.below := by rw [Execution.below, Execution.below, hc, hg]
  exact ⟨hframe ▸ h.running, hbelow ▸ h.below⟩

theorem below_eq_nil_iff (execution : Execution) : execution.below = [] ↔ execution.calls = [] := by
  unfold below
  split
  · next h => simp [h]
  · next h => simp [h]

theorem Keeps.calls_eq_nil_iff (h : a.Keeps range b) : b.calls = [] ↔ a.calls = [] := by
  rw [← below_eq_nil_iff, ← below_eq_nil_iff, ← List.length_eq_zero_iff, ← List.length_eq_zero_iff,
    h.below.length_eq]

theorem keeps_modifyFrame (execution : Execution) {f : Frame → Frame}
    (h : execution.frame.Keeps range (f execution.frame)) :
    execution.Keeps range (execution.modifyFrame f) := by
  refine ⟨by rw [frame_modifyFrame]; exact h, ?_⟩
  obtain ⟨_, _, calls, _, _, _⟩ := execution
  cases calls with
  | nil => exact .nil
  | cons call rest => exact forall₂_waits_refl _

end Execution

def Within (start stop index : Nat) : Prop := start ≤ index ∧ index < stop

def Nowhere (_ : Nat) : Prop := False

theorem Nowhere.elim {P : Nat → Prop} (index : Nat) (h : Nowhere index) : P index := False.elim h

theorem Frame.keeps_set {range : Nat → Prop} {name : String} (h : isHidden name = false)
    (value : Value) (frame : Frame) : frame.Keeps range (frame.set name value) := by
  refine ⟨rfl, fun start role _ => ?_⟩
  rw [get?, set, Table.find?_insert, if_neg (ne_loopVariable h start role)]
  rfl

namespace Execution

variable {range : Nat → Prop} {a b : Execution}

theorem Keeps.globals_get? (h : a.Keeps range b) {start : Nat} (hr : a.calls = [] → ¬ range start)
    (role : String) :
    b.globals.get? (loopVariable start role) = a.globals.get? (loopVariable start role) := by
  have hcalls := h.calls_eq_nil_iff
  obtain ⟨_, globals, calls, _, _, _⟩ := a
  obtain ⟨_, globals', calls', _, _, _⟩ := b
  cases calls with
  | nil =>
    cases hcalls.2 rfl
    exact h.running.hidden start role (hr rfl)
  | cons call rest =>
    cases calls' with
    | nil => cases hcalls.1 rfl
    | cons call' rest' =>
      have hbelow : List.Forall₂ Frame.Waits (rest ++ [globals]) (rest' ++ [globals']) := h.below
      rw [← List.forall₂_reverse_iff, List.reverse_concat, List.reverse_concat] at hbelow
      cases hbelow with
      | cons hwaits _ => exact hwaits.keeps.hidden start role id

theorem keeps_setLocal {name : String} (h : isHidden name = false) (value : Value)
    (execution : Execution) : execution.Keeps range (execution.setLocal name value) :=
  execution.keeps_modifyFrame (Frame.keeps_set h value _)

theorem keeps_setGlobal {name : String} (h : isHidden name = false) (value : Value)
    (execution : Execution) : execution.Keeps range (execution.setGlobal name value) := by
  obtain ⟨_, globals, calls, _, _, _⟩ := execution
  cases calls with
  | nil => exact ⟨Frame.keeps_set h value globals, .nil⟩
  | cons call rest =>
    exact ⟨.refl range call, List.rel_append (forall₂_waits_refl rest)
      (.cons ⟨Frame.keeps_set h value globals, rfl⟩ .nil)⟩

theorem keeps_assign {name : String} (h : isHidden name = false) (value : Value)
    (execution : Execution) : execution.Keeps range (execution.assign name value) := by
  unfold assign
  split
  · exact keeps_setGlobal h value execution
  · exact keeps_setLocal h value execution

theorem keeps_writes {writes : List HostWrite} (h : ∀ write ∈ writes, isHidden write.name = false)
    (execution : Execution) : execution.Keeps range (writes.foldl HostWrite.run execution) := by
  induction writes generalizing execution with
  | nil => exact .refl range execution
  | cons write rest ih =>
    have hname := h write (List.mem_cons_self ..)
    have hwrite : execution.Keeps range (write.run execution) := by
      cases write with
      | toFrame name value => exact keeps_setLocal hname value execution
      | toGlobals name value => exact keeps_setGlobal hname value execution
    exact hwrite.trans (ih (fun other ho => h other (List.mem_cons_of_mem _ ho)) _)

end Execution

section Variables

theorem Execution.lookup?_ofExecution {name : String} (h : isHidden name = false)
    (execution : Execution) :
    (Variables.ofExecution execution).lookup? name = execution.lookup? name := by
  unfold Variables.lookup? Variables.ofExecution Variables.current Execution.lookup? Execution.frame
  obtain ⟨_, _, calls, _, _, _⟩ := execution
  cases calls with
  | nil | cons call rest => simp [Frame.get?, Table.find?_visible h]

theorem Variables.ofExecution_setLocal {name : String} (h : isHidden name = false) (value : Value)
    (execution : Execution) : ofExecution (execution.setLocal name value) =
      (ofExecution execution).setLocal name value := by
  obtain ⟨_, _, calls, _, _, _⟩ := execution
  cases calls with
  | nil => simp [ofExecution, setLocal, Execution.setLocal, Execution.modifyFrame, Frame.set,
      Table.visible_insert h]
  | cons call rest => simp [ofExecution, setLocal, Execution.setLocal, Execution.modifyFrame,
      Frame.set, Table.visible_insert h]

theorem Variables.ofExecution_setGlobal {name : String} (h : isHidden name = false)
    (value : Value) (execution : Execution) : ofExecution (execution.setGlobal name value) =
      (ofExecution execution).setGlobal name value := by
  simp [ofExecution, setGlobal, Execution.setGlobal, Frame.set, Table.visible_insert h]

theorem Variables.ofExecution_assign {name : String} (h : isHidden name = false) (value : Value)
    (execution : Execution) : ofExecution (execution.assign name value) =
      (ofExecution execution).assign name value := by
  have hcontains : Table.contains name (ofExecution execution).globals =
      Table.contains name execution.globals.vars := Table.contains_visible h _
  unfold Execution.assign assign
  rw [hcontains]
  split
  · exact ofExecution_setGlobal h value execution
  · exact ofExecution_setLocal h value execution

theorem Variables.ofExecution_writes {writes : List HostWrite}
    (h : ∀ write ∈ writes, isHidden write.name = false) (execution : Execution) :
    ofExecution (writes.foldl HostWrite.run execution) =
      writes.foldl Variables.write (ofExecution execution) := by
  induction writes generalizing execution with
  | nil => rfl
  | cons write rest ih =>
    have hwrite : ofExecution (write.run execution) = (ofExecution execution).write write := by
      have hname := h write (List.mem_cons_self ..)
      cases write with
      | toFrame name value => exact ofExecution_setLocal hname value execution
      | toGlobals name value => exact ofExecution_setGlobal hname value execution
    rw [List.foldl_cons, List.foldl_cons, ← hwrite]
    exact ih (fun other ho => h other (List.mem_cons_of_mem _ ho)) _

theorem Variables.ofExecution_modifyFrame (execution : Execution) {f : Frame → Frame}
    (h : ∀ frame, Table.visible (f frame).vars = Table.visible frame.vars) :
    ofExecution (execution.modifyFrame f) = ofExecution execution := by
  obtain ⟨_, _, calls, _, _, _⟩ := execution
  cases calls with
  | nil | cons call rest => simp [ofExecution, Execution.modifyFrame, h]

end Variables

/-- The frame that code at a place runs in: the global one, or that of a call that returns into the
program. -/
def RunsAt (program : Program) (execution : Execution) : Place → Prop
  | .top => execution.calls = []
  | .entry => False
  | .body => execution.calls ≠ [] ∧
      ∃ index, execution.frame.returnTo = some index ∧ index ≤ program.size

theorem RunsAt.of_keeps {program : Program} {range : Nat → Prop} {old new : Execution} {place : Place}
    (h : RunsAt program old place) (hk : old.Keeps range new) : RunsAt program new place := by
  cases place with
  | top => exact hk.calls_eq_nil_iff.2 h
  | entry => exact h
  | body =>
    obtain ⟨hcalls, index, hindex, hsize⟩ := h
    exact ⟨mt hk.calls_eq_nil_iff.1 hcalls, index, hk.running.returnTo.trans hindex, hsize⟩

theorem RunsAt.place_eq_top {program : Program} {execution : Execution} {place : Place}
    (h : RunsAt program execution place) (hcalls : execution.calls = []) : place = .top := by
  cases place with
  | top => rfl
  | entry => exact h.elim
  | body => exact absurd hcalls h.1

def Scene.setting (scene : Scene) : Setting (List HostCall) :=
  ⟨scene.functions.map PlainFunctions.provider, scene.methods.map PlainMethods.provider,
    scene.signals, .unlimited⟩

/-- The machine is about to execute the instruction at `index`, and holds what the store holds. Only
loops outside of procedures have hidden variables in the global frame. -/
structure Standing (program : Program) (shape : Nat → Shape) (index : Nat) (store : Store)
    (machine : Machine (List HostCall)) : Prop where
  runs : machine.execution.program = program
  pc : machine.execution.pc = index
  status : machine.status = .started
  vars : Variables.ofExecution machine.execution = store.vars
  objects : machine.world.objects = store.objects
  calls : machine.world.host = store.calls
  top : ∀ start role, (machine.execution.globals.get? (loopVariable start role)).isSome →
    (shape start).place = .top

/-- Where the machine stands after code, with which stack, and what the code has left untouched. -/
structure Lands (program : Program) (shape : Nat → Shape) (range : Nat → Prop)
    (origin : Machine (List HostCall)) (stack : List Value) (index : Nat) (store : Store)
    (machine : Machine (List HostCall)) : Prop where
  standing : Standing program shape index store machine
  stack : machine.stack = stack
  keeps : origin.execution.Keeps range machine.execution

def Fails (setting : Setting (List HostCall)) (machine : Machine (List HostCall))
    (error : RunError) (calls : List HostCall) : Prop :=
  ∃ last instruction failed, Reaches setting machine last ∧ last.next? = some instruction ∧
    last.step setting instruction = .fail error failed ∧ failed.world.host = calls

/-- When the evaluation ends, so does the machine, and with the same error if there is one. -/
def Realizes {α : Type} (setting : Setting (List HostCall)) (evaluation : Eval α) (store : Store)
    (machine : Machine (List HostCall)) (post : α → Store → Machine (List HostCall) → Prop) : Prop :=
  ∀ result after, evaluation store = some (result, after) →
    match result with
    | .ok a => ∃ last, Reaches setting machine last ∧ post a after last
    | .error error => Fails setting machine error after.calls

theorem Eval.bind_apply {α β : Type} (evaluation : Eval α) (rest : α → Eval β) (store : Store) :
    (evaluation >>= rest) store = match evaluation store with
      | none => none
      | some (.ok a, middle) => rest a middle
      | some (.error error, middle) => some (.error error, middle) := by
  change Option.bind (evaluation store) _ = _
  cases evaluation store with
  | none => rfl
  | some found =>
    obtain ⟨result, middle⟩ := found
    cases result <;> rfl

namespace Realizes

variable {α β : Type} {setting : Setting (List HostCall)} {store : Store}
  {machine next : Machine (List HostCall)} {post : α → Store → Machine (List HostCall) → Prop}
  {evaluation : Eval α}

theorem pure {a : α} (h : post a store machine) :
    Realizes setting (Pure.pure a) store machine post := by
  intro result after he
  cases he
  exact ⟨machine, .refl, h⟩

theorem undefined : Realizes setting Eval.undefined store machine post := by
  intro result after he
  cases he

theorem of_reaches (hr : Reaches setting machine next)
    (h : Realizes setting evaluation store next post) :
    Realizes setting evaluation store machine post := by
  intro result after he
  have hresult := h result after he
  cases result with
  | ok a =>
    obtain ⟨last, hl, hpost⟩ := hresult
    exact ⟨last, hr.trans hl, hpost⟩
  | error error =>
    obtain ⟨last, instruction, failed, hl, hfail⟩ := hresult
    exact ⟨last, instruction, failed, hr.trans hl, hfail⟩

theorem after {P : Machine (List HostCall) → Prop}
    (h : ∃ last, Reaches setting machine last ∧ P last)
    (hrest : ∀ last, P last → Realizes setting evaluation store last post) :
    Realizes setting evaluation store machine post := by
  obtain ⟨last, hr, hlast⟩ := h
  exact of_reaches hr (hrest last hlast)

theorem andThen {evaluation : Eval α} {other : α → Store → Machine (List HostCall) → Prop}
    (h : Realizes setting evaluation store machine post)
    (hnext : ∀ a after last, post a after last →
      ∃ final, Reaches setting last final ∧ other a after final) :
    Realizes setting evaluation store machine other := by
  intro result after he
  have hresult := h result after he
  cases result with
  | ok a =>
    obtain ⟨last, hl, hp⟩ := hresult
    obtain ⟨final, hf, ho⟩ := hnext a after last hp
    exact ⟨final, hl.trans hf, ho⟩
  | error error => exact hresult

section

variable (h : Realizes setting evaluation store machine post)
include h

theorem mono {other : α → Store → Machine (List HostCall) → Prop}
    (hpost : ∀ a after last, post a after last → other a after last) :
    Realizes setting evaluation store machine other :=
  h.andThen fun a after last hp => ⟨last, .refl, hpost a after last hp⟩

theorem evaluated : Realizes setting evaluation store machine fun a after last =>
      evaluation store = some (.ok a, after) ∧ post a after last := by
  intro result after he
  have hresult := h result after he
  cases result with
  | ok a =>
    obtain ⟨last, hl, hp⟩ := hresult
    exact ⟨last, hl, he, hp⟩
  | error error => exact hresult

theorem bind {rest : α → Eval β} {other : β → Store → Machine (List HostCall) → Prop}
    (hrest : ∀ a after last, post a after last → Realizes setting (rest a) after last other) :
    Realizes setting (evaluation >>= rest) store machine other := by
  intro result after he
  rw [Eval.bind_apply] at he
  split at he
  · cases he
  · next a middle hm =>
    obtain ⟨last, hl, hp⟩ := h (.ok a) middle hm
    exact of_reaches hl (hrest a middle last hp) result after he
  · next error middle hm =>
    cases he
    exact h (.error error) _ hm

end

end Realizes

section Steps

variable {scene : Scene} {program : Program} {shape : Nat → Shape} {index : Nat} {store : Store}
  {machine next : Machine (List HostCall)} {op : Op} {pos : Option SourcePos}

section

variable (h : Standing program shape index store machine)
include h

theorem Standing.clearMarks : Standing program shape index store machine.clearMarks :=
  ⟨h.runs, h.pc, congrArg (fun status : Status => { status with waitingFor := none }) h.status,
    h.vars, h.objects, h.calls, h.top⟩

theorem Standing.next?_eq {instruction : Instruction}
    (hi : program.code[index]? = some instruction) :
    machine.next? = some instruction := by
  rw [Machine.next?, h.status, Execution.instruction?, h.runs, h.pc]
  exact hi

theorem Standing.reaches (hi : program.code[index]? = some ⟨op, pos⟩)
    (hx : execute scene.setting machine.clearMarks op = .ok next)
    (hwait : next.status.waitingFor = none) : Reaches scene.setting machine next.countStep := by
  refine .single (h.next?_eq hi) ?_
  unfold step
  rw [show machine.limitReached? scene.setting = none from rfl]
  simp only [hx, Outcome.atPos, hwait]
  rfl

theorem Standing.fails (hi : program.code[index]? = some ⟨op, pos⟩) {error : RunError}
    (hx : execute scene.setting machine.clearMarks op = .fail error next)
    {calls : List HostCall} (hcalls : next.world.host = calls) :
    Fails scene.setting machine (error.locate pos) calls := by
  refine ⟨machine, ⟨op, pos⟩, next, .refl, h.next?_eq hi, ?_, hcalls⟩
  unfold step
  rw [show machine.limitReached? scene.setting = none from rfl]
  simp only [hx, Outcome.atPos]

end

theorem vars_setStack (machine : Machine (List HostCall)) (stack : List Value) :
    Variables.ofExecution (machine.setStack stack).execution =
      Variables.ofExecution machine.execution :=
  Variables.ofExecution_modifyFrame machine.execution (f := fun frame => { frame with stack }) fun _ => rfl

theorem keeps_setStack (machine : Machine (List HostCall)) (stack : List Value)
    (range : Nat → Prop) : machine.execution.Keeps range (machine.setStack stack).execution :=
  machine.execution.keeps_modifyFrame (f := fun frame => { frame with stack }) ⟨rfl, fun _ _ _ => rfl⟩

theorem keeps_popped (machine : Machine (List HostCall)) (stack : List Value) (range : Nat → Prop) :
    machine.execution.Keeps range (machine.clearMarks.setStack stack).execution := by
  have hk := keeps_setStack machine.clearMarks stack range
  exact ⟨hk.running, hk.below⟩

theorem Standing.act {target : Nat} {stack : List Value}
    (h : Standing program shape index store machine) (after : Store)
    (hi : program.code[index]? = some ⟨op, pos⟩)
    (hx : execute scene.setting machine.clearMarks op = .ok next)
    (hkeeps : machine.execution.Keeps Nowhere next.execution)
    (hlands : next.execution.program = program ∧ next.execution.pc = target ∧
      next.status = .started ∧ next.stack = stack)
    (hvars : Variables.ofExecution next.execution = after.vars)
    (hobjects : next.world.objects = after.objects) (hcalls : next.world.host = after.calls) :
    ∃ last, Reaches scene.setting machine last ∧
      Lands program shape Nowhere machine stack target after last ∧
      last.execution.frame = next.execution.frame := by
  obtain ⟨hruns, hpc, hstatus, hstack⟩ := hlands
  refine ⟨next.countStep, h.reaches hi hx (congrArg Status.waitingFor hstatus),
    ⟨⟨hruns, hpc, hstatus, hvars, hobjects, hcalls, ?_⟩, hstack, hkeeps.of_frames rfl rfl⟩, rfl⟩
  intro start role hsome
  refine h.top start role ?_
  rw [← hkeeps.globals_get? fun _ => id]
  exact hsome

variable {range : Nat → Prop} {origin last : Machine (List HostCall)} {stack : List Value}
  {target : Nat} {after : Store}

theorem Lands.mono {wider : Nat → Prop} (h : Lands program shape range origin stack target after last)
    (hw : ∀ start, range start → wider start) :
    Lands program shape wider origin stack target after last :=
  ⟨h.standing, h.stack, h.keeps.mono hw⟩

theorem Lands.trans {first : List Value} {middle : Nat} {store : Store}
    (h : Lands program shape range origin first middle store machine)
    (h' : Lands program shape range machine stack target after last) :
    Lands program shape range origin stack target after last :=
  ⟨h'.standing, h'.stack, h.keeps.trans h'.keeps⟩

theorem Lands.cast {stack' : List Value} {target' : Nat}
    (h : Lands program shape range origin stack target after last) (hstack : stack = stack')
    (htarget : target = target') : Lands program shape range origin stack' target' after last := by
  subst hstack htarget
  exact h

theorem Standing.move (h : Standing program shape index store machine)
    (hi : program.code[index]? = some ⟨op, pos⟩) {found : Machine (List HostCall)}
    (hf : Standing program shape index after found)
    (hframes : found.execution = machine.clearMarks.execution)
    (hx : execute scene.setting machine.clearMarks op = .ok ((found.setStack stack).goTo target)) :
    ∃ last, Reaches scene.setting machine last ∧
      Lands program shape Nowhere machine stack target after last := by
  have hkeeps := keeps_setStack found stack Nowhere
  rw [hframes] at hkeeps
  obtain ⟨last, hr, hl, -⟩ := h.act after hi hx ⟨hkeeps.running, hkeeps.below⟩
    ⟨(setStack_program found stack).trans hf.runs, rfl, hf.status, stack_setStack found stack⟩
    ((vars_setStack found stack).trans hf.vars) hf.objects hf.calls
  exact ⟨last, hr, hl⟩

theorem Standing.moveHere (h : Standing program shape index store machine)
    (hi : program.code[index]? = some ⟨op, pos⟩)
    (hx : execute scene.setting machine.clearMarks op =
      .ok ((machine.clearMarks.setStack stack).goTo target)) :
    ∃ last, Reaches scene.setting machine last ∧
      Lands program shape Nowhere machine stack target store last :=
  h.move hi h.clearMarks rfl hx

end Steps

end DurableScript
