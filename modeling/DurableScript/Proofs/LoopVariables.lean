import DurableScript.Proofs.CallFrames
import DurableScript.Proofs.Evaluation
import DurableScript.Proofs.LoopNames
import DurableScript.Proofs.ProcedureBodies

namespace DurableScript

open Node

/-- A hidden variable is set at the place where its loop begins, which is at `low` or behind. -/
def SetAtHome (shape : Nat → Shape) (low index : Nat) (instruction : Instruction) : Prop :=
  ∀ loop role, instruction.op = .setVariable (loopVariable loop role) →
    low ≤ loop ∧ (shape index).place = (shape loop).place

section Places

variable {shape : Nat → Shape} {size start low : Nat} {code : List Instruction}
  {entries : List (String × Nat)}

theorem setAtHome_of_ne {index : Nat} {instruction : Instruction}
    (h : ∀ name, instruction.op = .setVariable name → isHidden name = false) :
    SetAtHome shape low index instruction := by
  intro loop role hop
  cases (isHidden_loopVariable loop role).symm.trans (h _ hop)

theorem Op.Fits.place_succ {op : Op} {index : Nat} (h : op.Fits shape size index)
    (hop : op.straight = true) : (shape (index + 1)).place = (shape index).place := by
  cases op with
  | pushValue | pushVariable | pushResult =>
    rw [show shape (index + 1) = _ from h]
    rfl
  | stop | nop | wait => rw [show shape (index + 1) = _ from h]
  | operate | callBuiltin =>
    obtain ⟨base, hhere, hnext⟩ := h
    rw [hhere, hnext]
    rfl
  | setVariable =>
    rw [show shape index = _ from h]
    rfl
  | call | callMethod | jumpUnless =>
    rw [h.1]
    rfl
  | pushProperty | invert => rw [h.1]
  | jump | ret | expectStack => cases hop

theorem AllFit.place_eq (h : AllFit shape size start code)
    (hcode : ∀ instruction ∈ code, instruction.op.straight = true) :
    (shape (start + code.length)).place = (shape start).place := by
  induction code generalizing start with
  | nil => rfl
  | cons instruction rest ih =>
    obtain ⟨hfirst, hrest⟩ := List.forall_mem_cons.1 hcode
    rw [List.length_cons, Nat.add_comm rest.length, ← Nat.add_assoc, ih h.2 hrest]
    exact h.1.place_succ hfirst

theorem LowersValue.place_eq {phrase : Phrase} (h : LowersValue phrase start code)
    (hfits : AllFit shape size start code) :
    (shape (start + code.length)).place = (shape start).place :=
  hfits.place_eq fun instruction hi => Op.straight_of_computes (h.computes instruction hi)

theorem LowersValue.setAtHome {phrase : Phrase} (h : LowersValue phrase start code) :
    Along (SetAtHome shape low) start code := by
  refine Along.of_get fun index instruction hi => setAtHome_of_ne fun name hop => ?_
  have hcomputes := h.computes instruction (List.mem_of_getElem? hi)
  rw [hop] at hcomputes
  cases hcomputes

theorem Lowers.place_of_ownOps {exit? : Option Nat} {node : Node} {index : Nat} {name : String}
    (h : Lowers (.one exit? node) start code entries) (hfits : AllFit shape size start code)
    (hown : (index, .setVariable name) ∈ node.ownOps start) :
    (shape index).place = (shape start).place := by
  cases h with
  | @countLoop _ _ _ step _ _ _ stepped initial limit inner _ _ _ top _ _ _ htop _ hs hf hl hb =>
    have hns : stepped.length = valueSize _ := hs.length_eq
    have hnf : initial.length = valueSize _ := hf.length_eq
    have hnl : limit.length = valueSize _ := hl.length_eq
    have hnb : inner.length = statementsSize _ := hb.length_eq
    rw [← stepSize_eq] at hns
    have hbody : top + 1 + limit.length + 1 + 1 = top + limit.length + 3 := by omega
    simp only [Along.append_iff, List.length_append, List.length_cons, List.length_nil,
      ← Nat.add_assoc, Nat.zero_add, emit_cons, emit_nil, Along.cons_iff, Along.nil, and_true,
      ← htop, hbody] at hfits
    obtain ⟨⟨⟨⟨⟨⟨⟨hs₁, hset⟩, hf₁⟩, hset', -⟩, -⟩, -, -⟩, -⟩, -, -, -, hset'', hback⟩ := hfits
    have hplace := hs.place_eq hs₁
    have hplace' := (hf.place_eq hf₁).trans ((hset.place_succ rfl).trans hplace)
    have hagain : (shape top).place = (shape start).place := by
      rw [htop]
      exact (hset'.place_succ rfl).trans hplace'
    have hlast : (shape (top + limit.length + 3 + inner.length + 1 + 1 + 1)).place =
        (shape start).place :=
      (hset''.place_succ rfl).symm.trans ((congrArg Shape.place hback.1).symm.trans hagain)
    simp only [ownOps, ← hns, ← hnf, ← hnl, ← hnb, ← htop, List.mem_cons, Prod.mk.injEq,
      reduceCtorEq, and_false, false_or, List.not_mem_nil, or_false] at hown
    rcases hown with ⟨rfl, -⟩ | ⟨rfl, -⟩ | ⟨rfl, -⟩
    · exact hplace
    · exact hplace'
    · exact hlast
  | @eachLoop _ _ _ _ _ source inner _ _ _ _ top _ _ _ _ htop _ hv hb =>
    have hnv : source.length = valueSize _ := hv.length_eq
    have hnb : inner.length = statementsSize _ := hb.length_eq
    have hbody : start + source.length + 1 + 1 + 1 + 1 + 1 + 1 + 1 + 1 + 1 + 1 + 1 + 1 + 1 + 1 =
      top + 8 := by omega
    have hinside : start + source.length + 14 = top + 8 := by omega
    simp only [Along.append_iff, List.length_append, List.length_cons, List.length_nil,
      ← Nat.add_assoc, Nat.zero_add, emit_cons, emit_nil, Along.cons_iff, Along.nil, and_true,
      hbody] at hfits
    obtain ⟨⟨⟨hv₁, hset, hzero, hset', hpush, hcall, hset'', -⟩, -⟩, -, -, -, hnext, hback⟩ := hfits
    have hplace := hv.place_eq hv₁
    have hplace' := (hzero.place_succ rfl).trans ((hset.place_succ rfl).trans hplace)
    have hplace'' := (hcall.place_succ rfl).trans
      ((hpush.place_succ rfl).trans ((hset'.place_succ rfl).trans hplace'))
    have hagain : (shape top).place = (shape start).place := by
      rw [htop]
      exact (hset''.place_succ rfl).trans hplace''
    have hlast : (shape (top + 8 + inner.length + 1 + 1 + 1)).place = (shape start).place :=
      (hnext.place_succ rfl).symm.trans ((congrArg Shape.place hback.1).symm.trans hagain)
    simp only [ownOps, ← hnv, ← hnb, hinside, List.mem_cons, Prod.mk.injEq, reduceCtorEq, and_false,
      false_or, List.not_mem_nil, or_false] at hown
    rcases hown with ⟨rfl, -⟩ | ⟨rfl, -⟩ | ⟨rfl, -⟩ | ⟨rfl, -⟩
    · exact hplace
    · exact hplace'
    · exact hplace''
    · exact hlast
  | _ => cases hown

theorem Lowers.setAtHome {clause : Clause} (h : Lowers clause start code entries)
    (hnames : Discreet clause.names) (hfits : AllFit shape size start code) :
    Along (SetAtHome shape start) start code := by
  have hsites := h.sites hnames
  refine Along.of_get fun i instruction hi loop role hop => ?_
  obtain ⟨site, hsite, hmem, hown⟩ := hsites.owned.get hi (loopVariable loop role)
    (by simp [hop, Op.variables]) (isHidden_loopVariable loop role)
  obtain ⟨role', hrole⟩ := eq_of_mem_hidden hmem
  obtain ⟨exit?, code', entries', hlowers, hfits'⟩ := hsites.lowers _ hfits site hsite
  rw [(loopVariable_inj hrole).1]
  exact ⟨(hsites.within site hsite).1, hlowers.place_of_ownOps hfits' (hop ▸ hown)⟩

end Places

inductive Program.Contains (program : Program) (start : Nat) (node : Node) : Prop where
  | script {tree : Node} {before : List Node} : tree.compile before = .ok program →
      Discreet (namesIn (before ++ tree.topLevel)) →
      (start, node) ∈ locatedIn 0 (before ++ tree.topLevel) → Contains program start node
  | expression {tree : Node} {before : List Node} : tree.compileExpression before = .ok program →
      Discreet (namesIn before) → (start, node) ∈ locatedIn 0 before → Contains program start node

theorem Program.Contains.exists_setAtHome {program : Program} {start : Nat} {node : Node}
    (h : program.Contains start node) :
    ∃ shape table, Compiled program shape table ∧ shape 0 = ⟨0, .top⟩ ∧
      Along (SetAtHome shape 0) 0 program.code.toList ∧ program.Has start node ∧
      Discreet node.names := by
  cases h with
  | script h hnames hmem =>
    obtain ⟨shape, table, hc, hstart⟩ := Program.exists_compiled (.inl h)
    have hfits := hc.fits
    obtain ⟨code, entries, hlowers, rfl⟩ := Lowers.of_compile h
    have hsites := hlowers.sites hnames
    exact ⟨shape, table, hc, hstart, hlowers.setAtHome hnames hfits,
      hsites.lowers _ (Program.holds_toArray code _) _ hmem, hsites.discreet _ hmem⟩
  | expression h hnames hmem =>
    obtain ⟨shape, table, hc, hstart⟩ := Program.exists_compiled (.inr h)
    have hfits := hc.fits
    obtain ⟨code, entries, value, hlowers, hvalue, rfl⟩ := Lowers.of_compileExpression h
    have hsites := hlowers.sites hnames
    obtain ⟨hcode, -⟩ := Along.append_iff.1 hfits
    have hheld := (Along.append_iff.1 (Program.holds_toArray (code ++ value) (Table.ofPairs entries))).1
    refine ⟨shape, table, hc, hstart, Along.append_iff.2 ⟨hlowers.setAtHome hnames hcode, ?_⟩,
      hsites.lowers _ hheld _ hmem, hsites.discreet _ hmem⟩
    rw [Nat.zero_add]
    exact hvalue.setAtHome

structure Setting.Discreet {H : Type} (setting : Setting H) : Prop where
  functions : ∀ provider ∈ setting.functions, ∀ context name args world,
    ∀ write ∈ (provider.invoke context name args world).1.writes, isHidden write.name = false
  methods : ∀ provider ∈ setting.methods, ∀ context object name args world,
    ∀ write ∈ (provider.invoke context object name args world).1.writes, isHidden write.name = false

theorem discreet_alone : alone.Discreet := ⟨nofun, nofun⟩

namespace Execution

/-- From one moment to the next the host writes a variable, or the next instruction is executed, with
any providers, signals and limits. No hidden variables are written by the host. Where a step fails, no
operands are lost. -/
inductive Proceeds : Execution → Execution → Prop where
  | write {execution : Execution} (write : HostWrite) : isHidden write.name = false →
      Proceeds execution (write.run execution)
  | step {H : Type} {setting : Setting H} {machine next : Machine H} {instruction : Instruction} :
      setting.Discreet → machine.next? = some instruction →
      machine.step setting instruction = .ok next → Proceeds machine.execution next.execution
  | fail {H : Type} {setting : Setting H} {machine failed : Machine H} {instruction : Instruction}
      {error : RunError} : setting.Discreet → machine.next? = some instruction →
      machine.step setting instruction = .fail error failed → machine.lost setting instruction = 0 →
      Proceeds machine.execution failed.execution

inductive Career (program : Program) : Execution → Prop where
  | start : Career program (.start program)
  | proceed {execution after : Execution} : Career program execution → execution.Proceeds after →
      Career program after

/-- The same, up to the count of steps and marks: the host has only written variables, or the next
instruction has been executed. -/
inductive Turn (execution after : Execution) : Prop where
  | idle (writes : List HostWrite) : (∀ write ∈ writes, isHidden write.name = false) →
      after.SameFrames (writes.foldl HostWrite.run execution) → after.pc = execution.pc →
      Turn execution after
  | done {H : Type} {setting : Setting H} {machine done : Machine H} {instruction : Instruction} :
      setting.Discreet → machine.execution = execution.unmarked →
      execution.instruction? = some instruction →
      Machine.execute setting machine instruction.op = .ok done →
      after.SameFrames done.execution → after.pc = done.execution.pc → Turn execution after

theorem SameFrames.writes {execution other : Execution} (h : execution.SameFrames other)
    (writes : List HostWrite) :
    (writes.foldl HostWrite.run execution).SameFrames (writes.foldl HostWrite.run other) := by
  induction writes generalizing execution other with
  | nil => exact h
  | cons write rest ih =>
    refine ih ?_
    cases write with
    | toFrame name value => exact h.modifyFrame fun frame => frame.set name value
    | toGlobals name value => exact ⟨h.program, congrArg (·.set name value) h.globals, h.calls⟩

theorem SameFrames.assign {execution other : Execution} (h : execution.SameFrames other)
    (name : String) (value : Value) :
    (execution.assign name value).SameFrames (other.assign name value) := by
  unfold Execution.assign
  rw [h.globals]
  split
  · exact ⟨h.program, congrArg (·.set name value) h.globals, h.calls⟩
  · exact h.modifyFrame fun frame => frame.set name value

end Execution

namespace Machine

variable {H : Type} {setting : Setting H} {machine : Machine H} {op : Op}

theorem discreet_reply (h : setting.Discreet) {request : Request H} {found : Machine H}
    (hr : machine.request? setting op = some (request, found)) :
    ∀ write ∈ (found.reply setting request).1.writes, isHidden write.name = false := by
  cases request?_cases hr with
  | function _ hfind => exact h.functions _ (List.mem_of_find?_eq_some hfind) _ _ _ _
  | method _ hfind => exact h.methods _ (List.mem_of_find?_eq_some hfind) _ _ _ _ _

theorem discreet_writes (h : setting.Discreet) (machine : Machine H) (op : Op) :
    ∀ write ∈ machine.writes setting op, isHidden write.name = false := by
  unfold writes
  cases hr : machine.request? setting op with
  | none => exact nofun
  | some asked => exact discreet_reply h hr

theorem turn_of_ok {next : Machine H} {instruction : Instruction} (h : setting.Discreet)
    (hn : machine.next? = some instruction) (hs : machine.step setting instruction = .ok next) :
    machine.execution.Turn next.execution := by
  obtain ⟨done, hx, rfl⟩ := ok_cases hs
  refine .done h rfl (instruction?_of_next? hn) hx ?_ ?_
  all_goals
    unfold finishStep
    split
  · exact ⟨rfl, rfl, rfl⟩
  · exact ⟨rfl, rfl, rfl⟩
  · rfl
  · rfl

end Machine

theorem Execution.Proceeds.turn {execution after : Execution} (h : execution.Proceeds after)
    {program : Program} {shape : Nat → Shape} {table : Table Procedure}
    (hc : Compiled program shape table) (hrest : execution.Resting program shape table) :
    execution.Turn after := by
  cases h with
  | write write hwrite =>
    refine .idle [write] (List.forall_mem_singleton.2 hwrite) ⟨rfl, rfl, rfl⟩ ?_
    exact (execution.alike_write write).pc
  | step hdiscreet hn hs => exact Machine.turn_of_ok hdiscreet hn hs
  | @fail H setting machine failed instruction error hdiscreet hn hs hlost =>
    have hkept := Machine.kept_of_resting hrest hn
    have hready : machine.clearMarks.Ready instruction.op := hkept.clearMarks.ready hc hn
    obtain ⟨limit, -, -, rfl | hdone⟩ | ⟨hx, -⟩ := Machine.execution_of_fail hready hs
    · exact .idle [] nofun ⟨rfl, rfl, rfl⟩ rfl
    · have hdiscreet' : setting.uncounted.Discreet := ⟨hdiscreet.functions, hdiscreet.methods⟩
      exact Machine.turn_of_ok hdiscreet' hn hdone
    · rw [hlost, dropOperands_zero] at hx
      refine .idle _ (Machine.discreet_writes hdiscreet machine.clearMarks instruction.op) ?_ ?_
      · rw [hx]
        have hunmarked : machine.execution.unmarked.SameFrames machine.execution := ⟨rfl, rfl, rfl⟩
        exact hunmarked.writes _
      · rw [hx]
        exact (alike_writes _ _).pc

theorem Frame.get?_set (frame : Frame) (name other : String) (value : Value) :
    (frame.set name value).get? other = if name = other then some value else frame.get? other :=
  Table.find?_insert name other value frame.vars

namespace Execution

variable {execution other : Execution} {name : String}

def column (name : String) (execution : Execution) : List (Option Value) :=
  execution.frames.map (·.get? name)

theorem length_column (execution : Execution) (name : String) :
    (execution.column name).length = execution.depth := by
  simp [column, frames, depth]

theorem SameFrames.column_eq (h : execution.SameFrames other) (name : String) :
    execution.column name = other.column name := by
  rw [column, column, frames, frames, h.globals, h.calls]

theorem column_modifyFrame (execution : Execution) {f : Frame → Frame}
    (h : ∀ frame, (f frame).get? name = frame.get? name) :
    (execution.modifyFrame f).column name = execution.column name := by
  obtain ⟨_, _, calls, _, _, _⟩ := execution
  cases calls with
  | nil | cons call rest => simp [column, frames, modifyFrame, h]

theorem column_dropOperands (execution : Execution) (count : Nat) (name : String) :
    (execution.dropOperands count).column name = execution.column name :=
  execution.column_modifyFrame (f := fun frame => { frame with stack := frame.stack.drop count })
    fun _ => rfl

theorem column_setLocal (execution : Execution) (name other : String) (value : Value) :
    (execution.setLocal name value).column other =
      if name = other then (execution.column other).set execution.calls.length (some value)
      else execution.column other := by
  split
  · next hname =>
    obtain ⟨_, _, calls, _, _, _⟩ := execution
    cases calls with
    | nil | cons call rest => simp [column, frames, setLocal, modifyFrame, Frame.get?_set, hname]
  · next hname =>
    refine execution.column_modifyFrame fun frame => ?_
    rw [Frame.get?_set, if_neg hname]

theorem column_setGlobal (execution : Execution) (name other : String) (value : Value) :
    (execution.setGlobal name value).column other =
      if name = other then (execution.column other).set 0 (some value)
      else execution.column other := by
  split
  · next hname => simp [column, frames, setGlobal, Frame.get?_set, hname]
  · next hname => simp [column, frames, setGlobal, Frame.get?_set, hname]

theorem column_assign_ne (execution : Execution) {name other : String} (h : name ≠ other)
    (value : Value) : (execution.assign name value).column other = execution.column other := by
  unfold assign
  split
  · rw [column_setGlobal, if_neg h]
  · rw [column_setLocal, if_neg h]

theorem column_writes {writes : List HostWrite} (h : ∀ write ∈ writes, write.name ≠ name)
    (execution : Execution) :
    (writes.foldl HostWrite.run execution).column name = execution.column name := by
  induction writes generalizing execution with
  | nil => rfl
  | cons write rest ih =>
    obtain ⟨hwrite, hrest⟩ := List.forall_mem_cons.1 h
    rw [List.foldl_cons, ih hrest]
    cases write with
    | toFrame key value => exact (execution.column_setLocal key name value).trans (if_neg hwrite)
    | toGlobals key value => exact (execution.column_setGlobal key name value).trans (if_neg hwrite)

inductive Adjusts (before after : List (Option Value)) : Prop where
  | same : after = before → Adjusts before after
  | opened : after = before ++ [none] → Adjusts before after
  | left : after = before.dropLast → Adjusts before after

theorem Adjusts.getElem?_eq {before after : List (Option Value)} (h : Adjusts before after)
    {level : Nat} (hbefore : level < before.length) (hafter : level < after.length) :
    after[level]? = before[level]? := by
  cases h with
  | same h => rw [h]
  | opened h => rw [h, List.getElem?_append_left hbefore]
  | left h =>
    rw [h, List.length_dropLast] at hafter
    rw [h, List.getElem?_dropLast, if_pos hafter]

end Execution

namespace Machine

open Execution

variable {H : Type} {setting : Setting H} {machine next : Machine H} {op : Op} {name : String}

theorem column_setStack (machine : Machine H) (stack : List Value) (name : String) :
    (machine.setStack stack).execution.column name = machine.execution.column name :=
  machine.execution.column_modifyFrame (f := fun frame => { frame with stack := stack }) fun _ => rfl

theorem column_execute (hdiscreet : setting.Discreet) (hname : isHidden name = true)
    (hop : op ≠ .setVariable name) (h : execute setting machine op = .ok next) :
    Adjusts (machine.execution.column name) (next.execution.column name) := by
  have hsame {mid after : Execution} (hmid : mid.column name = machine.execution.column name)
      (hframes : after.SameFrames mid) : Adjusts (machine.execution.column name) (after.column name) :=
    .same ((hframes.column_eq name).trans hmid)
  have hresult (execution : Execution) (value : Value) :
      (execution.setResult value).column name = execution.column name :=
    execution.column_modifyFrame (f := fun frame => { frame with result := value }) fun _ => rfl
  have htakes {count : Nat} {taken : Machine H} (htaken : machine.Takes count taken) :
      taken.execution.column name = machine.execution.column name := by
    rw [htaken.execution]
    exact machine.execution.column_dropOperands count name
  have hasks {request : Request H} {outcome : Except RunError Answer} {said : Machine H}
      (hasked : Asked setting machine op request outcome said) :
      said.execution.column name = machine.execution.column name := by
    obtain ⟨found, hr, -, -, rfl⟩ := hasked
    refine (column_writes ?_ _).trans ?_
    · rintro write hwrite rfl
      cases hname.symm.trans (discreet_reply hdiscreet hr write hwrite)
    · rw [asking, (sameRun_request? hr).execution]
      exact machine.execution.column_dropOperands _ name
  cases effect_of_ok h with
  | @pushes _ taken value _ _ htaken =>
    have hpush := column_setStack taken (value :: taken.stack) name
    rw [← push_eq_setStack] at hpush
    exact hsame (hpush.trans (htakes htaken)) ⟨rfl, rfl, rfl⟩
  | advances _ _ htaken | jumps _ htaken => exact hsame (htakes htaken) ⟨rfl, rfl, rfl⟩
  | assigns value htaken =>
    have hne := fun hother => hop (congrArg _ hother)
    exact hsame ((column_assign_ne _ hne value).trans (htakes htaken)) ⟨rfl, rfl, rfl⟩
  | stops | waits => exact .same rfl
  | @enters _ argc =>
    have hopened : (machine.entered argc).execution.column name =
        (machine.execution.dropOperands argc).column name ++ [none] := by
      simp [entered, Execution.opened, callee, column, frames, Frame.get?, Table.find?]
    exact .opened (hopened.trans (by rw [column_dropOperands]))
  | returns value _ htaken hcalls =>
    obtain ⟨left, callers, hopen, -, hframes⟩ := htaken.exists_caller hcalls value
    refine .left ((hframes.column_eq name).trans ((hresult _ value).trans ?_))
    simp [column, frames, hopen, List.dropLast_cons_of_ne_nil]
  | ends value _ htaken => exact hsame ((hresult _ value).trans (htakes htaken)) ⟨rfl, rfl, rfl⟩
  | answers result hasked | interrupts result hasked =>
    exact hsame ((hresult _ result).trans (hasks hasked)) ⟨rfl, rfl, rfl⟩
  | repeats hasked => exact hsame (hasks hasked) ⟨rfl, rfl, rfl⟩

end Machine

namespace Execution

variable {execution after : Execution} {name : String} {value : Value}

structure Sets (name : String) (value : Value) (execution after : Execution) : Prop where
  instruction : ∃ pos, execution.instruction? = some ⟨.setVariable name, pos⟩
  stack : ∃ rest, execution.frame.stack = value :: rest
  frames : after.SameFrames ((execution.dropOperands 1).assign name value)
  pc : after.pc = execution.pc + 1

theorem head?_column (execution : Execution) (name : String) :
    (execution.column name)[0]? = some (execution.globals.get? name) := rfl

theorem column_assign (execution : Execution) (name : String) (value : Value) :
    (execution.assign name value).column name = (execution.column name).set
      (if (execution.globals.get? name).isSome then 0 else execution.calls.length) (some value) := by
  unfold assign
  by_cases h : Table.contains name execution.globals.vars = true
  · rw [if_pos h, if_pos (show (execution.globals.get? name).isSome = true from h), column_setGlobal,
      if_pos rfl]
  · rw [if_neg h, if_neg (show ¬ (execution.globals.get? name).isSome = true from h), column_setLocal,
      if_pos rfl]

theorem Sets.column_eq (h : execution.Sets name value after) :
    after.column name = (execution.column name).set
      (if (execution.globals.get? name).isSome then 0 else execution.calls.length) (some value) := by
  have hcolumn := execution.column_dropOperands 1 name
  have hglobals : (execution.dropOperands 1).globals.get? name = execution.globals.get? name := by
    have hhead := congrArg (·[0]?) hcolumn
    exact Option.some.inj hhead
  have hcalls : (execution.dropOperands 1).calls.length = execution.calls.length :=
    Nat.succ.inj (execution.stays_dropOperands 1).depth_eq
  rw [h.frames.column_eq, column_assign, hcolumn, hglobals, hcalls]

theorem sets_of_execute {H : Type} {setting : Setting H} {machine done : Machine H}
    {pos : Option SourcePos} (hi : execution.instruction? = some ⟨.setVariable name, pos⟩)
    (hmachine : machine.execution = execution.unmarked)
    (hx : Machine.execute setting machine (.setVariable name) = .ok done)
    (hframes : after.SameFrames done.execution) (hpc : after.pc = done.execution.pc) :
    ∃ value, execution.Sets name value after := by
  have hunmarked : machine.execution.SameFrames execution := hmachine ▸ ⟨rfl, rfl, rfl⟩
  rw [Machine.execute] at hx
  obtain ⟨value, rest, hstack, hx⟩ := Machine.popThen_eq_ok hx
  cases hx
  have hstack' : execution.frame.stack = value :: rest := by
    rw [← hunmarked.frame_eq]
    exact hstack
  refine ⟨value, ⟨pos, hi⟩, ⟨rest, hstack'⟩, hframes.trans ?_, hpc.trans ?_⟩
  · have hdropped : (machine.setStack rest).execution.SameFrames (execution.dropOperands 1) := by
      have hrest : machine.stack.drop 1 = rest := by
        rw [hstack]
        rfl
      rw [Machine.execution_setStack hrest]
      exact hunmarked.modifyFrame _
    have hassigned := hdropped.assign name value
    exact ⟨hassigned.program, hassigned.globals, hassigned.calls⟩
  · show ((machine.setStack rest).execution.assign name value).pc + 1 = execution.pc + 1
    rw [(alike_assign _ name value).pc, Machine.setStack_pc, hmachine]
    rfl

theorem Turn.sets {pos : Option SourcePos} (h : execution.Turn after)
    (hi : execution.instruction? = some ⟨.setVariable name, pos⟩) (hpc : after.pc ≠ execution.pc) :
    ∃ value, execution.Sets name value after := by
  cases h with
  | idle _ _ _ hstays => exact absurd hstays hpc
  | done _ hmachine hi' hx hframes hdone =>
    cases hi.symm.trans hi'
    exact sets_of_execute hi hmachine hx hframes hdone

theorem Turn.column (h : execution.Turn after) (hname : isHidden name = true) :
    Adjusts (execution.column name) (after.column name) ∨ ∃ value, execution.Sets name value after := by
  cases h with
  | idle writes hwrites hframes =>
    refine .inl (.same ?_)
    rw [hframes.column_eq, column_writes]
    rintro write hwrite rfl
    cases hname.symm.trans (hwrites write hwrite)
  | @done H setting machine done instruction hdiscreet hmachine hi hx hframes hpc =>
    obtain ⟨op, pos⟩ := instruction
    by_cases hop : op = .setVariable name
    · subst hop
      exact .inr (sets_of_execute hi hmachine hx hframes hpc)
    · left
      have hunmarked : machine.execution.SameFrames execution := hmachine ▸ ⟨rfl, rfl, rfl⟩
      rw [hframes.column_eq, ← hunmarked.column_eq]
      exact Machine.column_execute hdiscreet hname hop hx

def Sheltered (shape : Nat → Shape) (execution : Execution) : Prop :=
  ∀ loop role, (execution.globals.get? (loopVariable loop role)).isSome = true →
    (shape loop).place = .top

variable {program : Program} {shape : Nat → Shape} {table : Table Procedure}

theorem Settled.place_eq_top_iff (h : execution.Settled program shape) :
    (shape execution.pc).place = .top ↔ execution.calls = [] := by
  have hnested := h.nested
  unfold Nested outline at hnested
  cases hcalls : execution.calls with
  | nil =>
    rw [hcalls] at hnested
    exact iff_of_true hnested.2 rfl
  | cons top rest =>
    rw [hcalls] at hnested
    exact iff_of_false hnested.2.1 nofun

theorem Resting.place_eq {loop : Nat} {role : String} {pos : Option SourcePos}
    (h : execution.Resting program shape table)
    (hhome : Along (SetAtHome shape 0) 0 program.code.toList)
    (hi : execution.instruction? = some ⟨.setVariable (loopVariable loop role), pos⟩) :
    (shape loop).place = .top ↔ execution.calls = [] := by
  rw [← (h.settled_of_straight hi rfl).place_eq_top_iff]
  have hat : program.code.toList[execution.pc]? = some ⟨.setVariable (loopVariable loop role), pos⟩ := by
    rw [← hi, instruction?, h.runs, Array.getElem?_toList]
  have hplace := (hhome.get hat loop role rfl).2
  rw [Nat.zero_add] at hplace
  rw [hplace]

theorem Turn.sheltered (h : execution.Turn after)
    (hhome : Along (SetAtHome shape 0) 0 program.code.toList)
    (hrest : execution.Resting program shape table) (hsheltered : execution.Sheltered shape) :
    after.Sheltered shape := by
  intro loop role hsome
  by_cases hbefore : (execution.globals.get? (loopVariable loop role)).isSome = true
  · exact hsheltered loop role hbefore
  have hnone : execution.globals.get? (loopVariable loop role) = none := by simpa using hbefore
  obtain hadjusts | ⟨value, hsets⟩ := h.column (isHidden_loopVariable loop role)
  · have hlength (execution : Execution) : 0 < (execution.column (loopVariable loop role)).length := by
      simp [length_column, depth]
    have hhead := hadjusts.getElem?_eq (hlength execution) (hlength after)
    rw [head?_column, head?_column, hnone] at hhead
    rw [Option.some.inj hhead] at hsome
    cases hsome
  · obtain ⟨pos, hi⟩ := hsets.instruction
    refine (hrest.place_eq hhome hi).2 ?_
    -- With a call on top the global frame would not have got the variable.
    by_contra hcalls
    have hhead := congrArg (·[0]?) hsets.column_eq
    simp only [if_neg hbefore] at hhead
    rw [List.getElem?_set_ne (by simpa using hcalls), head?_column, head?_column, hnone] at hhead
    rw [Option.some.inj hhead] at hsome
    cases hsome

structure Orderly (program : Program) (shape : Nat → Shape) (table : Table Procedure)
    (execution : Execution) : Prop where
  resting : execution.Resting program shape table
  sheltered : execution.Sheltered shape

theorem Proceeds.resting (h : execution.Proceeds after) (hc : Compiled program shape table)
    (hrest : execution.Resting program shape table) : after.Resting program shape table := by
  cases h with
  | write write => exact hrest.of_alike (execution.alike_write write)
  | @step H setting machine next instruction _ hn hs =>
    have hstep : (machine.step setting instruction).Meets _ _ :=
      Machine.meets_step hc (Machine.kept_of_resting hrest hn) hn
    rw [hs] at hstep
    exact Machine.Kept.resting hstep
  | fail _ hn hs hlost => exact (Machine.kept_of_resting hrest hn).resting_of_fail hc hn hs hlost

theorem Orderly.proceeds (h : execution.Orderly program shape table)
    (hc : Compiled program shape table) (hhome : Along (SetAtHome shape 0) 0 program.code.toList)
    (hproceeds : execution.Proceeds after) : after.Orderly program shape table :=
  ⟨hproceeds.resting hc h.resting,
    (hproceeds.turn hc h.resting).sheltered hhome h.resting h.sheltered⟩

theorem Career.orderly (h : Career program execution) (hc : Compiled program shape table)
    (hstart : shape 0 = ⟨0, .top⟩) (hhome : Along (SetAtHome shape 0) 0 program.code.toList) :
    execution.Orderly program shape table := by
  induction h with
  | start => exact ⟨.inl (settled_start hstart), nofun⟩
  | proceed _ hproceeds ih => exact ih.proceeds hc hhome hproceeds

theorem Career.reaches {H : Type} {setting : Setting H} {machine last : Machine H}
    (h : Career program machine.execution) (hdiscreet : setting.Discreet)
    (hreaches : Machine.Reaches setting machine last) : Career program last.execution := by
  induction hreaches with
  | refl => exact h
  | step hn hs _ ih => exact ih (h.proceed (.step hdiscreet hn hs))

end Execution

end DurableScript
