import DurableScript.Proofs.Addresses
import DurableScript.Proofs.Binary64
import DurableScript.Proofs.Restoring
import DurableScript.Proofs.SnapshotText
import DurableScript.Snapshot.Read

/-!
Snapshots of executions and back.
-/

namespace DurableScript

namespace Value

variable {objects : Objects} {value : Value} {items : List Value}

def IsScalar : Value → Prop
  | list _ | record _ | object _ => False
  | _ => True

theorem IsScalar.keepable (h : value.IsScalar) : value.Keepable objects := by
  cases value <;> trivial

theorem IsScalar.shallow (h : value.IsScalar) : value.Shallow := by
  cases value <;> trivial

theorem IsScalar.objectFree (h : value.IsScalar) : value.ObjectFree := by
  cases value <;> trivial

theorem IsScalar.restoredAs {first : Nat} (h : value.IsScalar) :
    value.RestoredAs objects first value := by
  cases value <;> first | rfl | contradiction

theorem keepableItems_iff :
    KeepableItems objects items ↔ ∀ item ∈ items, item.Keepable objects := by
  induction items with
  | nil => simp [KeepableItems]
  | cons item rest ih => rw [KeepableItems, ih, List.forall_mem_cons]

theorem keepableFields_iff {fields : List (String × Value)} :
    KeepableFields objects fields ↔ ∀ entry ∈ fields, entry.2.Keepable objects := by
  induction fields with
  | nil => simp [KeepableFields]
  | cons entry rest ih => rw [KeepableFields, ih, List.forall_mem_cons]

theorem shallowItems_iff : ShallowItems items ↔ ∀ item ∈ items, item.Shallow := by
  induction items with
  | nil => simp [ShallowItems]
  | cons item rest ih => rw [ShallowItems, ih, List.forall_mem_cons]

theorem objectFreeItems_iff : ObjectFreeItems items ↔ ∀ item ∈ items, item.ObjectFree := by
  induction items with
  | nil => simp [ObjectFreeItems]
  | cons item rest ih => rw [ObjectFreeItems, ih, List.forall_mem_cons]

theorem restoredItems_iff {first : Nat} {restored : List Value} :
    RestoredItems objects first items restored ↔
      List.Forall₂ (RestoredAs objects first) items restored := by
  induction items generalizing restored with
  | nil => simp [RestoredItems]
  | cons item rest ih => simp only [RestoredItems, List.forall₂_cons_left_iff, ih]; grind

end Value

namespace Op

theorem code_lt (op : Op) : op.code < 2 ^ 64 := by cases op <;> simp [code]

theorem isScalar_operands (op : Op) : ∀ value ∈ op.operands, value.IsScalar := by
  cases op with
  | pushValue literal => cases literal <;> simp [operands, Literal.value, Value.IsScalar]
  | _ => simp [operands, indexValue, Value.IsScalar]

end Op

namespace Snapshot

namespace Operands

variable (index : Nat) {rest : List Value}

theorem run_bind {α β : Type} {x : Operands α} {f : α → Operands β} {values : List Value} {a : α}
    (h : x.run values = .ok (a, rest)) : (x >>= f).run values = (f a).run rest := by
  rw [StateT.run_bind, h]
  rfl

theorem run_string (s : String) : (string index).run (.str s :: rest) = .ok (s, rest) := rfl

theorem run_bool (b : Bool) : (bool index).run (.bool b :: rest) = .ok (b, rest) := rfl

theorem run_literal {l : Literal} (h : (Op.pushValue l).Spellable) :
    (literal index).run (l.value :: rest) = .ok (l, rest) := by
  cases l with
  | double bits =>
    obtain ⟨x, rfl⟩ := h
    rw [Literal.value, Binary64.ofBits_toBits]
    rfl
  | _ => rfl

theorem run_count {n : Nat} (h : n < 2 ^ 63) :
    (count index).run (Op.indexValue n :: rest) = .ok (n, rest) := by
  have hn : (Int64.ofNat n).toInt = n := Int64.toInt_ofNat_of_lt h
  show (if 0 ≤ (Int64.ofNat n).toInt then _ else _ : Operands Nat).run rest = _
  rw [hn, if_pos (Int.natCast_nonneg n)]
  rfl

theorem run_operator (op : Operator) :
    (operator index).run (.str op.symbol :: rest) = .ok (op, rest) := by
  refine (run_bind (run_string index op.symbol)).trans ?_
  rw [Operator.ofSymbol?_symbol]
  rfl

theorem run_builtin (f : Builtin) : (builtin index).run (.str f.name :: rest) = .ok (f, rest) := by
  refine (run_bind (run_string index f.name)).trans ?_
  rw [Builtin.ofName?_name]
  rfl

theorem run_strings (names : List String) :
    StateT.run (strings index) (names.map .str) = .ok (names, []) := by
  have hnames := @List.mapM_eq_pure_self (Except FormatError) _ _ _ _ names fun _ _ => rfl
  rw [StateT.run, strings, List.mapM_map]
  exact congrArg (· >>= fun names => pure (names, [])) hnames

end Operands

open Operands in
theorem run_readOp (index : Nat) {op : Op} (h : ∀ n ∈ op.counts, n < 2 ^ 63)
    (hspellable : op.Spellable) :
    (readOp index op.code).run op.operands = .ok (op, []) := by
  cases op with
  | pushValue l => exact run_bind (run_literal index hspellable)
  | pushVariable name | setVariable name
  | pushProperty name => exact run_bind (run_string index name)
  | operate op => exact run_bind (run_operator index op)
  | call name argc restart =>
    exact (run_bind (run_string index name)).trans <|
      (run_bind (run_count index (h argc (by simp [Op.counts])))).trans <|
      run_bind (run_count index (h restart (by simp [Op.counts])))
  | callMethod object name argc restart =>
    exact (run_bind (run_string index object)).trans <| (run_bind (run_string index name)).trans <|
      (run_bind (run_count index (h argc (by simp [Op.counts])))).trans <|
      run_bind (run_count index (h restart (by simp [Op.counts])))
  | jumpUnless target
  | jump target => exact run_bind (run_count index (h target (by simp [Op.counts])))
  | stop => rfl
  | callBuiltin f argc =>
    exact (run_bind (run_builtin index f)).trans <|
      run_bind (run_count index (h argc (by simp [Op.counts])))
  | nop => rfl
  | wait all names =>
    exact (run_bind (run_bool index all)).trans (run_bind (run_strings index names))
  | pushResult => rfl
  | expectStack count => exact run_bind (run_count index (h count (by simp [Op.counts])))
  | ret hasValue => exact run_bind (run_bool index hasValue)
  | invert => rfl

variable {objects : Objects} {ready : Objects → Prop} {sources : Sources} {source : Nat}
  {R : ObjectRef Value → ObjectRef Value → Prop}

open Restoring

theorem reads_restoreJson {value : Value} {form : TagForm} (hform : value.tagForm objects = .ok form)
    (hkeep : value.Keepable objects) (hshallow : value.Shallow)
    (h : ∀ ref ∈ value.refs, Finds ready sources source objects R ref) :
    (restoreJson sources source form.json).Reads ready (value.Matches R) := by
  obtain ⟨_, hform', hspells⟩ := value.exists_tagForm hkeep.spells
  cases hform.symm.trans hform'
  have hread := hspells.ofJsonWith_eq _ (Tagged.everywhere_readBy_ofText form.json)
  rw [restoreJson, Tagged.ofJson, hread]
  refine value.reads_restore hkeep.wellNamed hshallow fun ref href => ?_
  obtain ⟨id, hid⟩ := hkeep.exists_reference ref href
  exact (h ref href).restores hid

theorem reads_restoreJson_self {value : Value} {form : TagForm}
    (hform : value.tagForm objects = .ok form) (hkeep : value.Keepable objects)
    (hshallow : value.Shallow) (hfree : value.ObjectFree) :
    (restoreJson sources source form.json).Reads ready (· = value) := by
  refine (reads_restoreJson (R := fun _ _ => True) hform hkeep hshallow ?_).mono
    fun _ h => h.eq_of_objectFree hfree
  rw [hfree.refs_eq_nil]
  exact nofun

theorem exists_toJson {value : Value} (hkeep : value.Keepable objects) :
    ∃ form : TagForm, value.tagForm objects = .ok form ∧ value.toJson objects = .ok form.json ∧
      form.json.Everywhere Json.IsReadable := by
  obtain ⟨form, hform, hspells⟩ := value.exists_tagForm hkeep.spells
  exact ⟨form, hform, by rw [Value.toJson, hform]; rfl,
    Json.everywhere_mono Json.IsPlain.isReadable _ hspells.plain⟩

theorem exists_itemForms {items : List Value} (hkeep : Value.Keepable objects (.list items)) :
    ∃ forms, Value.itemForms objects items = .ok forms ∧
      Value.tagForm objects (.list items) = .ok (.list forms) ∧
      (Json.arr forms).Everywhere Json.IsReadable := by
  obtain ⟨forms, hforms, hplain, -⟩ := Value.exists_itemForms items hkeep.spells
  refine ⟨forms, hforms, ?_, trivial, Json.everywhereItems_mono Json.IsPlain.isReadable forms hplain⟩
  rw [Value.tagForm, hforms]
  rfl

theorem exists_writeInstruction (instruction : Instruction)
    (h : ∀ n ∈ instruction.op.counts, n < 2 ^ 63) (hspellable : instruction.op.Spellable) :
    ∃ form, writeInstruction objects instruction = .ok form ∧ form.Readable ∧
      ∀ sources source index, ∀ ready : Objects → Prop,
        (restoreInstruction sources source index form).Reads ready (· = instruction) := by
  have hscalar := instruction.op.isScalar_operands
  have hkeep : Value.Keepable objects (.list instruction.op.operands) :=
    Value.keepableItems_iff.2 fun value hvalue => (hscalar value hvalue).keepable
  have hshallow : Value.Shallow (.list instruction.op.operands) :=
    Value.shallowItems_iff.2 fun value hvalue => (hscalar value hvalue).shallow
  have hfree : Value.ObjectFree (.list instruction.op.operands) :=
    Value.objectFreeItems_iff.2 fun value hvalue => (hscalar value hvalue).objectFree
  obtain ⟨forms, hforms, hlist, hreadable⟩ := exists_itemForms hkeep
  refine ⟨⟨instruction.op.code, .arr forms, instruction.pos⟩, ?_,
    ⟨instruction.op.code_lt, hreadable⟩, ?_⟩
  · rw [writeInstruction, hforms]
    rfl
  · intro sources source index ready
    refine (reads_restoreJson_self hlist hkeep hshallow hfree).bind ?_
    rintro _ rfl
    exact reads_ofExcept_bind rfl
      (reads_ofExcept_bind (run_readOp index h hspellable) (reads_pure rfl))

theorem exists_writeCode (code : List Instruction)
    (h : ∀ instruction ∈ code, ∀ n ∈ instruction.op.counts, n < 2 ^ 63)
    (hspellable : Spellable code) :
    ∃ forms, code.mapM (writeInstruction objects) = .ok forms ∧ (∀ form ∈ forms, form.Readable) ∧
      ∀ sources source index, ∀ ready : Objects → Prop,
        (restoreCode sources source index forms).Reads ready (· = code) := by
  induction code with
  | nil => exact ⟨[], rfl, nofun, fun _ _ _ _ => reads_pure rfl⟩
  | cons instruction rest ih =>
    rw [List.forall_mem_cons] at h
    rw [Spellable.cons_iff] at hspellable
    obtain ⟨form, hform, hreadable, hreads⟩ :=
      @exists_writeInstruction objects instruction h.1 hspellable.1
    obtain ⟨forms, hforms, hreadables, hrest⟩ := ih h.2 hspellable.2
    refine ⟨form :: forms, ?_, List.forall_mem_cons.2 ⟨hreadable, hreadables⟩, ?_⟩
    · rw [List.mapM_cons, hform, hforms]
      rfl
    · intro sources source index ready
      refine (hreads sources source index ready).bind ?_
      rintro _ rfl
      refine (hrest sources source (index + 1) ready).bind ?_
      rintro _ rfl
      exact reads_pure rfl

end Snapshot

namespace Frame

def values (frame : Frame) : List Value := frame.vars.map Prod.snd ++ frame.stack ++ [frame.result]

theorem mem_values_of_mem_vars (frame : Frame) {entry : String × Value} (h : entry ∈ frame.vars) :
    entry.2 ∈ frame.values :=
  List.mem_append_left _ (List.mem_append_left _ (List.mem_map_of_mem h))

theorem mem_values_of_mem_stack (frame : Frame) {value : Value} (h : value ∈ frame.stack) :
    value ∈ frame.values := List.mem_append_left _ (List.mem_append_right _ h)

theorem result_mem_values (frame : Frame) : frame.result ∈ frame.values :=
  List.mem_append_right _ (List.mem_singleton_self _)

def ObjectFree (frame : Frame) : Prop := ∀ value ∈ frame.values, value.ObjectFree

structure Formed (objects : Objects) (frame : Frame) : Prop where
  distinct : Table.Distinct frame.vars
  values : ∀ value ∈ frame.values, value.Keepable objects
  returnTo : ∀ target ∈ frame.returnTo, target < 2 ^ 64

/-- The variables differ in name and bear no tag, and the values can be kept. -/
structure Keepable (objects : Objects) (frame : Frame) : Prop where
  distinct : Table.Distinct frame.vars
  names : ∀ name ∈ Table.keys frame.vars, ¬ ['s', ':'] <+: name.toList
  values : ∀ value ∈ frame.values, value.Keepable objects ∧ value.Shallow
  returnTo : ∀ target ∈ frame.returnTo, target < 2 ^ 64

theorem Keepable.formed {objects : Objects} {frame : Frame} (h : frame.Keepable objects) :
    frame.Formed objects := ⟨h.distinct, fun value hvalue => (h.values value hvalue).1, h.returnTo⟩

structure RestoredAs (objects : Objects) (first : Nat) (frame restored : Frame) : Prop where
  vars : List.Forall₂ (fun a b => a.1 = b.1 ∧ a.2.RestoredAs objects first b.2)
    frame.vars restored.vars
  stack : List.Forall₂ (Value.RestoredAs objects first) frame.stack restored.stack
  result : frame.result.RestoredAs objects first restored.result
  returnTo : restored.returnTo = frame.returnTo

theorem Matches.restoredAs {objects : Objects} {first : Nat} {frame restored : Frame}
    (h : frame.Matches (Value.Deferred objects first) restored) :
    frame.RestoredAs objects first restored where
  vars := h.vars.imp fun _ _ hentry => ⟨hentry.1, Value.restoredAs_iff.2 hentry.2⟩
  stack := h.stack.imp fun _ _ => Value.restoredAs_iff.2
  result := Value.restoredAs_iff.2 h.result
  returnTo := h.returnTo

end Frame

namespace Snapshot

variable {objects : Objects}

open Restoring

theorem untagName_of_not_isPrefix {name : String} (h : ¬ ['s', ':'] <+: name.toList) :
    untagName name = name := by
  unfold untagName
  split
  · next rest heq => exact absurd (heq ▸ List.prefix_append ['s', ':'] rest) h
  · rfl

theorem exists_writeVariables (vars : Table Value)
    (hvalues : ∀ entry ∈ vars, entry.2.Keepable objects) :
    ∃ members, writeVariables objects vars = .ok members ∧
      Table.keys members = Table.keys vars ∧ Json.EverywhereMembers Json.IsReadable members ∧
      ∀ {ready sources source R} done, (∀ entry ∈ vars, entry.2.Shallow) →
        (∀ entry ∈ vars, ∀ ref ∈ entry.2.refs, Finds ready sources source objects R ref) →
        Table.Distinct (done ++ vars) →
        (∀ name ∈ Table.keys vars, ¬ ['s', ':'] <+: name.toList) →
        (restoreVariables sources source done members).Reads ready fun table =>
          ∃ restored, table = done ++ restored ∧
            List.Forall₂ (fun a b => a.1 = b.1 ∧ a.2.Matches R b.2) vars restored := by
  induction vars with
  | nil =>
    exact ⟨[], rfl, rfl, trivial, fun done _ _ _ _ =>
      reads_pure ⟨[], (List.append_nil done).symm, .nil⟩⟩
  | cons entry rest ih =>
    obtain ⟨name, value⟩ := entry
    rw [List.forall_mem_cons] at hvalues
    obtain ⟨form, hform, hjson, hreadable⟩ := exists_toJson hvalues.1
    obtain ⟨members, hmembers, hkeys, hreadables, hrest⟩ := ih hvalues.2
    refine ⟨(name, form.json) :: members, ?_, congrArg (name :: ·) hkeys, ⟨hreadable, hreadables⟩, ?_⟩
    · rw [writeVariables, hjson, hmembers]
      rfl
    · intro ready sources source R done hshallow hfinds hdistinct hnames
      simp only [Table.keys, List.map_cons, List.forall_mem_cons] at hshallow hfinds hnames
      rw [restoreVariables, untagName_of_not_isPrefix hnames.1]
      refine (reads_restoreJson hform hvalues.1 hshallow.1 hfinds.1).bind fun value' hvalue => ?_
      rw [Table.insert_of_notMem (Table.notMem_keys_of_distinct hdistinct)]
      have hdistinct' : Table.Distinct (done ++ [(name, value')] ++ rest) := by
        simpa [Table.Distinct, Table.keys] using hdistinct
      refine (hrest _ hshallow.2 hfinds.2 hdistinct' hnames.2).mono ?_
      rintro _ ⟨rest', rfl, hrest'⟩
      exact ⟨(name, value') :: rest', (List.append_cons ..).symm, .cons ⟨rfl, hvalue⟩ hrest'⟩

theorem exists_writeFrame {frame : Frame} (h : frame.Formed objects) :
    ∃ form, writeFrame objects frame = .ok form ∧ form.Readable ∧
      ∀ {ready sources source R}, frame.Keepable objects →
        (∀ value ∈ frame.values, ∀ ref ∈ value.refs, Finds ready sources source objects R ref) →
        (restoreFrame sources source form).Reads ready (frame.Matches R) := by
  have hvars : ∀ entry ∈ frame.vars, entry.2.Keepable objects :=
    fun entry hentry => h.values _ (frame.mem_values_of_mem_vars hentry)
  have hkeep : Value.Keepable objects (.list frame.stack.reverse) := Value.keepableItems_iff.2
    fun value hvalue => h.values _ (frame.mem_values_of_mem_stack (List.mem_reverse.1 hvalue))
  have hresult := h.values frame.result frame.result_mem_values
  obtain ⟨members, hmembers, hkeys, hreadables, hrestore⟩ := exists_writeVariables frame.vars hvars
  obtain ⟨forms, hforms, hlist, hreadable⟩ := exists_itemForms hkeep
  obtain ⟨form, hform, hjson, hreadable'⟩ := exists_toJson hresult
  refine ⟨⟨.obj members, .arr forms, form.json, frame.returnTo⟩, ?_, ⟨⟨?_, hreadables⟩, hreadable,
    hreadable', h.returnTo⟩, fun {ready sources source R} hkept hfinds => ?_⟩
  · rw [writeFrame, hmembers, hforms, hjson]
    rfl
  · exact (congrArg List.Nodup hkeys).mpr h.distinct
  · have hfindsVars : ∀ entry ∈ frame.vars, ∀ ref ∈ entry.2.refs,
        Finds ready sources source objects R ref :=
      fun entry hentry => hfinds entry.2 (frame.mem_values_of_mem_vars hentry)
    have hfindsStack : ∀ ref ∈ (Value.list frame.stack.reverse).refs,
        Finds ready sources source objects R ref := by
      intro ref href
      obtain ⟨value, hvalue, href⟩ := Value.mem_refsItems.1 href
      exact hfinds value (frame.mem_values_of_mem_stack (List.mem_reverse.1 hvalue)) ref href
    have hshallowVars : ∀ entry ∈ frame.vars, entry.2.Shallow :=
      fun entry hentry => (hkept.values _ (frame.mem_values_of_mem_vars hentry)).2
    have hshallowStack : Value.Shallow (.list frame.stack.reverse) := Value.shallowItems_iff.2
      fun value hvalue => (hkept.values _ (frame.mem_values_of_mem_stack (List.mem_reverse.1 hvalue))).2
    refine (hrestore [] hshallowVars hfindsVars h.distinct hkept.names).bind ?_
    rintro _ ⟨vars, rfl, hvars⟩
    refine (reads_restoreJson hlist hkeep hshallowStack hfindsStack).bind ?_
    rintro _ ⟨items, rfl, hitems⟩
    refine (reads_restoreJson hform hresult (hkept.values _ frame.result_mem_values).2
      (hfinds frame.result frame.result_mem_values)).bind fun result hresult => ?_
    refine reads_pure ⟨hvars, ?_, hresult, rfl⟩
    rw [← List.forall₂_reverse_iff, List.reverse_reverse]
    exact Value.matchesItems_iff.1 hitems

theorem exists_writeFrames {frames : List Frame} (h : ∀ frame ∈ frames, frame.Formed objects) :
    ∃ forms, frames.mapM (writeFrame objects) = .ok forms ∧ (∀ form ∈ forms, form.Readable) ∧
      ∀ {ready sources source R}, (∀ frame ∈ frames, frame.Keepable objects) →
        (∀ frame ∈ frames, ∀ value ∈ frame.values, ∀ ref ∈ value.refs,
          Finds ready sources source objects R ref) →
        (restoreFrames sources source forms).Reads ready (List.Forall₂ (Frame.Matches R) frames) := by
  induction frames with
  | nil => exact ⟨[], rfl, nofun, fun _ _ => reads_pure .nil⟩
  | cons frame rest ih =>
    rw [List.forall_mem_cons] at h
    obtain ⟨form, hform, hreadable, hreads⟩ := exists_writeFrame h.1
    obtain ⟨forms, hforms, hreadables, hrest⟩ := ih h.2
    refine ⟨form :: forms, ?_, List.forall_mem_cons.2 ⟨hreadable, hreadables⟩, ?_⟩
    · rw [List.mapM_cons, hform, hforms]
      rfl
    · intro ready sources source R hkept hfinds
      rw [List.forall_mem_cons] at hkept hfinds
      refine (hreads hkept.1 hfinds.1).bind fun frame' hframe => ?_
      refine (hrest hkept.2 hfinds.2).bind fun rest' hrest => ?_
      exact reads_pure (.cons hframe hrest)

end Snapshot

namespace Program

theorem Tidy.entry_lt {program : Program} (h : program.Tidy) (hsize : program.size < 2 ^ 63) :
    ∀ entry ∈ program.procedures, entry.2 < 2 ^ 64 := by
  intro entry hentry
  have := h.entries entry hentry
  omega

theorem Tidy.counts_lt {program : Program} (h : program.Tidy) (hsize : program.size < 2 ^ 63) :
    ∀ instruction ∈ program.code.toList, ∀ n ∈ instruction.op.counts, n < 2 ^ 63 :=
  fun instruction hmem n hn => Nat.lt_of_le_of_lt (h.counts instruction hmem n hn) hsize

end Program

namespace Execution

structure Formed (objects : Objects) (execution : Execution) : Prop where
  size_lt : execution.program.size < 2 ^ 63
  pc_le : execution.pc ≤ execution.program.size
  steps_lt : execution.steps < 2 ^ 64
  frames : ∀ frame ∈ execution.frames, frame.Formed objects

/-- The program can be addressed, the numbers fit their words, and the frames can be kept. -/
structure Keepable (objects : Objects) (execution : Execution) : Prop where
  size_lt : execution.program.size < 2 ^ 63
  pc_le : execution.pc ≤ execution.program.size
  steps_lt : execution.steps < 2 ^ 64
  frames : ∀ frame ∈ execution.frames, frame.Keepable objects

theorem Keepable.formed {objects : Objects} {execution : Execution}
    (h : execution.Keepable objects) : execution.Formed objects :=
  ⟨h.size_lt, h.pc_le, h.steps_lt, fun frame hframe => (h.frames frame hframe).formed⟩

def ObjectFree (execution : Execution) : Prop := ∀ frame ∈ execution.frames, frame.ObjectFree

structure RestoredAs (objects : Objects) (first : Nat) (execution restored : Execution) : Prop where
  program : restored.program = execution.program
  frames : List.Forall₂ (Frame.RestoredAs objects first) execution.frames restored.frames
  pc : restored.pc = execution.pc
  steps : restored.steps = execution.steps
  lastInterrupt : restored.lastInterrupt = execution.lastInterrupt

theorem Matches.restoredAs {objects : Objects} {first : Nat} {execution restored : Execution}
    (h : execution.Matches (Value.Deferred objects first) restored) :
    execution.RestoredAs objects first restored :=
  ⟨h.program, h.frames.imp fun _ _ => Frame.Matches.restoredAs, h.pc, h.steps, h.lastInterrupt⟩

end Execution

namespace Snapshot

variable {objects : Objects} {execution : Execution} {first : Nat} {store : Objects}

open Restoring

def proceduresJson (procedures : Table Nat) : Json :=
  .obj (procedures.map fun (name, entry) => (name, .ofNat entry))

theorem readProcedures_map {procedures : Table Nat} {write : Nat → Json}
    (h : ∀ entry ∈ procedures, (write entry.2).word? = some entry.2) :
    readProcedures (.obj (procedures.map fun (name, entry) => (name, write entry))) =
      .ok procedures := by
  rw [readProcedures, List.mapM_map]
  apply List.mapM_eq_pure_self
  rintro ⟨name, entry⟩ hentry
  simp only [Function.comp_apply, h _ hentry]
  rfl

theorem word?_jsonOfNat {n : Nat} (h : n < 2 ^ 64) : (Json.ofNat n).word? = some n := by
  simpa [Json.ofNat, Json.word?] using h

theorem everywhere_proceduresJson {procedures : Table Nat} (hdistinct : Table.Distinct procedures)
    (h : ∀ entry ∈ procedures, entry.2 < 2 ^ 64) :
    (proceduresJson procedures).Everywhere Json.IsReadable := by
  have hkeys : Table.keys (procedures.map fun (name, entry) => (name, Json.ofNat entry)) =
      Table.keys procedures := List.map_map
  refine ⟨(congrArg List.Nodup hkeys).mpr hdistinct, ?_⟩
  clear hdistinct hkeys
  induction procedures with
  | nil => trivial
  | cons entry rest ih =>
    rw [List.forall_mem_cons] at h
    exact ⟨everywhere_ofNat h.1, ih h.2⟩

theorem exists_indexForm {pc : Nat} (h : pc < 2 ^ 63) :
    ∃ form : TagForm, (Op.indexValue pc).toJson objects = .ok form.json ∧
      form.json.Everywhere Json.IsReadable ∧
      ∀ sources source, ∀ ready : Objects → Prop,
        (restoreIndex sources source form.json).Reads ready (· = pc) := by
  have hscalar : (Op.indexValue pc).IsScalar := trivial
  obtain ⟨form, hform, hjson, hreadable⟩ := @exists_toJson objects _ hscalar.keepable
  refine ⟨form, hjson, hreadable, fun sources source ready => ?_⟩
  refine (reads_restoreJson_self hform hscalar.keepable hscalar.shallow hscalar.objectFree).bind ?_
  rintro _ rfl
  refine reads_get.bind fun _ _ => ?_
  have hpc : (Int64.ofNat pc).toInt = pc := Int64.toInt_ofNat_of_lt h
  show (if 0 ≤ (Int64.ofNat pc).toInt then _ else _ : Restoring Nat).Reads ready _
  rw [hpc, if_pos (Int.natCast_nonneg pc)]
  exact reads_pure rfl

theorem readInterrupt_code (kind : Option InterruptKind) :
    readInterrupt (kind.map InterruptKind.code) = .ok kind := by
  rcases kind with _ | _ | _ <;> rfl

theorem exists_envelope (htidy : execution.program.Tidy) (h : execution.Formed objects) :
    ∃ envelope, writeExecution objects execution = .ok envelope ∧ envelope.Readable ∧
      ∀ {ready sources source R}, (∀ frame ∈ execution.frames, frame.Keepable objects) →
        (∀ frame ∈ execution.frames, ∀ value ∈ frame.values, ∀ ref ∈ value.refs,
          Finds ready sources source objects R ref) →
        (restoreExecution sources source envelope).Reads ready (execution.Matches R) := by
  have hentries := htidy.entry_lt h.size_lt
  obtain ⟨frames, hframes, hreadable, hrestore⟩ := exists_writeFrames h.frames
  obtain ⟨code, hcode, hreadable', hrestore'⟩ :=
    @exists_writeCode objects _ (htidy.counts_lt h.size_lt) htidy.spellable
  obtain ⟨index, hindex, hreadable'', hrestore''⟩ :=
    @exists_indexForm objects _ (Nat.lt_of_le_of_lt h.pc_le h.size_lt)
  refine ⟨⟨version, frames, code, proceduresJson execution.program.procedures, index.json,
    execution.steps, execution.lastInterrupt.map InterruptKind.code⟩, ?_, ?_, ?_⟩
  · rw [writeExecution, hframes, hcode, hindex]
    rfl
  · refine ⟨show 1 < 2 ^ 64 by decide, hreadable, hreadable',
      everywhere_proceduresJson htidy.distinct hentries, hreadable'', h.steps_lt, ?_⟩
    rcases execution.lastInterrupt with _ | _ | _ <;> simp [InterruptKind.code]
  · intro ready sources source R hkept hfinds
    rw [restoreExecution, if_neg (by simp)]
    refine (hrestore' sources source 0 ready).bind ?_
    rintro _ rfl
    refine reads_ofExcept_bind
      (readProcedures_map fun entry hentry => word?_jsonOfNat (hentries entry hentry)) ?_
    refine reads_ofExcept_bind (Program.checked_eq_ok_iff.2 ⟨rfl, htidy.contained⟩) ?_
    refine (hrestore hkept hfinds).bind fun frames hframes => ?_
    refine (hrestore'' sources source ready).bind ?_
    rintro _ rfl
    refine reads_ofExcept_bind (readInterrupt_code execution.lastInterrupt) ?_
    obtain ⟨globals, calls, rfl⟩ : ∃ globals calls, frames = globals :: calls := by
      cases hframes
      exact ⟨_, _, rfl⟩
    obtain ⟨hglobals, hcalls⟩ := List.forall₂_cons.1 hframes
    have hcalls := List.rel_reverse hcalls
    rw [List.reverse_reverse] at hcalls
    rw [if_neg (by simp), Execution.ofFrames?, if_pos h.pc_le]
    exact reads_pure ⟨⟨rfl, hglobals, hcalls, rfl, rfl⟩, rfl⟩

theorem finds_deferred {sources : Sources} (h : sources.deferred = true) (source first : Nat)
    (ref : ObjectRef Value) : Finds (fun store => first ≤ store.cells.size) sources source objects
      (Value.Deferred objects first) ref := by
  intro id hid
  refine (reads_reference h source id).mono ?_
  rintro _ ⟨cell, hcell, rfl⟩
  exact ⟨_, rfl, id, hid, cell, hcell, rfl⟩

theorem exists_writeExecution (htidy : execution.program.Tidy) (h : execution.Keepable objects) :
    ∃ envelope, writeExecution objects execution = .ok envelope ∧ envelope.Readable ∧
      ∀ sources source first, sources.deferred = true ∨ execution.ObjectFree →
        (restoreExecution sources source envelope).Yields first
          (execution.RestoredAs objects first) := by
  obtain ⟨envelope, hwrite, hreadable, hreads⟩ := exists_envelope htidy h.formed
  refine ⟨envelope, hwrite, hreadable, fun sources source first hfree => ?_⟩
  refine ((hreads h.frames ?_).mono fun _ hrestored => hrestored.restoredAs).yields
  intro frame hframe value hvalue ref href
  rcases hfree with hdeferred | hfree
  · exact finds_deferred hdeferred source first ref
  · rw [(hfree frame hframe value hvalue).refs_eq_nil] at href
    cases href

section

variable (hstore : store.OpenFrom first)
include hstore

theorem writeVariables_eq {vars restored : Table Value}
    (h : List.Forall₂ (fun a b => a.1 = b.1 ∧ a.2.RestoredAs objects first b.2) vars restored) :
    writeVariables store restored = writeVariables objects vars := by
  induction h with
  | nil => rfl
  | @cons a b as bs hab _ ih =>
    obtain ⟨name, value⟩ := a
    obtain ⟨_, value'⟩ := b
    obtain ⟨rfl, hvalue⟩ := hab
    rw [writeVariables, writeVariables, Value.toJson, Value.toJson, hvalue.tagForm_eq hstore, ih]

theorem writeFrame_eq {frame restored : Frame} (h : frame.RestoredAs objects first restored) :
    writeFrame store restored = writeFrame objects frame := by
  have hstack : Value.RestoredItems objects first frame.stack.reverse restored.stack.reverse :=
    Value.restoredItems_iff.2 (List.forall₂_reverse_iff.2 h.stack)
  rw [writeFrame, writeFrame, writeVariables_eq hstore h.vars, hstack.itemForms_eq hstore,
    Value.toJson, Value.toJson, h.result.tagForm_eq hstore, h.returnTo]

theorem writeInstruction_eq (instruction : Instruction) :
    writeInstruction store instruction = writeInstruction objects instruction := by
  have hoperands : Value.RestoredItems objects first instruction.op.operands
      instruction.op.operands := Value.restoredItems_iff.2 <| List.forall₂_same.2
    fun value hvalue => (instruction.op.isScalar_operands value hvalue).restoredAs
  rw [writeInstruction, writeInstruction, hoperands.itemForms_eq hstore]

theorem mapM_writeFrame_eq {frames restored : List Frame}
    (h : List.Forall₂ (Frame.RestoredAs objects first) frames restored) :
    restored.mapM (writeFrame store) = frames.mapM (writeFrame objects) := by
  induction h with
  | nil => rfl
  | cons hframe _ ih => rw [List.mapM_cons, List.mapM_cons, writeFrame_eq hstore hframe, ih]

theorem writeExecution_eq {restored : Execution} (h : execution.RestoredAs objects first restored) :
    writeExecution store restored = writeExecution objects execution := by
  have hindex : (Op.indexValue execution.pc).toJson store =
      (Op.indexValue execution.pc).toJson objects := rfl
  have hcode : execution.program.code.toList.mapM (writeInstruction store) =
      execution.program.code.toList.mapM (writeInstruction objects) :=
    congrArg (execution.program.code.toList.mapM ·) (funext (writeInstruction_eq hstore))
  rw [writeExecution, writeExecution, h.program, h.pc, h.steps, h.lastInterrupt,
    mapM_writeFrame_eq hstore h.frames, hcode, hindex]

end

end Snapshot

theorem List.eq_of_forall₂ {α : Type} {R : α → α → Prop} {as bs : List α}
    (h : List.Forall₂ R as bs) (hR : ∀ a ∈ as, ∀ b, R a b → b = a) : bs = as := by
  induction h with
  | nil => rfl
  | cons hab _ ih =>
    rw [List.forall_mem_cons] at hR
    rw [hR.1 _ hab, ih hR.2]

theorem Frame.RestoredAs.eq_of_objectFree {objects : Objects} {first : Nat} {frame restored : Frame}
    (h : frame.RestoredAs objects first restored) (hfree : frame.ObjectFree) :
    restored = frame := by
  have hvars : restored.vars = frame.vars :=
    List.eq_of_forall₂ h.vars fun entry hentry other hother => Prod.ext hother.1.symm
      (hother.2.eq_of_objectFree (hfree _ (frame.mem_values_of_mem_vars hentry)))
  have hstack : restored.stack = frame.stack :=
    List.eq_of_forall₂ h.stack fun value hvalue _ hother =>
      hother.eq_of_objectFree (hfree _ (frame.mem_values_of_mem_stack hvalue))
  have hresult := h.result.eq_of_objectFree (hfree _ frame.result_mem_values)
  have hreturn := h.returnTo
  cases restored
  cases hvars
  cases hstack
  cases hresult
  cases hreturn
  rfl

theorem Execution.RestoredAs.eq_of_objectFree {objects : Objects} {first : Nat}
    {execution restored : Execution} (h : execution.RestoredAs objects first restored)
    (hfree : execution.ObjectFree) : restored = execution := by
  have hframes : restored.frames = execution.frames := List.eq_of_forall₂ h.frames
    fun frame hframe _ hother => hother.eq_of_objectFree (hfree frame hframe)
  obtain ⟨hglobals, hcalls⟩ := List.cons.inj hframes
  obtain ⟨hprogram, -, hpc, hsteps, hinterrupt⟩ := h
  cases restored
  cases hprogram
  cases hglobals
  cases List.reverse_inj.1 hcalls
  cases hpc
  cases hsteps
  cases hinterrupt
  rfl

end DurableScript
