import DurableScript.Proofs.Binary64
import DurableScript.Proofs.RoundTrip

namespace DurableScript

open Float.Model in
theorem Float.beq_self {x : Float} (h : x.isNaN = false) : (x == x) = true := by
  show (x.toModel.unpack.compare x.toModel.unpack == some .eq) = true
  replace h : x.toModel.unpack.isNaN = false := h
  generalize x.toModel.unpack = unpacked at h
  cases unpacked with
  | notANumber => contradiction
  | infinity sign => cases sign <;> rfl
  | zero sign => rfl
  | finite sign mantissa exponent => cases sign <;> simp [UnpackedFloat.compare]

namespace Value

mutual

def NanFree : Value → Prop
  | float x => x.isNaN = false
  | list items => NanFreeItems items
  | record fields => NanFreeFields fields
  | _ => True

def NanFreeItems : List Value → Prop
  | [] => True
  | item :: rest => NanFree item ∧ NanFreeItems rest

def NanFreeFields : List (String × Value) → Prop
  | [] => True
  | (_, value) :: rest => NanFree value ∧ NanFreeFields rest

end

theorem nanFreeItems_iff {items : List Value} :
    NanFreeItems items ↔ ∀ item ∈ items, item.NanFree := by
  induction items with
  | nil => simp [NanFreeItems]
  | cons item rest ih => rw [NanFreeItems, ih, List.forall_mem_cons]

theorem nanFreeFields_iff {fields : List (String × Value)} :
    NanFreeFields fields ↔ ∀ entry ∈ fields, entry.2.NanFree := by
  induction fields with
  | nil => simp [NanFreeFields]
  | cons entry rest ih => rw [NanFreeFields, ih, List.forall_mem_cons]

theorem sameRef_self (objects : Objects) (ref : ObjectRef Value) :
    objects.sameRef ref ref = true := by
  cases ref <;> simp [Objects.sameRef, Objects.sameCell]

variable {objects : Objects} (store : Objects)

mutual

theorem strictEq_self : ∀ value : Value, value.Keepable objects → value.NanFree →
    strictEq store value value = true
  | null, _, _ => rfl
  | bool _, _, _ | int _, _, _ | str _, _, _ => by simp [strictEq]
  | float _, _, h => Float.beq_self h
  | list items, hkeep, h => strictEqItems_self items hkeep h
  | record fields, hkeep, h => by
    rw [strictEq, beq_self_eq_true, Bool.true_and]
    exact strictEqFields_self fields fields
      (fun entry hentry => Table.find?_of_mem hkeep.1 hentry) hkeep.2 h
  | object ref, _, _ => sameRef_self store ref

theorem strictEqItems_self : ∀ items : List Value, KeepableItems objects items → NanFreeItems items →
    strictEqItems store items items = true
  | [], _, _ => rfl
  | item :: rest, hkeep, h => by
    rw [strictEqItems, strictEq_self item hkeep.1 h.1, strictEqItems_self rest hkeep.2 h.2]
    rfl

theorem strictEqFields_self : ∀ fields table : List (String × Value),
    (∀ entry ∈ fields, Table.find? entry.1 table = some entry.2) → KeepableFields objects fields →
    NanFreeFields fields → strictEqFields store fields table = true
  | [], _, _, _, _ => rfl
  | (name, value) :: rest, table, hfind, hkeep, h => by
    rw [List.forall_mem_cons] at hfind
    rw [strictEqFields, hfind.1, strictEqFields_self rest table hfind.2 hkeep.2 h.2, Bool.and_true]
    exact strictEq_self value hkeep.1 h.1

end

end Value

theorem Op.same_self {op : Op} (h : ∀ value ∈ op.operands, value.NanFree) : op.same op = true := by
  cases op with
  | pushValue literal =>
    cases literal with
    | double bits => exact Float.beq_self (h (.float (.ofBits bits)) (List.mem_singleton_self _))
    | _ => simp [same, Literal.same]
  | _ => simp [same]

structure Execution.NanFree (execution : Execution) : Prop where
  code : ∀ instruction ∈ execution.program.code.toList,
    ∀ value ∈ instruction.op.operands, value.NanFree
  frames : ∀ frame ∈ execution.frames, ∀ value ∈ frame.values, value.NanFree

theorem Program.sameCode_self {code : List Instruction}
    (h : ∀ instruction ∈ code, ∀ value ∈ instruction.op.operands, value.NanFree) :
    sameCode code code = true := by
  induction code with
  | nil => rfl
  | cons instruction rest ih =>
    rw [List.forall_mem_cons] at h
    simp [sameCode, Instruction.same, Op.same_self h.1, ih h.2]

theorem Program.same_self {program : Program} (hdistinct : Table.Distinct program.procedures)
    (h : ∀ instruction ∈ program.code.toList,
      ∀ value ∈ instruction.op.operands, value.NanFree) : program.same program = true := by
  have hentries : ∀ entry ∈ program.procedures, program.entry? entry.1 = some entry.2 :=
    fun entry hentry => Table.find?_of_mem hdistinct hentry
  rw [same, sameCode_self h, beq_self_eq_true, Bool.true_and, Bool.true_and]
  exact List.all_eq_true.2 fun entry hentry => beq_iff_eq.2 (hentries entry hentry)

namespace Frame

theorem same_self {objects : Objects} (store : Objects) {frame : Frame} (hkeep : frame.Keepable objects)
    (h : ∀ value ∈ frame.values, value.NanFree) : frame.same store frame = true := by
  have hkeepVars : Value.KeepableFields objects frame.vars := Value.keepableFields_iff.2
    fun entry hentry => (hkeep.values _ (frame.mem_values_of_mem_vars hentry)).1
  have hkeepStack : Value.KeepableItems objects frame.stack := Value.keepableItems_iff.2
    fun value hvalue => (hkeep.values _ (frame.mem_values_of_mem_stack hvalue)).1
  have hvars := Value.strictEqFields_self store frame.vars frame.vars
    (fun entry hentry => Table.find?_of_mem hkeep.distinct hentry) hkeepVars
    (Value.nanFreeFields_iff.2 fun entry hentry => h _ (frame.mem_values_of_mem_vars hentry))
  have hstack := Value.strictEqItems_self store frame.stack hkeepStack
    (Value.nanFreeItems_iff.2 fun value hvalue => h _ (frame.mem_values_of_mem_stack hvalue))
  have hresult := Value.strictEq_self store frame.result
    (hkeep.values _ frame.result_mem_values).1 (h _ frame.result_mem_values)
  simp [same, hvars, hstack, hresult]

end Frame

theorem Execution.same_self {objects : Objects} (store : Objects) {execution : Execution}
    (htidy : execution.program.Tidy) (hkeep : execution.Keepable objects) (h : execution.NanFree) :
    execution.same store execution = true := by
  have hframes : sameFrames store execution.frames execution.frames = true := by
    have hself := fun frame hframe =>
      Frame.same_self store (hkeep.frames frame hframe) (h.frames frame hframe)
    generalize execution.frames = frames at hself
    induction frames with
    | nil => rfl
    | cons frame rest ih =>
      rw [List.forall_mem_cons] at hself
      rw [sameFrames, hself.1, ih hself.2, Bool.and_self]
  simp [same, Program.same_self htidy.distinct h.code, hframes]

end DurableScript
