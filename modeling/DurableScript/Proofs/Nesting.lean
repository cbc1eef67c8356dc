import DurableScript.Proofs.Persistence
import DurableScript.Proofs.Rereading

/-!
How deep the values of an execution may nest for its text to be read again. Main statement:
`snapshot_is_read_iff_legible`, every execution without host objects is written, and its text is
read exactly if the values of its frames leave room for the levels around them.
-/

namespace DurableScript

namespace Restoring

variable {α β : Type}

/-- Whatever the store, the reading gives `a` if `P` holds, and refuses the text if not. -/
structure Decides (x : Restoring α) (P : Prop) (a : α) : Prop where
  eq_pure : P → x = pure a
  eq_throw : ¬ P → x = throw .json

variable {x : Restoring α} {P Q : Prop} {a : α}

theorem decides_pure (a : α) : Decides (pure a) True a := ⟨fun _ => rfl, fun h => absurd trivial h⟩

theorem Decides.congr (h : x.Decides P a) (hPQ : P ↔ Q) : x.Decides Q a := propext hPQ ▸ h

theorem Decides.bind {f : α → Restoring β} {b : β} (hx : x.Decides P a) (hf : (f a).Decides Q b) :
    (x >>= f).Decides (P ∧ Q) b where
  eq_pure := fun ⟨hP, hQ⟩ => by rw [hx.eq_pure hP, pure_bind, hf.eq_pure hQ]
  eq_throw h := by
    by_cases hP : P
    · rw [hx.eq_pure hP, pure_bind, hf.eq_throw fun hQ => h ⟨hP, hQ⟩]
    · rw [hx.eq_throw hP]
      rfl

theorem Decides.bind_eq_pure {f : α → Restoring β} {b : β} (hx : x.Decides P a)
    (hf : f a = pure b) : (x >>= f).Decides P b :=
  (hx.bind (hf ▸ decides_pure b)).congr (and_iff_left trivial)

theorem ofExcept_ok (a : α) : ofExcept (.ok a) = pure a := rfl

theorem eq_pure_of_reads (h : ∀ ready : Objects → Prop, x.Reads ready (· = a)) : x = pure a := by
  funext store
  obtain ⟨_, _, hgives, -, rfl, rfl⟩ := h (· = store) store rfl
  exact hgives

end Restoring

namespace Value

open Restoring Tagged

variable {objects : Objects} {sources : Sources} {source : Nat}

mutual

theorem decides_restore : ∀ value : Value, value.Keepable objects → value.ObjectFree →
    ((value.spelled objects.tagged).restore sources source).Decides value.Shallow value
  | null, _, _ | bool _, _, _ | int _, _, _ | float _, _, _ | str _, _, _ => decides_pure _
  | list items, hkeep, hfree => (decides_restoreItems items hkeep hfree).bind_eq_pure rfl
  | record fields, hkeep, hfree =>
    (decides_restoreFields fields [] hkeep.1 hkeep.2 hfree).bind_eq_pure rfl

theorem decides_restoreItems : ∀ items : List Value, KeepableItems objects items →
    ObjectFreeItems items →
    (restoreItems sources source (spelledItems objects.tagged items)).Decides (ShallowItems items) items
  | [], _, _ => decides_pure _
  | item :: rest, hkeep, hfree => by
    rw [spelledItems, restoreItems]
    exact (decides_restore item hkeep.1 hfree.1).bind
      ((decides_restoreItems rest hkeep.2 hfree.2).bind_eq_pure rfl)

theorem decides_restoreFields : ∀ (fields : List (String × Value)) (done : Table Value),
    Table.Distinct (done ++ fields) → KeepableFields objects fields → ObjectFreeFields fields →
    (restoreFields sources source done (spelledFields objects.tagged fields)).Decides
      (ShallowFields fields) (done ++ fields)
  | [], done, _, _, _ => by
    rw [List.append_nil]
    exact decides_pure done
  | (name, value) :: rest, done, hdistinct, hkeep, hfree => by
    have hvalue : ((if value.levels ≤ Json.maxLevels then value.spelled objects.tagged
        else .fault .json).restore sources source).Decides
          (value.Shallow ∧ value.levels ≤ Json.maxLevels) value := by
      split
      · next hlevels =>
        exact (decides_restore value hkeep.1 hfree.1).congr (and_iff_left hlevels).symm
      · next hlevels => exact ⟨fun h => absurd h.2 hlevels, fun _ => rfl⟩
    have hdistinct' : Table.Distinct (done ++ [(name, value)] ++ rest) := by
      simpa [Table.Distinct, Table.keys] using hdistinct
    rw [spelledFields, restoreFields, List.append_cons]
    refine hvalue.bind ?_
    -- Names differ, so each field goes to the end of what was read before.
    rw [Table.insert_of_notMem (Table.notMem_keys_of_distinct hdistinct)]
    exact decides_restoreFields rest _ hdistinct' hkeep.2 hfree.2

end

mutual

def decidableShallow : (value : Value) → Decidable value.Shallow
  | null | bool _ | int _ | float _ | str _ | object _ => .isTrue trivial
  | list items => decidableShallowItems items
  | record fields => decidableShallowFields fields

def decidableShallowItems : (items : List Value) → Decidable (ShallowItems items)
  | [] => .isTrue trivial
  | item :: rest => @instDecidableAnd _ _ (decidableShallow item) (decidableShallowItems rest)

def decidableShallowFields : (fields : List (String × Value)) → Decidable (ShallowFields fields)
  | [] => .isTrue trivial
  | (_, value) :: rest => @instDecidableAnd _ _
    (@instDecidableAnd _ _ (decidableShallow value) inferInstance) (decidableShallowFields rest)

end

instance : DecidablePred Shallow := decidableShallow

theorem spells_of_toJson {value : Value} {json : Json} (hjson : value.toJson objects = .ok json)
    (hkeep : value.Keepable objects) :
    ∃ form : TagForm, form.Spells objects.tagged value ∧ json = form.json := by
  obtain ⟨form, hform, hspells⟩ := value.exists_tagForm hkeep.spells
  rw [toJson, hform] at hjson
  cases hjson
  exact ⟨form, hspells, rfl⟩

theorem levels_of_toJson {value : Value} {json : Json} (hjson : value.toJson objects = .ok json)
    (hkeep : value.Keepable objects) : json.levels = value.levels := by
  obtain ⟨form, hspells, rfl⟩ := spells_of_toJson hjson hkeep
  exact hspells.levels_eq

theorem decides_restoreJson {value : Value} {json : Json} (hjson : value.toJson objects = .ok json)
    (hkeep : value.Keepable objects) (hfree : value.ObjectFree) :
    (Snapshot.restoreJson sources source json).Decides value.Shallow value := by
  obtain ⟨form, hspells, rfl⟩ := spells_of_toJson hjson hkeep
  have hread := hspells.ofJsonWith_eq _ (Tagged.everywhere_readBy_ofText form.json)
  rw [Snapshot.restoreJson, Tagged.ofJson, hread]
  exact value.decides_restore hkeep hfree

theorem IsScalar.levels_le {value : Value} (h : value.IsScalar) : value.levels ≤ 0 := by
  cases value <;> first | exact Nat.le_refl 0 | contradiction

theorem toJson_list {items : List Value} {forms : List Json}
    (h : itemForms objects items = .ok forms) : (list items).toJson objects = .ok (.arr forms) := by
  rw [toJson, tagForm, h]
  rfl

theorem itemLevels_le_iff {items : List Value} {n : Nat} :
    itemLevels items ≤ n ↔ ∀ item ∈ items, item.levels ≤ n := by
  induction items with
  | nil => simp [itemLevels]
  | cons item rest ih => rw [itemLevels, Nat.max_le, ih, List.forall_mem_cons]

end Value

namespace Json

theorem itemLevels_le_iff {items : List Json} {n : Nat} :
    itemLevels items ≤ n ↔ ∀ item ∈ items, item.levels ≤ n := by
  induction items with
  | nil => simp [itemLevels]
  | cons item rest ih => rw [itemLevels, Nat.max_le, ih, List.forall_mem_cons]

end Json

namespace Frame

theorem forall_mem_values {frame : Frame} {P : Value → Prop} : (∀ value ∈ frame.values, P value) ↔
    (∀ entry ∈ frame.vars, P entry.2) ∧ (∀ value ∈ frame.stack, P value) ∧ P frame.result := by
  simp only [values, List.forall_mem_append, List.forall_mem_map, List.forall_mem_singleton,
    and_assoc]

def untagged (frame : Frame) : Frame :=
  { frame with
    vars := Table.ofPairs (frame.vars.map fun (name, value) => (Snapshot.untagName name, value)) }

/-- The values leave room for the levels around them: in the text of a snapshot there are four
around a variable or an operand, and three around a result. -/
structure Legible (frame : Frame) : Prop where
  vars : ∀ entry ∈ frame.vars, entry.2.levels + 4 ≤ Json.maxLevels
  stack : ∀ value ∈ frame.stack, value.levels + 4 ≤ Json.maxLevels
  result : frame.result.levels + 3 ≤ Json.maxLevels
  shallow : ∀ value ∈ frame.values, value.Shallow

theorem legible_iff {frame : Frame} : frame.Legible ↔
    ((∀ entry ∈ frame.vars, entry.2.levels + 4 ≤ Json.maxLevels) ∧
      (∀ value ∈ frame.stack, value.levels + 4 ≤ Json.maxLevels) ∧
      frame.result.levels + 3 ≤ Json.maxLevels) ∧ ∀ value ∈ frame.values, value.Shallow :=
  ⟨fun h => ⟨⟨h.vars, h.stack, h.result⟩, h.shallow⟩, fun ⟨⟨hvars, hstack, hresult⟩, h⟩ =>
    ⟨hvars, hstack, hresult, h⟩⟩

instance : DecidablePred Legible := fun _ => decidable_of_iff' _ legible_iff

end Frame

def Execution.untagged (execution : Execution) : Execution :=
  { execution with
    globals := execution.globals.untagged
    calls := execution.calls.map Frame.untagged }

namespace Snapshot

open Restoring Document

variable {objects : Objects} {sources : Sources} {source : Nat} {form : FrameForm}
  {execution : Execution} {envelope : Envelope}

theorem decides_restoreVariables {vars : Table Value} {members : Table Json}
    (hwrite : writeVariables objects vars = .ok members)
    (hkeep : ∀ entry ∈ vars, entry.2.Keepable objects) (hfree : ∀ entry ∈ vars, entry.2.ObjectFree)
    (done : Table Value) :
    (restoreVariables sources source done members).Decides (∀ entry ∈ vars, entry.2.Shallow)
      (Table.insertAll done (vars.map fun (name, value) => (untagName name, value))) := by
  induction vars generalizing members done with
  | nil =>
    cases hwrite
    exact (decides_pure done).congr (by simp)
  | cons entry rest ih =>
    obtain ⟨json, hjson, hwrite⟩ := Except.bind_eq_ok.1 hwrite
    obtain ⟨others, hothers, hwrite⟩ := Except.bind_eq_ok.1 hwrite
    cases hwrite
    rw [List.forall_mem_cons] at hkeep hfree
    rw [List.forall_mem_cons]
    exact (Value.decides_restoreJson hjson hkeep.1 hfree.1).bind (ih hothers hkeep.2 hfree.2 _)

theorem decides_restoreFrame {frame : Frame} (hwrite : writeFrame objects frame = .ok form)
    (h : frame.Formed objects) (hfree : frame.ObjectFree) :
    (restoreFrame sources source form).Decides (∀ value ∈ frame.values, value.Shallow)
      frame.untagged := by
  obtain ⟨members, forms, result, hmembers, hforms, hresult, rfl⟩ := exists_of_writeFrame hwrite
  obtain ⟨hvars, hstack, hkeep⟩ := Frame.forall_mem_values.1 h.values
  obtain ⟨hvars', hstack', hfree⟩ := Frame.forall_mem_values.1 hfree
  have hvars := @decides_restoreVariables _ sources source _ _ hmembers hvars hvars' []
  have hstack := @Value.decides_restoreJson _ sources source _ _ (Value.toJson_list hforms)
    (Value.keepableItems_iff.2 fun value hvalue => hstack value (List.mem_reverse.1 hvalue))
    (Value.objectFreeItems_iff.2 fun value hvalue => hstack' value (List.mem_reverse.1 hvalue))
  have hresult := @Value.decides_restoreJson _ sources source _ _ hresult hkeep hfree
  refine (hvars.bind (hstack.bind (hresult.bind_eq_pure ?_))).congr ?_
  · rw [List.reverse_reverse]
    rfl
  · rw [Frame.forall_mem_values, Value.Shallow, Value.shallowItems_iff]
    simp only [List.mem_reverse]

theorem decides_restoreFrames {frames : List Frame} {forms : List FrameForm}
    (hwrite : List.Forall₂ (fun frame form => writeFrame objects frame = .ok form) frames forms)
    (h : ∀ frame ∈ frames, frame.Formed objects) (hfree : ∀ frame ∈ frames, frame.ObjectFree) :
    (restoreFrames sources source forms).Decides
      (∀ frame ∈ frames, ∀ value ∈ frame.values, value.Shallow) (frames.map Frame.untagged) := by
  induction hwrite with
  | nil => exact (decides_pure []).congr (by simp)
  | cons hframe _ ih =>
    rw [List.forall_mem_cons] at h hfree
    rw [List.forall_mem_cons]
    exact (decides_restoreFrame hframe h.1 hfree.1).bind ((ih h.2 hfree.2).bind_eq_pure rfl)

theorem forall₂_writeFrame (hwrite : writeExecution objects execution = .ok envelope) :
    List.Forall₂ (fun frame form => writeFrame objects frame = .ok form) execution.frames
      envelope.frames := by
  obtain ⟨frames, _, _, hframes, -, -, rfl⟩ := exists_of_writeExecution hwrite
  exact List.forall₂_of_mapM_eq_ok hframes

theorem decides_restoreExecution (hwrite : writeExecution objects execution = .ok envelope)
    (htidy : execution.program.Tidy) (h : execution.Formed objects) (hfree : execution.ObjectFree) :
    (restoreExecution sources source envelope).Decides
      (∀ frame ∈ execution.frames, ∀ value ∈ frame.values, value.Shallow) execution.untagged := by
  have hframes := @decides_restoreFrames _ sources source _ _ (forall₂_writeFrame hwrite) h.frames
    hfree
  obtain ⟨frames, forms, index, -, hforms, hindex, rfl⟩ := exists_of_writeExecution hwrite
  obtain ⟨_, hforms', -, hcode⟩ :=
    @exists_writeCode objects _ (htidy.counts_lt h.size_lt) htidy.spellable
  cases hforms.symm.trans hforms'
  obtain ⟨_, hindex', -, hpc⟩ := @exists_indexForm objects _ (Nat.lt_of_le_of_lt h.pc_le h.size_lt)
  cases hindex.symm.trans hindex'
  have hcode := eq_pure_of_reads (hcode sources source 0)
  have hpc := eq_pure_of_reads (hpc sources source)
  have hprocedures : readProcedures (proceduresJson execution.program.procedures) =
      .ok execution.program.procedures :=
    readProcedures_map fun entry hentry => word?_jsonOfNat (htidy.entry_lt h.size_lt entry hentry)
  have hchecked : Program.checked ⟨execution.program.code, execution.program.procedures⟩ =
      .ok execution.program := Program.checked_eq_ok_iff.2 ⟨rfl, htidy.contained⟩
  rw [restoreExecution, if_neg (by simp)]
  simp only [hcode, hprocedures, Array.toArray_toList, hchecked, ofExcept_ok, pure_bind]
  refine hframes.bind_eq_pure ?_
  simp only [hpc, readInterrupt_code, ofExcept_ok, pure_bind, Execution.frames, List.map_cons,
    List.isEmpty_cons, Bool.false_eq_true, if_false, Execution.ofFrames?, if_pos h.pc_le,
    List.map_reverse, List.reverse_reverse]
  rfl

theorem memberLevels_writeVariables {vars : Table Value} {members : Table Json} {n : Nat}
    (hwrite : writeVariables objects vars = .ok members)
    (hkeep : ∀ entry ∈ vars, entry.2.Keepable objects) :
    Json.memberLevels members ≤ n ↔ ∀ entry ∈ vars, entry.2.levels ≤ n := by
  induction vars generalizing members with
  | nil =>
    cases hwrite
    simp [Json.memberLevels]
  | cons entry rest ih =>
    obtain ⟨json, hjson, hwrite⟩ := Except.bind_eq_ok.1 hwrite
    obtain ⟨others, hothers, hwrite⟩ := Except.bind_eq_ok.1 hwrite
    cases hwrite
    rw [List.forall_mem_cons] at hkeep
    rw [Json.memberLevels, Nat.max_le, Value.levels_of_toJson hjson hkeep.1, ih hothers hkeep.2,
      List.forall_mem_cons]

theorem levels_writeFrame {frame : Frame} (hwrite : writeFrame objects frame = .ok form)
    (h : frame.Formed objects) :
    form.json.levels ≤ Json.maxLevels - 2 ↔
      (∀ entry ∈ frame.vars, entry.2.levels + 4 ≤ Json.maxLevels) ∧
      (∀ value ∈ frame.stack, value.levels + 4 ≤ Json.maxLevels) ∧
      frame.result.levels + 3 ≤ Json.maxLevels := by
  obtain ⟨members, forms, result, hmembers, hforms, hresult, rfl⟩ := exists_of_writeFrame hwrite
  obtain ⟨hvars, hstack, hkeep⟩ := Frame.forall_mem_values.1 h.values
  have hvars := @memberLevels_writeVariables _ _ _ (Json.maxLevels - 4) hmembers hvars
  have hforms := Value.levels_of_toJson (Value.toJson_list hforms)
    (Value.keepableItems_iff.2 fun value hvalue => hstack value (List.mem_reverse.1 hvalue))
  have hstack := @Value.itemLevels_le_iff frame.stack.reverse (Json.maxLevels - 4)
  have hresult := Value.levels_of_toJson hresult hkeep
  simp only [List.mem_reverse] at hstack
  have hmax : 4 ≤ Json.maxLevels := by decide
  have hform : (FrameForm.json ⟨.obj members, .arr forms, result, frame.returnTo⟩).levels ≤
      Json.maxLevels - 2 ↔ Json.memberLevels members ≤ Json.maxLevels - 4 ∧
        Value.itemLevels frame.stack.reverse ≤ Json.maxLevels - 4 ∧
        frame.result.levels + 3 ≤ Json.maxLevels := by
    have hreturn : (Json.ofOption Json.ofNat frame.returnTo).levels = 0 := by
      cases frame.returnTo <;> rfl
    simp only [FrameForm.json, Json.levels, Json.memberLevels, hreturn] at hforms ⊢
    rw [Value.levels] at hforms
    omega
  rw [hform, hvars, hstack]
  simp only [Nat.le_sub_iff_add_le hmax]

theorem levels_le_of_toJson? {json found : Json} {n : Nat} (h : json.Everywhere Json.IsReadable)
    (hread : json.document.toJson? n = some found) : json.levels ≤ n := by
  rw [toJson?_document json h] at hread
  split at hread
  · assumption
  · cases hread

theorem levels_le_of_readFrame {found : FrameForm} (h : form.Readable)
    (hread : readFrame form.json.document = some found) :
    form.json.levels ≤ Json.maxLevels - 2 := by
  rw [readFrame, form.parts?_json, Option.bind_eq_bind, Option.bind_some] at hread
  obtain ⟨vars, hvars, hread⟩ := Option.bind_eq_some_iff.1 hread
  obtain ⟨stack, hstack, hread⟩ := Option.bind_eq_some_iff.1 hread
  obtain ⟨result, hresult, hread⟩ := Option.bind_eq_some_iff.1 hread
  have hvars := levels_le_of_toJson? h.vars hvars
  have hstack := levels_le_of_toJson? h.stack hstack
  have hresult := levels_le_of_toJson? h.result hresult
  have hreturn : (Json.ofOption Json.ofNat form.returnTo).levels = 0 := by
    cases form.returnTo <;> rfl
  have hmax : 4 ≤ Json.maxLevels := by decide
  simp only [FrameForm.json, Json.levels, Json.memberLevels, hreturn]
  omega

theorem levels_le_of_readEnvelope {found : Envelope} (h : envelope.Readable)
    (hread : readEnvelope envelope.json.document = some found) :
    ∀ form ∈ envelope.frames, form.json.levels ≤ Json.maxLevels - 2 := by
  rw [readEnvelope, envelope.parts?_json, Option.bind_eq_bind, Option.bind_some] at hread
  obtain ⟨version, -, hread⟩ := Option.bind_eq_some_iff.1 hread
  obtain ⟨frames, hframes, -⟩ := Option.bind_eq_some_iff.1 hread
  have hlevels := List.forall_mem_of_forall₂ (forall₂_of_each? hframes).flip
    fun _ _ hfound hreadable => levels_le_of_readFrame hreadable hfound
  exact fun form hform => hlevels form hform (h.frames form hform)

theorem Envelope.Readable.parse?_text_of_deep (h : envelope.Readable)
    (hdeep : ¬ ∀ form ∈ envelope.frames, form.json.levels ≤ Json.maxLevels - 2) :
    (Document.parse? envelope.json.text.toList).bind readEnvelope = none := by
  have hwhole := Json.everywhere_mono Json.IsReadable.isWhole _ h.everywhere_json
  rw [Json.text, String.toList_ofList, Document.parse?_render hwhole, Option.bind_some,
    Option.eq_none_iff_forall_ne_some]
  exact fun found hread => hdeep (levels_le_of_readEnvelope h hread)

theorem levels_writeInstruction {instruction : Instruction} {form : InstructionForm}
    (hwrite : writeInstruction objects instruction = .ok form) : form.json.levels ≤ 2 := by
  obtain ⟨operands, hoperands, hwrite⟩ := Except.bind_eq_ok.1 hwrite
  cases hwrite
  have hscalar := instruction.op.isScalar_operands
  have hlevels := Value.levels_of_toJson (Value.toJson_list hoperands)
    (Value.keepableItems_iff.2 fun value hvalue => (hscalar value hvalue).keepable)
  have hitems : Value.itemLevels instruction.op.operands ≤ 0 :=
    Value.itemLevels_le_iff.2 fun value hvalue => (hscalar value hvalue).levels_le
  have hpos : (Json.ofOption posJson instruction.pos).levels ≤ 1 := by
    cases instruction.pos <;>
      simp [Json.ofOption, posJson, Json.levels, Json.memberLevels, Json.ofNat]
  rw [Value.levels] at hlevels
  simp only [InstructionForm.json, Json.levels, Json.memberLevels, Json.ofNat] at hlevels ⊢
  omega

theorem levels_proceduresJson (procedures : Table Nat) :
    (proceduresJson procedures).levels = 1 := by
  rw [proceduresJson, Json.levels, Nat.add_eq_right]
  induction procedures with
  | nil => rfl
  | cons entry rest ih => rw [List.map_cons, Json.memberLevels, ih]; rfl

theorem levels_writeExecution (hwrite : writeExecution objects execution = .ok envelope)
    (hframes : ∀ form ∈ envelope.frames, form.json.levels ≤ Json.maxLevels - 2) :
    envelope.json.levels ≤ Json.maxLevels := by
  obtain ⟨frames, forms, index, -, hforms, hindex, rfl⟩ := exists_of_writeExecution hwrite
  have hframes : Json.itemLevels (frames.map FrameForm.json) ≤ Json.maxLevels - 2 :=
    Json.itemLevels_le_iff.2 (List.forall_mem_map.2 hframes)
  have hforms := List.forall_mem_of_forall₂ (List.forall₂_of_mapM_eq_ok hforms)
    fun _ _ => levels_writeInstruction
  have hcode := Json.itemLevels_le_iff.2 (List.forall_mem_map.2 hforms)
  have hprocedures := levels_proceduresJson execution.program.procedures
  have hindex : index.levels = 0 := Value.levels_of_toJson hindex trivial
  have hlast : (Json.ofOption Json.ofNat
      (execution.lastInterrupt.map InterruptKind.code)).levels = 0 := by
    cases execution.lastInterrupt <;> rfl
  have hmax : 5 ≤ Json.maxLevels := by decide
  simp only [Envelope.json, Json.levels, Json.memberLevels, hprocedures, hindex, hlast, Json.ofNat]
  omega

theorem forall_legible_iff {frames : List Frame} {forms : List FrameForm}
    (hwrite : List.Forall₂ (fun frame form => writeFrame objects frame = .ok form) frames forms)
    (h : ∀ frame ∈ frames, frame.Formed objects) :
    (∀ frame ∈ frames, frame.Legible) ↔ (∀ form ∈ forms, form.json.levels ≤ Json.maxLevels - 2) ∧
      ∀ frame ∈ frames, ∀ value ∈ frame.values, value.Shallow := by
  induction hwrite with
  | nil => simp
  | cons hframe _ ih =>
    rw [List.forall_mem_cons] at h
    rw [List.forall_mem_cons, List.forall_mem_cons, List.forall_mem_cons, Frame.legible_iff,
      levels_writeFrame hframe h.1, ih h.2]
    tauto

end Snapshot

namespace Execution

open Restoring

variable {objects : Objects} {execution : Execution}

def Legible (execution : Execution) : Prop := ∀ frame ∈ execution.frames, frame.Legible

instance : DecidablePred Legible := fun execution =>
  inferInstanceAs (Decidable (∀ frame ∈ execution.frames, frame.Legible))

theorem exists_text_of_formed (htidy : execution.program.Tidy) (h : execution.Formed objects)
    (hfree : execution.ObjectFree) : ∃ text, execution.snapshot objects = .ok text ∧
      ∀ (sources : Sources) (store : Objects),
        (ofSnapshot sources text).run.run store =
          (if execution.Legible then .ok execution.untagged else .error .json,
            (store.addSource sources.resolvers).2) := by
  obtain ⟨envelope, hwrite, hreadable, -⟩ := Snapshot.exists_envelope htidy h
  refine ⟨_, snapshot_eq_ok hwrite, fun sources store => ?_⟩
  have hdecides := @Snapshot.decides_restoreExecution _ sources store.sources.size _ _ hwrite htidy
    h hfree
  have hlegible : execution.Legible ↔ _ :=
    Snapshot.forall_legible_iff (Snapshot.forall₂_writeFrame hwrite) h.frames
  -- The levels of the text are judged before the values in it are looked at.
  by_cases hframes : ∀ form ∈ envelope.frames, form.json.levels ≤ Json.maxLevels - 2
  · rw [ofSnapshot_text hreadable (Snapshot.levels_writeExecution hwrite hframes)]
    rw [and_iff_right hframes] at hlegible
    split
    · next hshallow =>
      rw [hdecides.eq_pure (hlegible.1 hshallow)]
      rfl
    · next hdeep =>
      rw [hdecides.eq_throw (mt hlegible.2 hdeep)]
      rfl
  · rw [if_neg fun h => hframes (hlegible.1 h).1, ofSnapshot, hreadable.parse?_text_of_deep hframes]
    rfl

end Execution

/-- Every execution of a compiled program that holds no host objects is written, however deep its
values nest. Its text is read again exactly if each variable and operand nests at most 123 levels
deep, each result at most 124, and each list that is kept in a record at most 127. -/
theorem snapshot_is_read_iff_legible {tree : Node} {before : List Node} {objects : Objects}
    {execution : Execution}
    (hcompile : tree.compile before = .ok execution.program ∨
      tree.compileExpression before = .ok execution.program)
    (hformed : execution.Formed objects) (hfree : execution.ObjectFree) :
    ∃ text, execution.snapshot objects = .ok text ∧ ∀ (sources : Sources) (store : Objects),
      ((∃ restored after, (Execution.ofSnapshot sources text).Gives store restored after) ↔
        execution.Legible) ∧
      (Execution.ofSnapshot sources text).run.run store =
        (if execution.Legible then .ok execution.untagged else .error .json,
          (store.addSource sources.resolvers).2) := by
  have htidy : execution.program.Tidy :=
    hcompile.elim Program.tidy_of_compile Program.tidy_of_compileExpression
  obtain ⟨text, htext, hread⟩ := Execution.exists_text_of_formed htidy hformed hfree
  refine ⟨text, htext, fun sources store => ⟨?_, hread sources store⟩⟩
  simp only [Restoring.Gives, hread]
  split
  · next h => exact ⟨fun _ => h, fun _ => ⟨_, _, rfl⟩⟩
  · next h =>
    refine ⟨?_, fun h' => absurd h' h⟩
    rintro ⟨restored, after, hgives⟩
    exact absurd (congrArg Prod.fst hgives) nofun

namespace Value

theorem objectFree_nested (depth : Nat) : (nested depth).ObjectFree := by
  induction depth with
  | zero => trivial
  | succ depth ih => exact ⟨ih, trivial⟩

end Value

namespace Execution

def holding (value : Value) : Execution :=
  { start .empty with globals := ⟨[("x", value)], [], .null, none⟩ }

theorem formed_holding {objects : Objects} {value : Value} (h : value.Keepable objects) :
    (holding value).Formed objects where
  size_lt := show 0 < 2 ^ 63 by decide
  pc_le := Nat.le_refl 0
  steps_lt := show 0 < 2 ^ 64 by decide
  frames := List.forall_mem_singleton.2 ⟨List.nodup_cons.2 ⟨nofun, .nil⟩,
    Frame.forall_mem_values.2 ⟨List.forall_mem_singleton.2 h, nofun, trivial⟩, nofun⟩

theorem objectFree_holding {value : Value} (h : value.ObjectFree) : (holding value).ObjectFree :=
  List.forall_mem_singleton.2
    (Frame.forall_mem_values.2 ⟨List.forall_mem_singleton.2 h, nofun, trivial⟩)

end Execution

def Value.brimful : Value := .list [.record [("k", .nested 126)], .nested 121]

theorem snapshot_is_read_iff_legible_brimful :
    (Node.root [] none).compile [] = .ok (Execution.holding .brimful).program ∧
      (Execution.holding .brimful).Formed .empty ∧ (Execution.holding .brimful).ObjectFree ∧
      ∃ text after, (Execution.holding .brimful).snapshot .empty = .ok text ∧
        (Execution.ofSnapshot ⟨[], [], false⟩ text).Gives .empty
          (Execution.holding .brimful) after := by
  have hcompile : (Node.root [] none).compile [] = .ok (Execution.holding .brimful).program := rfl
  have hkeep : Value.brimful.Keepable .empty :=
    ⟨⟨List.nodup_cons.2 ⟨nofun, .nil⟩, Value.keepable_nested _ 126, trivial⟩,
      Value.keepable_nested _ 121, trivial⟩
  have hfree : Value.brimful.ObjectFree :=
    ⟨⟨Value.objectFree_nested 126, trivial⟩, Value.objectFree_nested 121, trivial⟩
  have hlegible : (Execution.holding .brimful).Legible := by decide +kernel
  refine ⟨hcompile, Execution.formed_holding hkeep, Execution.objectFree_holding hfree, ?_⟩
  obtain ⟨text, htext, hread⟩ := snapshot_is_read_iff_legible (.inl hcompile)
    (Execution.formed_holding hkeep) (Execution.objectFree_holding hfree)
  have hgives := (hread ⟨[], [], false⟩ .empty).2
  rw [if_pos hlegible] at hgives
  exact ⟨text, _, htext, hgives⟩

/-- A list that nests 124 levels deep is written, but the text is not read. -/
theorem deep_list_unreadable :
    (Node.root [] none).compile [] = .ok (Execution.holding (.nested 123)).program ∧
      (Execution.holding (.nested 123)).Formed .empty ∧
      (Execution.holding (.nested 123)).ObjectFree ∧
      ∃ text, (Execution.holding (.nested 123)).snapshot .empty = .ok text ∧
        ∀ (sources : Sources) (store : Objects),
          ((Execution.ofSnapshot sources text).run.run store).1 = .error .json := by
  have hcompile : (Node.root [] none).compile [] =
      .ok (Execution.holding (.nested 123)).program := rfl
  have hformed := Execution.formed_holding (Value.keepable_nested .empty 123)
  have hfree := Execution.objectFree_holding (Value.objectFree_nested 123)
  have hdeep : ¬ (Execution.holding (.nested 123)).Legible := by decide +kernel
  obtain ⟨text, htext, hread⟩ :=
    Execution.exists_text_of_formed (Program.tidy_of_compile hcompile) hformed hfree
  refine ⟨hcompile, hformed, hfree, text, htext, fun sources store => ?_⟩
  rw [hread, if_neg hdeep]

end DurableScript
