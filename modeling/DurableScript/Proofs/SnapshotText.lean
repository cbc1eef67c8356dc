import DurableScript.Proofs.JsonText
import DurableScript.Snapshot.Envelope

namespace DurableScript

theorem List.mapM_eq_pure_map {m : Type → Type} [Monad m] [LawfulMonad m] {α β : Type} {f : α → m β}
    {g : α → β} {as : List α} (h : ∀ a ∈ as, f a = pure (g a)) : as.mapM f = pure (as.map g) := by
  induction as with
  | nil => rfl
  | cons a as ih =>
    rw [List.forall_mem_cons] at h
    simp [List.mapM_cons, h.1, ih h.2]

theorem List.mapM_eq_pure_self {m : Type → Type} [Monad m] [LawfulMonad m] {α : Type} {f : α → m α}
    {as : List α} (h : ∀ a ∈ as, f a = pure a) : as.mapM f = pure as :=
  (mapM_eq_pure_map (g := id) h).trans (by rw [List.map_id])

namespace Json

theorem itemDocuments_eq_map (items : List Json) : itemDocuments items = items.map document := by
  induction items with
  | nil => rfl
  | cons item rest ih => rw [itemDocuments, List.map_cons, ih]

theorem levels_lt_of_mem {item : Json} {items : List Json} (h : item ∈ items) :
    item.levels < (arr items).levels := by
  rw [levels, Nat.lt_succ_iff]
  induction items with
  | nil => cases h
  | cons first rest ih =>
    rw [itemLevels]
    rcases List.mem_cons.1 h with rfl | h
    · exact Nat.le_max_left ..
    · exact Nat.le_trans (ih h) (Nat.le_max_right ..)

theorem everywhereItems_iff {P : Json → Prop} {items : List Json} :
    EverywhereItems P items ↔ ∀ item ∈ items, Everywhere P item := by
  induction items with
  | nil => simp [EverywhereItems]
  | cons item rest ih => rw [EverywhereItems, ih, List.forall_mem_cons]

end Json

namespace Document

open Json

theorem filter_memberDocuments_of_notMem {name : String} {members : Table Json}
    (h : name ∉ Table.keys members) :
    (memberDocuments members).filter (fun (other, _) => other == some name) = [] := by
  induction members with
  | nil => rfl
  | cons first rest ih =>
    obtain ⟨key, value⟩ := first
    rw [Table.keys, List.map_cons, List.mem_cons, not_or] at h
    rw [memberDocuments, List.filter_cons_of_neg (by simpa using Ne.symm h.1), ih h.2]

theorem filter_memberDocuments {name : String} {value : Json} {members : Table Json}
    (hdistinct : Table.Distinct members) (h : (name, value) ∈ members) :
    (memberDocuments members).filter (fun (other, _) => other == some name) =
      [(some name, value.document)] := by
  induction members with
  | nil => cases h
  | cons first rest ih =>
    obtain ⟨key, other⟩ := first
    obtain ⟨hnotMem, hrest⟩ := List.nodup_cons.1 hdistinct
    rw [memberDocuments]
    rcases List.mem_cons.1 h with h | h
    · cases h
      rw [List.filter_cons_of_pos (by simp), filter_memberDocuments_of_notMem hnotMem]
    · have hne : key ≠ name := fun heq => hnotMem (List.mem_map.2 ⟨_, h, heq.symm⟩)
      rw [List.filter_cons_of_neg (by simpa using hne), ih hrest h]

theorem parts?_document (members : Table Json) (h : Table.Distinct members) :
    parts? (Table.keys members) (Json.obj members).document =
      some (members.map fun (_, value) => some value.document) := by
  have hnames : (memberDocuments members).all (fun (name, _) => name.isSome) = true := by
    clear h
    induction members with
    | nil => rfl
    | cons first rest ih => simpa [memberDocuments] using ih
  rw [document, parts?, if_pos hnames, Table.keys, List.mapM_map]
  refine List.mapM_eq_pure_map fun member hmem => ?_
  rw [Function.comp_apply, member?, filter_memberDocuments h hmem]
  rfl

theorem natBelow?_ofNat {n bound : Nat} (hn : n < 2 ^ 64) (h : n < bound) :
    (Json.ofNat n).document.natBelow? bound = some n := by
  simp [Json.ofNat, document, literal, natBelow?, number?_toDigits hn, h]

theorem optional?_document {α : Type} {write : α → Json} {read : Document → Option α}
    {a? : Option α} (h : ∀ a ∈ a?, read (write a).document = some a ∧ (write a).document ≠ .null) :
    optional? read (some (Json.ofOption write a?).document) = some a? := by
  cases a? with
  | none => rfl
  | some a =>
    obtain ⟨hread, hne⟩ := h a rfl
    rw [Json.ofOption, optional?, hread]
    · rfl
    · simpa using hne

theorem each?_document {α : Type} {write : α → Json} {read : Document → Option α} {as : List α}
    (h : ∀ a ∈ as, read (write a).document = some a) :
    each? read (Json.arr (as.map write)).document = some as := by
  rw [document, each?, itemDocuments_eq_map, List.map_map, List.mapM_map]
  exact List.mapM_eq_pure_self h

end Document

namespace Snapshot

variable {n : Nat} {envelope : Envelope}

open Document

structure FrameForm.Readable (form : FrameForm) : Prop where
  vars : form.vars.Everywhere Json.IsReadable
  stack : form.stack.Everywhere Json.IsReadable
  result : form.result.Everywhere Json.IsReadable
  returnTo : ∀ target ∈ form.returnTo, target < 2 ^ 64

structure InstructionForm.Readable (form : InstructionForm) : Prop where
  code : form.code < 2 ^ 64
  operands : form.operands.Everywhere Json.IsReadable

structure Envelope.Readable (envelope : Envelope) : Prop where
  version : envelope.version < 2 ^ 64
  frames : ∀ form ∈ envelope.frames, form.Readable
  instructions : ∀ form ∈ envelope.instructions, form.Readable
  procedures : envelope.procedures.Everywhere Json.IsReadable
  index : envelope.index.Everywhere Json.IsReadable
  steps : envelope.steps < 2 ^ 64
  lastInterrupt : ∀ code ∈ envelope.lastInterrupt, code < 2 ^ 64

theorem word?_ofNat (h : n < 2 ^ 64) : word? (Json.ofNat n).document = some n :=
  natBelow?_ofNat h h

theorem optional?_word? {n? : Option Nat} (h : ∀ n ∈ n?, n < 2 ^ 64) :
    optional? word? (some (Json.ofOption Json.ofNat n?).document) = some n? :=
  optional?_document fun n hn => ⟨word?_ofNat (h n hn), nofun⟩

theorem smallWord?_ofNat (n : UInt32) : smallWord? (Json.ofNat n.toNat).document = some n := by
  have hlt : n.toNat < 2 ^ 32 := n.toNat_lt
  rw [smallWord?, natBelow?_ofNat (by omega) hlt, Option.map_some, UInt32.ofNat_toNat]

theorem readPos_posJson (pos : SourcePos) : readPos (posJson pos).document = some pos := by
  have hparts : (posJson pos).document.parts? ["l", "p", "w"] =
      some [some (Json.ofNat pos.line.toNat).document, some (Json.ofNat pos.column.toNat).document,
        some (Json.ofNat pos.width.toNat).document] :=
    parts?_document _ (by simp [Table.Distinct, Table.keys])
  simp [readPos, hparts, withDefault?, smallWord?_ofNat]

theorem toJson?_of_levels_le {json : Json} (h : json.Everywhere Json.IsReadable)
    (hlevels : json.levels ≤ n) : json.document.toJson? n = some json := by
  rw [toJson?_document json h, if_pos hlevels]

theorem FrameForm.parts?_json (form : FrameForm) : form.json.document.parts? ["v", "s", "r", "p"] =
      some [some form.vars.document, some form.stack.document, some form.result.document,
        some (Json.ofOption Json.ofNat form.returnTo).document] :=
  parts?_document _ (by simp [Table.Distinct, Table.keys])

theorem readFrame_json {form : FrameForm} (h : form.Readable)
    (hlevels : form.json.levels ≤ Json.maxLevels - 2) : readFrame form.json.document = some form := by
  simp only [FrameForm.json, Json.levels, Json.memberLevels] at hlevels
  have hvars := toJson?_of_levels_le h.vars (show _ ≤ Json.maxLevels - 3 by omega)
  have hstack := toJson?_of_levels_le h.stack (show _ ≤ Json.maxLevels - 3 by omega)
  have hresult := toJson?_of_levels_le h.result (show _ ≤ Json.maxLevels - 3 by omega)
  simp [readFrame, form.parts?_json, hvars, hstack, hresult, withDefault?, optional?_word? h.returnTo]

theorem readInstruction_json {form : InstructionForm} (h : form.Readable)
    (hlevels : form.json.levels ≤ Json.maxLevels - 3) :
    readInstruction form.json.document = some form := by
  have hparts : form.json.document.parts? ["o", "a", "t"] =
      some [some (Json.ofNat form.code).document, some form.operands.document,
        some (Json.ofOption posJson form.pos).document] :=
    parts?_document _ (by simp [Table.Distinct, Table.keys])
  simp only [InstructionForm.json, Json.levels, Json.memberLevels] at hlevels
  have hoperands := toJson?_of_levels_le h.operands (show _ ≤ Json.maxLevels - 4 by omega)
  have hpos : optional? readPos (some (Json.ofOption posJson form.pos).document) = some form.pos :=
    optional?_document fun pos _ => ⟨readPos_posJson pos, Document.noConfusion⟩
  simp [readInstruction, hparts, hoperands, hpos, word?_ofNat h.code]

def Envelope.programJson (envelope : Envelope) : Json :=
  .obj [("i", .arr (envelope.instructions.map InstructionForm.json)), ("p", envelope.procedures)]

theorem Envelope.parts?_programJson (envelope : Envelope) :
    envelope.programJson.document.parts? ["i", "p"] =
      some [some (Json.arr (envelope.instructions.map InstructionForm.json)).document,
        some envelope.procedures.document] :=
  parts?_document _ (by simp [Table.Distinct, Table.keys])

theorem readProgram_json (h : envelope.Readable)
    (hlevels : envelope.programJson.levels ≤ Json.maxLevels - 1) :
    readProgram envelope.programJson.document = some (envelope.instructions, envelope.procedures) := by
  rw [Envelope.programJson, Json.levels, Json.memberLevels, Json.memberLevels, Json.memberLevels]
    at hlevels
  have hinstructions : each? readInstruction
      (Json.arr (envelope.instructions.map InstructionForm.json)).document =
        some envelope.instructions := by
    refine each?_document fun form hform => readInstruction_json (h.instructions form hform) ?_
    have := Json.levels_lt_of_mem (List.mem_map_of_mem (f := InstructionForm.json) hform)
    omega
  have hprocedures := toJson?_of_levels_le h.procedures (show _ ≤ Json.maxLevels - 2 by omega)
  simp [readProgram, envelope.parts?_programJson, hinstructions, hprocedures]

theorem Envelope.parts?_json (envelope : Envelope) :
    envelope.json.document.parts? ["v", "s", "ic", "i", "c", "l"] =
      some [some (Json.ofNat envelope.version).document,
        some (Json.arr (envelope.frames.map FrameForm.json)).document,
        some envelope.programJson.document, some envelope.index.document,
        some (Json.ofNat envelope.steps).document,
        some (Json.ofOption Json.ofNat envelope.lastInterrupt).document] :=
  parts?_document _ (by simp [Table.Distinct, Table.keys])

theorem readEnvelope_json (h : envelope.Readable) (hlevels : envelope.json.levels ≤ Json.maxLevels) :
    readEnvelope envelope.json.document = some envelope := by
  have hlevels' : envelope.json.levels = max (Json.ofNat envelope.version).levels
      (max (Json.arr (envelope.frames.map FrameForm.json)).levels (max envelope.programJson.levels
        (max envelope.index.levels (max (Json.ofNat envelope.steps).levels
          (max (Json.ofOption Json.ofNat envelope.lastInterrupt).levels 0))))) + 1 := rfl
  have hframes : each? readFrame (Json.arr (envelope.frames.map FrameForm.json)).document =
      some envelope.frames := by
    refine each?_document fun form hform => readFrame_json (h.frames form hform) ?_
    have := Json.levels_lt_of_mem (List.mem_map_of_mem (f := FrameForm.json) hform)
    omega
  have hprogram := readProgram_json h (by omega)
  have hindex := toJson?_of_levels_le h.index (show _ ≤ Json.maxLevels - 1 by omega)
  simp [readEnvelope, envelope.parts?_json, hframes, hprogram, hindex, withDefault?, word?_ofNat h.version,
    word?_ofNat h.steps, optional?_word? h.lastInterrupt]

theorem everywhere_ofNat (h : n < 2 ^ 64) : (Json.ofNat n).Everywhere Json.IsReadable :=
  ⟨Int.natCast_nonneg n, by exact_mod_cast h⟩

theorem everywhere_ofOption {α : Type} {write : α → Json} {a? : Option α}
    (h : ∀ a ∈ a?, (write a).Everywhere Json.IsReadable) :
    (Json.ofOption write a?).Everywhere Json.IsReadable := by
  cases a? with
  | none => trivial
  | some a => exact h a rfl

theorem everywhere_posJson (pos : SourcePos) : (posJson pos).Everywhere Json.IsReadable := by
  have hword (n : UInt32) : (Json.ofNat n.toNat).Everywhere Json.IsReadable :=
    everywhere_ofNat (Nat.lt_trans n.toNat_lt (by decide))
  exact ⟨by simp [Json.IsReadable, Table.Distinct, Table.keys], hword _, hword _, hword _, trivial⟩

theorem FrameForm.Readable.everywhere_json {form : FrameForm} (h : form.Readable) :
    form.json.Everywhere Json.IsReadable :=
  ⟨by simp [Json.IsReadable, Table.Distinct, Table.keys], h.vars, h.stack, h.result,
    everywhere_ofOption fun target htarget => everywhere_ofNat (h.returnTo target htarget), trivial⟩

theorem InstructionForm.Readable.everywhere_json {form : InstructionForm} (h : form.Readable) :
    form.json.Everywhere Json.IsReadable :=
  ⟨by simp [Json.IsReadable, Table.Distinct, Table.keys], everywhere_ofNat h.code, h.operands,
    everywhere_ofOption fun pos _ => everywhere_posJson pos, trivial⟩

theorem everywhere_arr_map {α : Type} {write : α → Json} {as : List α}
    (h : ∀ a ∈ as, (write a).Everywhere Json.IsReadable) :
    (Json.arr (as.map write)).Everywhere Json.IsReadable :=
  ⟨trivial, Json.everywhereItems_iff.2 (List.forall_mem_map.2 h)⟩

theorem Envelope.Readable.everywhere_json (h : envelope.Readable) :
    envelope.json.Everywhere Json.IsReadable := by
  have hframes := everywhere_arr_map fun form hform => (h.frames form hform).everywhere_json
  have hcode := everywhere_arr_map fun form hform => (h.instructions form hform).everywhere_json
  refine ⟨by simp [Json.IsReadable, Table.Distinct, Table.keys], everywhere_ofNat h.version, hframes,
    ⟨by simp [Json.IsReadable, Table.Distinct, Table.keys], hcode, h.procedures, trivial⟩, h.index,
    everywhere_ofNat h.steps, everywhere_ofOption fun code hmem => ?_, trivial⟩
  exact everywhere_ofNat (h.lastInterrupt code hmem)

theorem Envelope.parse?_text (h : envelope.Readable)
    (hlevels : envelope.json.levels ≤ Json.maxLevels) :
    (Document.parse? envelope.json.text.toList).bind readEnvelope = some envelope := by
  rw [Json.text, String.toList_ofList,
    Document.parse?_render (Json.everywhere_mono Json.IsReadable.isWhole _ h.everywhere_json),
    Option.bind_some, readEnvelope_json h hlevels]

end Snapshot

end DurableScript
