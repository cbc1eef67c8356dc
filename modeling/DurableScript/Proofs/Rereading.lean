import DurableScript.Proofs.Containment
import DurableScript.Proofs.RoundTrip

namespace DurableScript

variable {α β : Type} {as : List α} {bs : List β}

theorem List.forall₂_of_mapM {m : Type → Type} [Monad m] [LawfulMonad m] {α β : Type} {f : α → m β}
    (gives : {γ : Type} → m γ → γ → Prop)
    (hpure : ∀ {γ : Type} {a b : γ}, gives (pure a) b → a = b)
    (hbind : ∀ {γ δ : Type} {x : m γ} {k : γ → m δ} {b : δ}, gives (x >>= k) b →
      ∃ a, gives x a ∧ gives (k a) b) {as : List α} {bs : List β} (h : gives (as.mapM f) bs) :
    List.Forall₂ (fun a b => gives (f a) b) as bs := by
  induction as generalizing bs with
  | nil =>
    cases hpure (List.mapM_nil (f := f) ▸ h)
    exact .nil
  | cons a as ih =>
    rw [List.mapM_cons] at h
    obtain ⟨b, hb, h⟩ := hbind h
    obtain ⟨rest, hrest, h⟩ := hbind h
    cases hpure h
    exact .cons hb (ih hrest)

theorem List.forall₂_of_mapM_eq_ok {ε : Type} {f : α → Except ε β} (h : as.mapM f = .ok bs) :
    List.Forall₂ (fun a b => f a = .ok b) as bs :=
  forall₂_of_mapM (fun x a => x = Except.ok a) Except.ok.inj Except.bind_eq_ok.1 h

theorem List.forall₂_of_mapM_eq_some {f : α → Option β} (h : as.mapM f = some bs) :
    List.Forall₂ (fun a b => f a = some b) as bs :=
  forall₂_of_mapM (fun x a => x = some a) Option.some.inj Option.bind_eq_some_iff.1 h

theorem List.map_eq_of_forall₂ {γ : Type} {R : α → β → Prop} {f : α → γ} {g : β → γ}
    (h : List.Forall₂ R as bs) (hR : ∀ a b, R a b → g b = f a) :
    bs.map g = as.map f := by
  induction h with
  | nil => rfl
  | cons hab _ ih => rw [List.map_cons, List.map_cons, hR _ _ hab, ih]

theorem List.forall_mem_of_forall₂ {R : α → β → Prop} {P : β → Prop} (h : List.Forall₂ R as bs)
    (hR : ∀ a b, R a b → P b) : ∀ b ∈ bs, P b := by
  induction h with
  | nil => exact nofun
  | cons hab _ ih => exact List.forall_mem_cons.2 ⟨hR _ _ hab, ih⟩

namespace Value

variable {objects : Objects}

mutual

theorem isPlain_of_tagForm : ∀ (value : Value) {form : TagForm}, value.tagForm objects = .ok form →
    form.json.Everywhere Json.IsPlain
  | null, _, h | bool true, _, h | bool false, _, h | int _, _, h
  | float _, _, h | str _, _, h => by cases h; trivial
  | list items, form, h => by
    rw [tagForm] at h
    cases hforms : itemForms objects items with
    | error e =>
      rw [hforms] at h
      cases h
    | ok forms =>
      rw [hforms] at h
      cases h
      exact ⟨trivial, isPlain_of_itemForms items hforms⟩
  | record fields, form, h => by
    obtain ⟨pairs, -, h⟩ := Except.bind_eq_ok.1 h
    cases h
    trivial
  | object ref, form, h => by
    rw [tagForm, Objects.tagForm] at h
    split at h <;> cases h <;> trivial

theorem isPlain_of_itemForms : ∀ (items : List Value) {forms : List Json},
    itemForms objects items = .ok forms → Json.EverywhereItems Json.IsPlain forms
  | [], _, h => by cases h; trivial
  | item :: rest, forms, h => by
    obtain ⟨form, hform, h⟩ := Except.bind_eq_ok.1 h
    obtain ⟨others, hothers, h⟩ := Except.bind_eq_ok.1 h
    cases h
    exact ⟨isPlain_of_tagForm item hform, isPlain_of_itemForms rest hothers⟩

end

theorem isWhole_of_toJson {value : Value} {json : Json} (h : value.toJson objects = .ok json) :
    json.Everywhere Json.IsWhole := by
  rw [toJson] at h
  cases hform : value.tagForm objects with
  | error e =>
    rw [hform] at h
    cases h
  | ok form =>
    rw [hform] at h
    cases h
    have hplain := value.isPlain_of_tagForm hform
    exact Json.everywhere_mono (fun json h => (Json.IsPlain.isReadable json h).isWhole) _ hplain

theorem isWhole_of_itemForms {items : List Value} {forms : List Json}
    (h : itemForms objects items = .ok forms) : (Json.arr forms).Everywhere Json.IsWhole := by
  have hplain : (Json.arr forms).Everywhere Json.IsPlain := ⟨trivial, isPlain_of_itemForms items h⟩
  exact Json.everywhere_mono (fun json h => (Json.IsPlain.isReadable json h).isWhole) _ hplain

end Value

namespace Document

theorem eq_of_natBelow?_ofNat {n m bound : Nat}
    (h : (Json.ofNat n).document.natBelow? bound = some m) : m = n := by
  rw [Json.ofNat, Json.document, Json.literal, Int.toNat_natCast, natBelow?] at h
  split at h
  · next k hk =>
    by_cases hn : n < 2 ^ 64
    · rw [number?_toDigits hn] at hk
      cases hk
      simp at h
      omega
    · have hn' : ¬ n < 18446744073709551616 := hn
      simp [JsonLiteral.number?, hn'] at hk
  · cases h

theorem eq_of_optional?_ofNat {n? m? : Option Nat} {bound : Nat}
    (h : optional? (natBelow? bound) (some (Json.ofOption Json.ofNat n?).document) = some m?) :
    m? = n? := by
  cases n? with
  | none =>
    cases h
    rfl
  | some n =>
    obtain ⟨m, hm, rfl⟩ := Option.map_eq_some_iff.1 h
    rw [eq_of_natBelow?_ofNat hm]

end Document

namespace Snapshot

open Document Restoring

variable {objects : Objects} {α : Type} {write : α → Json} {frame : Frame} {form : FrameForm}
  {execution : Execution} {envelope : Envelope}

def Envelope.returns (envelope : Envelope) : List (Option Nat) :=
  envelope.frames.map FrameForm.returnTo

theorem writeVariables_isWhole {vars : Table Value} {written : Table Json}
    (h : writeVariables objects vars = .ok written) :
    Json.EverywhereMembers Json.IsWhole written := by
  induction vars generalizing written with
  | nil =>
    cases h
    trivial
  | cons entry rest ih =>
    obtain ⟨json, hjson, h⟩ := Except.bind_eq_ok.1 h
    obtain ⟨others, hothers, h⟩ := Except.bind_eq_ok.1 h
    cases h
    exact ⟨Value.isWhole_of_toJson hjson, ih hothers⟩

theorem isWhole_ofNat (n : Nat) : (Json.ofNat n).Everywhere Json.IsWhole := Int.natCast_nonneg n

theorem isWhole_ofOption (h : ∀ a, (write a).Everywhere Json.IsWhole) (a? : Option α) :
    (Json.ofOption write a?).Everywhere Json.IsWhole := by
  cases a? with
  | none => trivial
  | some a => exact h a

theorem exists_of_writeFrame (h : writeFrame objects frame = .ok form) :
    ∃ vars stack result, writeVariables objects frame.vars = .ok vars ∧
      Value.itemForms objects frame.stack.reverse = .ok stack ∧
      frame.result.toJson objects = .ok result ∧
      form = ⟨.obj vars, .arr stack, result, frame.returnTo⟩ := by
  obtain ⟨vars, hvars, h⟩ := Except.bind_eq_ok.1 h
  obtain ⟨stack, hstack, h⟩ := Except.bind_eq_ok.1 h
  obtain ⟨result, hresult, h⟩ := Except.bind_eq_ok.1 h
  cases h
  exact ⟨vars, stack, result, hvars, hstack, hresult, rfl⟩

theorem writeFrame_eq_ok (h : writeFrame objects frame = .ok form) :
    form.returnTo = frame.returnTo ∧ form.json.Everywhere Json.IsWhole := by
  obtain ⟨vars, stack, result, hvars, hstack, hresult, rfl⟩ := exists_of_writeFrame h
  exact ⟨rfl, trivial, ⟨trivial, writeVariables_isWhole hvars⟩, Value.isWhole_of_itemForms hstack,
    Value.isWhole_of_toJson hresult, isWhole_ofOption isWhole_ofNat _, trivial⟩

theorem writeInstruction_isWhole {instruction : Instruction} {form : InstructionForm}
    (h : writeInstruction objects instruction = .ok form) : form.json.Everywhere Json.IsWhole := by
  obtain ⟨operands, hoperands, h⟩ := Except.bind_eq_ok.1 h
  cases h
  have hpos (pos : SourcePos) : (posJson pos).Everywhere Json.IsWhole :=
    ⟨trivial, isWhole_ofNat _, isWhole_ofNat _, isWhole_ofNat _, trivial⟩
  exact ⟨trivial, isWhole_ofNat _, Value.isWhole_of_itemForms hoperands, isWhole_ofOption hpos _,
    trivial⟩

theorem isWhole_arr_map {as : List α} (h : ∀ a ∈ as, (write a).Everywhere Json.IsWhole) :
    (Json.arr (as.map write)).Everywhere Json.IsWhole :=
  ⟨trivial, Json.everywhereItems_iff.2 (List.forall_mem_map.2 h)⟩

theorem isWhole_procedures (procedures : Table Nat) :
    (proceduresJson procedures).Everywhere Json.IsWhole := by
  refine ⟨trivial, ?_⟩
  induction procedures with
  | nil => trivial
  | cons entry rest ih => exact ⟨isWhole_ofNat _, ih⟩

theorem exists_of_writeExecution (h : writeExecution objects execution = .ok envelope) :
    ∃ frames instructions index, execution.frames.mapM (writeFrame objects) = .ok frames ∧
      execution.program.code.toList.mapM (writeInstruction objects) = .ok instructions ∧
      (Op.indexValue execution.pc).toJson objects = .ok index ∧
      envelope = ⟨version, frames, instructions, proceduresJson execution.program.procedures, index,
        execution.steps, execution.lastInterrupt.map InterruptKind.code⟩ := by
  obtain ⟨frames, hframes, h⟩ := Except.bind_eq_ok.1 h
  obtain ⟨instructions, hinstructions, h⟩ := Except.bind_eq_ok.1 h
  obtain ⟨index, hindex, h⟩ := Except.bind_eq_ok.1 h
  cases h
  exact ⟨frames, instructions, index, hframes, hinstructions, hindex, rfl⟩

theorem writeExecution_eq_ok (h : writeExecution objects execution = .ok envelope) :
    envelope.returns = execution.frames.map Frame.returnTo ∧
      envelope.instructions.length = execution.program.size ∧
      envelope.json.Everywhere Json.IsWhole := by
  obtain ⟨frames, instructions, index, hframes, hinstructions, hindex, rfl⟩ :=
    exists_of_writeExecution h
  have hframes := List.forall₂_of_mapM_eq_ok hframes
  have hinstructions := List.forall₂_of_mapM_eq_ok hinstructions
  refine ⟨List.map_eq_of_forall₂ hframes fun _ _ h => (writeFrame_eq_ok h).1,
    hinstructions.length_eq.symm, trivial, isWhole_ofNat _, ?_, ⟨trivial, ?_, ?_, trivial⟩,
    Value.isWhole_of_toJson hindex, isWhole_ofNat _, isWhole_ofOption isWhole_ofNat _, trivial⟩
  · exact isWhole_arr_map (List.forall_mem_of_forall₂ hframes fun _ _ h => (writeFrame_eq_ok h).2)
  · exact isWhole_arr_map (List.forall_mem_of_forall₂ hinstructions fun _ _ h =>
      writeInstruction_isWhole h)
  · exact isWhole_procedures _

theorem readFrame_eq_some {found : FrameForm} (h : readFrame form.json.document = some found) :
    found.returnTo = form.returnTo := by
  rw [readFrame, form.parts?_json, Option.bind_eq_bind, Option.bind_some] at h
  obtain ⟨vars, -, h⟩ := Option.bind_eq_some_iff.1 h
  obtain ⟨stack, -, h⟩ := Option.bind_eq_some_iff.1 h
  obtain ⟨result, -, h⟩ := Option.bind_eq_some_iff.1 h
  obtain ⟨returnTo, hreturn, h⟩ := Option.bind_eq_some_iff.1 h
  cases h
  exact eq_of_optional?_ofNat hreturn

theorem forall₂_of_each? {β : Type} {read : Document → Option β} {as : List α} {bs : List β}
    (h : each? read (Json.arr (as.map write)).document = some bs) :
    List.Forall₂ (fun a b => read (write a).document = some b) as bs := by
  rw [Json.document, each?, Json.itemDocuments_eq_map, List.map_map, List.mapM_map] at h
  exact List.forall₂_of_mapM_eq_some h

theorem length_of_readProgram {found : List InstructionForm × Json}
    (h : readProgram envelope.programJson.document = some found) :
    found.1.length = envelope.instructions.length := by
  rw [readProgram, envelope.parts?_programJson, Option.bind_eq_bind, Option.bind_some] at h
  obtain ⟨instructions, hinstructions, h⟩ := Option.bind_eq_some_iff.1 h
  obtain ⟨procedures, -, h⟩ := Option.bind_eq_some_iff.1 h
  cases h
  exact (forall₂_of_each? hinstructions).length_eq.symm

theorem readEnvelope_eq_some {found : Envelope}
    (h : readEnvelope envelope.json.document = some found) :
    found.returns = envelope.returns ∧ found.instructions.length = envelope.instructions.length := by
  rw [readEnvelope, envelope.parts?_json, Option.bind_eq_bind, Option.bind_some] at h
  obtain ⟨version, -, h⟩ := Option.bind_eq_some_iff.1 h
  obtain ⟨frames, hframes, h⟩ := Option.bind_eq_some_iff.1 h
  obtain ⟨⟨instructions, procedures⟩, hprogram, h⟩ := Option.bind_eq_some_iff.1 h
  obtain ⟨index, -, h⟩ := Option.bind_eq_some_iff.1 h
  obtain ⟨steps, -, h⟩ := Option.bind_eq_some_iff.1 h
  obtain ⟨lastInterrupt, -, h⟩ := Option.bind_eq_some_iff.1 h
  cases h
  refine ⟨?_, length_of_readProgram hprogram⟩
  exact List.map_eq_of_forall₂ (forall₂_of_each? hframes) fun _ _ h => readFrame_eq_some h

variable {sources : Sources} {source : Nat} {store after : Objects}

theorem length_of_restoreCode {index : Nat} {forms : List InstructionForm} {code : List Instruction}
    (h : (restoreCode sources source index forms).Gives store code after) :
    code.length = forms.length := by
  induction forms generalizing index code store after with
  | nil =>
    obtain ⟨rfl, -⟩ := gives_pure_iff.1 h
    rfl
  | cons form rest ih =>
    obtain ⟨instruction, _, -, h⟩ := gives_bind_iff.1 h
    obtain ⟨others, _, hothers, h⟩ := gives_bind_iff.1 h
    obtain ⟨rfl, -⟩ := gives_pure_iff.1 h
    rw [List.length_cons, ih hothers, List.length_cons]

def restoreTable (sources : Sources) (source : Nat) : Json → Restoring (Table Value)
  | .obj members => restoreVariables sources source [] members
  | .arr [] => pure []
  | _ => throw (.malformedExecution .variablesNotObject)

theorem restoreFrame_eq (form : FrameForm) : restoreFrame sources source form = (do
    let vars ← restoreTable sources source form.vars
    match ← restoreJson sources source form.stack with
    | .list items =>
      let result ← restoreJson sources source form.result
      return ⟨vars, items.reverse, result, form.returnTo⟩
    | _ => throw (.malformedExecution .stackNotList)) := by
  unfold restoreFrame restoreTable
  cases form.vars with
  | arr items => cases items <;> rfl
  | _ => rfl

theorem gives_restoreFrame_iff : (restoreFrame sources source form).Gives store frame after ↔
      ∃ vars items result between between',
        (restoreTable sources source form.vars).Gives store vars between ∧
        (restoreJson sources source form.stack).Gives between (.list items) between' ∧
        (restoreJson sources source form.result).Gives between' result after ∧
        frame = ⟨vars, items.reverse, result, form.returnTo⟩ := by
  rw [restoreFrame_eq]
  constructor
  · intro h
    obtain ⟨vars, between, hvars, h⟩ := gives_bind_iff.1 h
    obtain ⟨stack, between', hstack, h⟩ := gives_bind_iff.1 h
    split at h
    · next items =>
      obtain ⟨result, _, hresult, h⟩ := gives_bind_iff.1 h
      obtain ⟨rfl, rfl⟩ := gives_pure_iff.1 h
      exact ⟨vars, items, result, between, between', hvars, hstack, hresult, rfl⟩
    · exact absurd h not_gives_throw
  · rintro ⟨vars, items, result, between, between', hvars, hstack, hresult, rfl⟩
    refine gives_bind_iff.2 ⟨vars, between, hvars, gives_bind_iff.2 ⟨_, between', hstack, ?_⟩⟩
    exact gives_bind_iff.2 ⟨result, after, hresult, gives_pure_iff.2 ⟨rfl, rfl⟩⟩

theorem returns_of_restoreFrames {forms : List FrameForm} {frames : List Frame}
    (h : (restoreFrames sources source forms).Gives store frames after) :
    frames.map Frame.returnTo = forms.map FrameForm.returnTo := by
  induction forms generalizing frames store after with
  | nil =>
    obtain ⟨rfl, -⟩ := gives_pure_iff.1 h
    rfl
  | cons form rest ih =>
    obtain ⟨frame, _, hframe, h⟩ := gives_bind_iff.1 h
    obtain ⟨others, _, hothers, h⟩ := gives_bind_iff.1 h
    obtain ⟨rfl, -⟩ := gives_pure_iff.1 h
    obtain ⟨_, _, _, _, _, -, -, -, rfl⟩ := gives_restoreFrame_iff.1 hframe
    rw [List.map_cons, List.map_cons, ih hothers]

theorem eq_of_ofFrames? {program : Program} {frames : List Frame} {pc steps : Nat}
    {lastInterrupt : Option InterruptKind}
    (h : Execution.ofFrames? program frames pc steps lastInterrupt = some execution) :
    program = execution.program ∧ execution.pc ≤ execution.program.size ∧
      execution.frames = frames := by
  unfold Execution.ofFrames? at h
  split at h
  · cases h
  · split at h
    · next hpc =>
      cases h
      exact ⟨rfl, hpc, by simp [Execution.frames]⟩
    · cases h

theorem gives_restoreExecution_iff :
    (restoreExecution sources source envelope).Gives store execution after ↔
      ∃ code procedures program frames index lastInterrupt between between',
        envelope.version = version ∧
        (restoreCode sources source 0 envelope.instructions).Gives store code between ∧
        readProcedures envelope.procedures = .ok procedures ∧
        Program.checked ⟨code.toArray, procedures⟩ = .ok program ∧
        (restoreFrames sources source envelope.frames).Gives between frames between' ∧
        (restoreIndex sources source envelope.index).Gives between' index after ∧
        readInterrupt envelope.lastInterrupt = .ok lastInterrupt ∧
        Execution.ofFrames? program frames index envelope.steps lastInterrupt = some execution := by
  unfold restoreExecution
  dsimp only
  constructor
  · intro h
    split at h
    · obtain ⟨_, _, h, -⟩ := gives_bind_iff.1 h
      exact absurd h not_gives_throw
    next hversion =>
    obtain ⟨code, between, hcode, h⟩ := gives_bind_iff.1 h
    obtain ⟨procedures, _, h', h⟩ := gives_bind_iff.1 h
    obtain ⟨hprocedures, rfl⟩ := gives_ofExcept_iff.1 h'
    obtain ⟨program, _, h', h⟩ := gives_bind_iff.1 h
    obtain ⟨hprogram, rfl⟩ := gives_ofExcept_iff.1 h'
    obtain ⟨frames, between', hframes, h⟩ := gives_bind_iff.1 h
    obtain ⟨index, _, hindex, h⟩ := gives_bind_iff.1 h
    obtain ⟨lastInterrupt, _, h', h⟩ := gives_bind_iff.1 h
    obtain ⟨hinterrupt, rfl⟩ := gives_ofExcept_iff.1 h'
    split at h
    · obtain ⟨_, _, h, -⟩ := gives_bind_iff.1 h
      exact absurd h not_gives_throw
    split at h
    · next found hfound =>
      obtain ⟨rfl, rfl⟩ := gives_pure_iff.1 h
      exact ⟨code, procedures, program, frames, index, lastInterrupt, between, between',
        not_not.1 hversion, hcode, hprocedures, hprogram, hframes, hindex, hinterrupt, hfound⟩
    · exact absurd h not_gives_throw
  · rintro ⟨code, procedures, program, frames, index, lastInterrupt, between, between', hversion,
      hcode, hprocedures, hprogram, hframes, hindex, hinterrupt, hfound⟩
    rw [if_neg (not_not.2 hversion)]
    refine gives_bind_iff.2 ⟨code, between, hcode, gives_bind_iff.2 ⟨procedures, between,
      gives_ofExcept_iff.2 ⟨hprocedures, rfl⟩, gives_bind_iff.2 ⟨program, between,
      gives_ofExcept_iff.2 ⟨hprogram, rfl⟩, gives_bind_iff.2 ⟨frames, between', hframes,
      gives_bind_iff.2 ⟨index, after, hindex, gives_bind_iff.2 ⟨lastInterrupt, after,
      gives_ofExcept_iff.2 ⟨hinterrupt, rfl⟩, ?_⟩⟩⟩⟩⟩⟩
    have hframes : frames.isEmpty = false := by
      cases frames with
      | nil => cases hfound
      | cons => rfl
    rw [hframes, hfound]
    exact gives_pure_iff.2 ⟨rfl, rfl⟩

theorem restoreExecution_gives
    (h : (restoreExecution sources source envelope).Gives store execution after) :
    execution.program.Contained ∧ execution.program.size = envelope.instructions.length ∧
      execution.pc ≤ execution.program.size ∧
      execution.frames.map Frame.returnTo = envelope.returns := by
  obtain ⟨code, procedures, program, frames, index, lastInterrupt, _, _, -, hcode, -, hchecked,
    hframes, -, -, hfound⟩ := gives_restoreExecution_iff.1 h
  obtain ⟨rfl, hcontained⟩ := Program.checked_eq_ok_iff.1 hchecked
  obtain ⟨hprogram, hpc, hfound⟩ := eq_of_ofFrames? hfound
  refine ⟨hprogram ▸ hcontained, ?_, hpc, ?_⟩
  · rw [← hprogram, ← length_of_restoreCode hcode]
    rfl
  · rw [hfound, returns_of_restoreFrames hframes, Envelope.returns]

end Snapshot

namespace Execution

open Restoring

variable {sources : Sources} {store after objects : Objects} {text : String}
  {execution restored : Execution}

theorem returns_eq_of_frames (h : restored.frames.map Frame.returnTo =
    execution.frames.map Frame.returnTo) : restored.returns = execution.returns := by
  have hcalls := (List.cons.inj h).2
  rwa [List.map_reverse, List.map_reverse, List.reverse_inj] at hcalls

theorem run_ofSnapshot (sources : Sources) (text : String) (store : Objects) :
    (ofSnapshot sources text).run.run store =
      (ExceptT.run (((Document.parse? text.toList).bind Snapshot.readEnvelope).elim (throw .json)
        (Snapshot.restoreExecution sources store.sources.size))).run
          (store.addSource sources.resolvers).2 := by
  unfold ofSnapshot
  cases (Document.parse? text.toList).bind Snapshot.readEnvelope <;> rfl

theorem gives_ofSnapshot_iff : (ofSnapshot sources text).Gives store execution after ↔
    ∃ envelope, (Document.parse? text.toList).bind Snapshot.readEnvelope = some envelope ∧
      (Snapshot.restoreExecution sources store.sources.size envelope).Gives
        (store.addSource sources.resolvers).2 execution after := by
  unfold Gives
  rw [run_ofSnapshot]
  cases (Document.parse? text.toList).bind Snapshot.readEnvelope with
  | none => exact iff_of_false not_gives_throw (by simp)
  | some envelope => simp

theorem confined_of_ofSnapshot (h : (ofSnapshot sources text).Gives store execution after) :
    execution.Confined execution.program.size execution.returns := by
  obtain ⟨envelope, -, hrestore⟩ := gives_ofSnapshot_iff.1 h
  obtain ⟨hcontained, -, hpc, -⟩ := Snapshot.restoreExecution_gives hrestore
  exact ⟨hcontained, rfl, hpc, .kept List.suffix_rfl⟩

theorem Confined.reread {size : Nat} {origin : List (Option Nat)}
    (hconfined : execution.Confined size origin) (hwrite : execution.snapshot objects = .ok text)
    (h : (ofSnapshot sources text).Gives store restored after) : restored.Confined size origin := by
  obtain ⟨found, hfound, hrestore⟩ := gives_ofSnapshot_iff.1 h
  obtain ⟨hcontained, hsize, hpc, hframes⟩ := Snapshot.restoreExecution_gives hrestore
  rw [snapshot] at hwrite
  cases henvelope : Snapshot.writeExecution objects execution with
  | error e =>
    rw [henvelope] at hwrite
    cases hwrite
  | ok envelope =>
    rw [henvelope] at hwrite
    obtain rfl : envelope.json.text = text := Except.ok.inj hwrite
    obtain ⟨hreturns, hlength, hwhole⟩ := Snapshot.writeExecution_eq_ok henvelope
    rw [Json.text, String.toList_ofList, Document.parse?_render hwhole, Option.bind_some] at hfound
    obtain ⟨hreturns', hlength'⟩ := Snapshot.readEnvelope_eq_some hfound
    have hsame : restored.program.size = size := by
      rw [hsize, hlength', hlength, hconfined.size_eq]
    refine ⟨hcontained, hsame, hsame ▸ hpc, ?_⟩
    rw [returns_eq_of_frames (hframes.trans (hreturns'.trans hreturns))]
    exact hconfined.inherits

end Execution

end DurableScript
