import DurableScript.Proofs.FailedSteps

/-!
The code of arguments. It stands right before the call that takes them, and the call says where it
begins. It leaves alone what lay on the stack before, and no jump leads into the midst of it.
-/

namespace DurableScript

open Node

/-- Between the two places stands the code of as many arguments. -/
def Program.Argued (program : Program) (argc restart index : Nat) : Prop :=
  ∃ args pushed, args.length = argc ∧ LowersValue (.arguments args) restart pushed ∧
    program.Holds restart pushed ∧ index = restart + pushed.length

def Program.callAt? (program : Program) (index : Nat) : Option (Nat × Nat) :=
  program.code[index]?.bind (·.op.call?)

def Program.Clear (program : Program) (index : Nat) : Prop :=
  ∀ call argc restart, program.callAt? call = some (argc, restart) → index ≤ call → index ≤ restart

def CallsFrom (start : Nat) (code : List Instruction) : Prop :=
  ∀ instruction ∈ code, ∀ argc restart, instruction.op.call? = some (argc, restart) → start ≤ restart

section CallsFrom

variable {start : Nat} {code : List Instruction}

@[simp] theorem callsFrom_nil : CallsFrom start [] := List.forall_mem_nil _

@[simp] theorem callsFrom_cons {instruction : Instruction} : CallsFrom start (instruction :: code) ↔
    (∀ argc restart, instruction.op.call? = some (argc, restart) → start ≤ restart) ∧
      CallsFrom start code := List.forall_mem_cons

@[simp] theorem callsFrom_append {other : List Instruction} :
    CallsFrom start (code ++ other) ↔ CallsFrom start code ∧ CallsFrom start other :=
  List.forall_mem_append

theorem CallsFrom.mono (h : CallsFrom start code) {other : Nat} (hle : other ≤ start) :
    CallsFrom other code :=
  fun instruction hmem argc restart hcall => hle.trans (h instruction hmem argc restart hcall)

@[simp] theorem callsFrom_properties {pos : Option SourcePos} {names : List String} :
    CallsFrom start (emit pos (names.map .pushProperty)) := by
  simp [CallsFrom, emit, Op.call?]

@[simp] theorem callsFrom_params {pos : Option SourcePos} {names : List String} :
    CallsFrom start (emit pos (names.map .setVariable)) := by
  simp [CallsFrom, emit, Op.call?]

end CallsFrom

section Values

variable {program : Program} {phrase : Phrase} {start : Nat} {code : List Instruction}

theorem LowersValue.computes (h : LowersValue phrase start code) :
    ∀ instruction ∈ code, instruction.op.computes = true := by
  induction h with
  | literal | ident | signal => simp [Op.computes]
  | binary _ _ _ ih₁ ih₂ => simpa [or_imp, forall_and, Op.computes] using ⟨ih₁, ih₂⟩
  | call _ ih | methodCall _ ih | negate _ ih => simpa [or_imp, forall_and, Op.computes] using ih
  | group _ ih => exact ih
  | path => simp [emit, Op.computes]
  | nil => simp
  | cons _ _ ih₁ ih₂ => exact List.forall_mem_append.2 ⟨ih₁, ih₂⟩

theorem LowersValue.callsFrom (h : LowersValue phrase start code) : CallsFrom start code := by
  induction h with
  | literal | ident | signal | path => simp [Op.call?]
  | binary _ _ _ ih₁ ih₂ => simp [Op.call?, ih₁, ih₂.mono (Nat.le_add_right ..)]
  | call _ ih | methodCall _ ih | negate _ ih => simp [Op.call?, ih]
  | group _ ih => exact ih
  | nil => simp
  | cons _ _ ih₁ ih₂ => simp [ih₁, ih₂.mono (Nat.le_add_right ..)]

/-- A call comes right behind its arguments, and a jump does not lead into the midst of any. -/
structure Laid (program : Program) (index : Nat) (instruction : Instruction) : Prop where
  argued : ∀ argc restart, instruction.op.call? = some (argc, restart) →
    program.Argued argc restart index
  clear : ∀ target, instruction.op.jump? = some target → program.Clear target

theorem laid_of_plain {index : Nat} {instruction : Instruction} (hcall : instruction.op.call? = none)
    (hjump : instruction.op.jump? = none) : Laid program index instruction :=
  ⟨fun _ _ h => (nomatch hcall.symm.trans h), fun _ h => (nomatch hjump.symm.trans h)⟩

theorem laid_of_jump {index target : Nat} {instruction : Instruction}
    (hcall : instruction.op.call? = none) (hjump : instruction.op.jump? = some target)
    (h : program.Clear target) : Laid program index instruction :=
  ⟨fun _ _ h => (nomatch hcall.symm.trans h), fun _ h' => Option.some.inj (hjump.symm.trans h') ▸ h⟩

theorem laid_of_all_plain (h : ∀ instruction ∈ code, instruction.op.call? = none ∧
    instruction.op.jump? = none) : Along (Laid program) start code :=
  Along.of_get fun _ instruction hget =>
    have hplain := h instruction (List.mem_of_getElem? hget)
    laid_of_plain hplain.1 hplain.2

theorem laid_emit {ops : List Op} (pos : Option SourcePos) (h : ∀ op ∈ ops, op.call? = none ∧
    ∀ target, op.jump? = some target → program.Clear target) :
    Along (Laid program) start (emit pos ops) := by
  refine Along.of_get fun _ instruction hget => ?_
  obtain ⟨op, hop, rfl⟩ := List.mem_map.1 (List.mem_of_getElem? hget)
  obtain ⟨hcall, hjump⟩ := h op hop
  exact ⟨fun _ _ h => (nomatch hcall.symm.trans h), hjump⟩

theorem LowersValue.laid (h : LowersValue phrase start code) (hcode : program.Holds start code) :
    Along (Laid program) start code := by
  induction h with
  | literal | ident | signal => exact laid_of_all_plain (by simp [Op.call?, Op.jump?])
  | binary _ _ _ ih₁ ih₂ =>
    simp only [Program.Holds, Along.append_iff, List.length_append, ← Nat.add_assoc] at hcode ⊢
    exact ⟨⟨ih₁ hcode.1.1, ih₂ hcode.1.2⟩, laid_of_plain rfl rfl, trivial⟩
  | @call _ _ args _ pushed h ih | @methodCall _ _ _ args _ pushed h ih =>
    obtain ⟨hpushed, -⟩ := Along.append_iff.1 hcode
    refine Along.append_iff.2 ⟨ih hpushed, ⟨?_, nofun⟩, laid_of_plain rfl rfl, trivial⟩
    rintro argc restart ⟨⟩
    exact ⟨args, pushed, rfl, h, hpushed, rfl⟩
  | negate _ ih =>
    exact Along.append_iff.2 ⟨ih (Along.append_iff.1 hcode).1, laid_of_plain rfl rfl, trivial⟩
  | group _ ih => exact ih hcode
  | path => exact laid_of_all_plain (by simp [emit, Op.call?, Op.jump?])
  | nil => trivial
  | cons _ _ ih₁ ih₂ =>
    obtain ⟨hlater, hcode⟩ := Along.append_iff.1 hcode
    exact Along.append_iff.2 ⟨ih₁ hlater, ih₂ hcode⟩

end Values

section Statements

variable {program : Program} {clause : Clause} {start : Nat} {code : List Instruction}
  {entries : List (String × Nat)}

theorem Lowers.callsFrom (h : Lowers clause start code entries) : CallsFrom start code := by
  induction h with
  | @branch _ _ _ _ start _ _ test taken next _ _ failed _ _ _ _ hf hv _ _ _ ih₁ ih₂ ih₃ =>
    have hle : start ≤ failed := by omega
    simp [Op.call?, hv.callsFrom, ih₁.mono (show start ≤ start + test.length + 1 by omega),
      ih₂.mono hle, ih₃.mono (hle.trans (Nat.le_add_right _ next.length))]
  | assign hv | retValue hv | call hv | methodCall hv => simp [Op.call?, hv.callsFrom]
  | stop | nothing | wait | ret => simp [Op.call?]
  | @countLoop start _ _ _ _ _ _ stepped initial limit _ _ _ _ top _ _ _ ht _ hv₁ hv₂ hv₃ _ ih =>
    have hle : start ≤ top := by omega
    simp [Op.call?, hv₁.callsFrom, hv₂.callsFrom.mono (show start ≤ start + stepped.length + 1 by omega),
      hv₃.callsFrom.mono (show start ≤ top + 1 by omega),
      ih.mono (show start ≤ top + limit.length + 3 by omega)]
  | @eachLoop start _ _ _ _ _ _ _ _ _ _ top _ _ _ _ ht _ hv _ ih =>
    simp [Op.call?, hv.callsFrom, ih.mono (show start ≤ top + 8 by omega)]
  | @whileLoop start _ _ _ test _ _ _ _ hv _ ih =>
    simp [Op.call?, hv.callsFrom, ih.mono (show start ≤ start + test.length + 1 by omega)]
  | @procedure start _ params _ _ _ _ _ _ _ ih =>
    simp [Op.call?, ih.mono (show start ≤ start + params.length + 2 by omega), -List.map_reverse]
  | nil | noElse | noOtherwise => simp
  | cons _ _ ih₁ ih₂ => simp [ih₁, ih₂.mono (Nat.le_add_right ..)]
  | someElse _ ih => exact ih
  | someOtherwise _ ih => simp [Op.call?, ih]

theorem Program.Clear.of_holds (code : List Instruction)
    (hend : program.Clear (start + code.length)) (hcode : program.Holds start code)
    (hcalls : CallsFrom start code) : program.Clear start := by
  intro call argc restart hcall hle
  by_cases hlt : call < start + code.length
  · have hj : call - start < code.length := by omega
    have hat : program.code[start + (call - start)]? = some code[call - start] :=
      hcode.get (List.getElem?_eq_getElem hj)
    rw [Nat.add_sub_cancel' hle] at hat
    rw [Program.callAt?, hat] at hcall
    exact hcalls _ (List.getElem_mem hj) argc restart hcall
  · exact (Nat.le_add_right start code.length).trans (hend call argc restart hcall (Nat.le_of_not_lt hlt))

theorem Program.Clear.of_succ {index : Nat} {instruction : Instruction}
    (h : program.Clear (index + 1)) (hat : program.code[index]? = some instruction)
    (hcall : instruction.op.call? = none) : program.Clear index :=
  h.of_holds [instruction] ⟨hat, trivial⟩ (by simp [hcall])

theorem Lowers.laid (h : Lowers clause start code entries) (hcode : program.Holds start code)
    (hend : program.Clear (start + code.length))
    (hexit : ∀ exit, clause.exit? = some exit → program.Clear exit) :
    Along (Laid program) start code := by
  induction h with
  | @branch exit? _ _ pos start _ _ test taken next last exit failed _ _ _ he hf hv h₁ h₂ h₃
      ih₁ ih₂ ih₃ =>
    have hexit' := (Lowers.branch he hf hv h₁ h₂ h₃).exit_of_branch he hend hexit
    rw [length_branch hf] at hend
    simp [Program.Holds, ← hf] at hcode
    obtain ⟨htest, -, htaken, hjump, hnext, hlast⟩ := hcode
    have hchain (e : Nat) (h : some exit = some e) : program.Clear e := Option.some.inj h ▸ hexit'
    have hclear := hend.of_holds last hlast h₃.callsFrom
    have hclear' := hclear.of_holds next hnext h₂.callsFrom
    have hclear'' := (hf ▸ hclear').of_succ hjump rfl
    simp [← hf]
    exact ⟨hv.laid htest, laid_of_jump rfl rfl hclear', ih₁ htaken hclear'' (by simp),
      laid_of_jump rfl rfl hexit', ih₂ hnext hclear hchain, ih₃ hlast hend hchain⟩
  | assign hv | retValue hv =>
    exact Along.append_iff.2 ⟨hv.laid (Along.append_iff.1 hcode).1, laid_of_plain rfl rfl, trivial⟩
  | @call _ _ args _ pushed hv | @methodCall _ _ _ args _ pushed hv =>
    obtain ⟨hpushed, -⟩ := Along.append_iff.1 hcode
    refine Along.append_iff.2 ⟨hv.laid hpushed, ⟨?_, by rintro _ ⟨⟩⟩, trivial⟩
    rintro argc restart ⟨⟩
    exact ⟨args, pushed, rfl, hv, hpushed, rfl⟩
  | stop | nothing | wait | ret => exact ⟨laid_of_plain rfl rfl, trivial⟩
  | @countLoop start _ _ _ _ _ pos stepped initial limit inside _ _ _ top after _ _ ht ha hv₁ hv₂
      hv₃ h ih =>
    have hstop : start + (stepped.length + (initial.length + (limit.length +
        (inside.length + 1 + 1 + 1 + 1 + 1 + 1 + 1) + 1 + 1) + 1)) = after := by omega
    have hinside : program.Holds (top + limit.length + 3) inside := hcode.middle (by simp; omega)
    have hclosed : program.Holds (top + limit.length + 3 + inside.length) (emit pos _) :=
      hcode.last (by simp; omega)
    simp [Program.Holds, ← ht] at hcode
    simp [hstop] at hend
    obtain ⟨hstepped, -, hinitial, -, hpush, hlimit, hle, hcond, -⟩ := hcode
    have hclear : program.Clear (top + limit.length + 3 + inside.length) :=
      (ha ▸ hend).of_holds _ hclosed (by simp [Op.call?])
    have hbegin := hclear.of_holds inside hinside h.callsFrom
    rw [show top + limit.length + 3 = top + 1 + limit.length + 1 + 1 by omega] at hbegin
    have htest := (hbegin.of_succ hcond rfl).of_succ hle rfl
    have htop := (htest.of_holds limit hlimit hv₃.callsFrom).of_succ hpush rfl
    refine (hv₁.laid hstepped).append rfl (laid_emit pos ?_)
      |>.append (by simp; omega) (hv₂.laid hinitial) |>.append rfl (laid_emit pos ?_)
      |>.append (by simp; omega) (hv₃.laid hlimit) |>.append rfl (laid_emit pos ?_)
      |>.append (by simp; omega) (ih hinside hclear (by simp)) |>.append rfl (laid_emit pos ?_)
    all_goals simp [Op.call?, Op.jump?, hend, htop]
  | @eachLoop start _ _ _ pos source inside _ _ _ _ top after _ _ _ ht ha hv h ih =>
    have hstop : start + (source.length + (inside.length + 19)) = after := by omega
    obtain ⟨hsource, hopened⟩ : program.Holds start source ∧ program.Holds (start + source.length)
        (emit pos [_, _, _, _, _, _] ++ emit pos [_, _, _, _, _, _, _, _]) :=
      Along.append_iff.1 (Along.append_iff.1 (Along.append_iff.1 hcode).1).1
    have htested : program.Holds top (emit pos _) := hopened.last ht.symm
    have hinside : program.Holds (top + 8) inside := hcode.middle (by simp; omega)
    have hclosed : program.Holds (top + 8 + inside.length) (emit pos _) :=
      hcode.last (by simp; omega)
    simp [Nat.add_assoc, hstop] at hend
    have hclear : program.Clear (top + 8 + inside.length) :=
      (ha ▸ hend).of_holds _ hclosed (by simp [Op.call?])
    have htop : program.Clear top :=
      (hclear.of_holds inside hinside h.callsFrom).of_holds _ htested (by simp [Op.call?])
    refine (hv.laid hsource).append rfl (laid_emit pos ?_)
      |>.append (by simp; omega) (ih hinside hclear (by simp)) |>.append rfl (laid_emit pos ?_)
    all_goals simp [Op.call?, Op.jump?, hend, htop]
  | @whileLoop start _ _ pos test inside _ after ha hv h ih =>
    have hstart : program.Clear start := hend.of_holds _ hcode (Lowers.whileLoop ha hv h).callsFrom
    have hstop : start + (test ++ emit pos [.jumpUnless after] ++ inside ++
        emit pos [.jump start]).length = after := by simp; omega
    rw [hstop] at hend
    simp [Program.Holds] at hcode
    obtain ⟨htest, -, hinside, hjump⟩ := hcode
    simp
    exact ⟨hv.laid htest, laid_of_jump rfl rfl hend, ih hinside ((ha ▸ hend).of_succ hjump rfl) (by simp),
      laid_of_jump rfl rfl hstart⟩
  | @procedure start _ params _ pos inside _ after ha h ih =>
    have hbody : start + 1 + 1 + params.length = start + params.length + 2 := by omega
    have hstop : start + (params.length + (inside.length + 1) + 1 + 1) = after := by omega
    simp [Program.Holds, hbody] at hcode
    simp [hstop] at hend
    obtain ⟨-, -, -, hinside, hret⟩ := hcode
    simp [hbody]
    exact ⟨laid_of_jump rfl rfl hend, laid_of_plain rfl rfl,
      laid_of_all_plain (by simp [emit, Op.call?, Op.jump?]),
      ih hinside ((ha ▸ hend).of_succ hret rfl) (by simp), laid_of_plain rfl rfl⟩
  | nil | noElse | noOtherwise => trivial
  | cons h₁ h₂ ih₁ ih₂ =>
    obtain ⟨hfirst, hrest⟩ := Along.append_iff.1 hcode
    rw [List.length_append, ← Nat.add_assoc] at hend
    have hmid := hend.of_holds _ hrest h₂.callsFrom
    exact Along.append_iff.2 ⟨ih₁ hfirst hmid (by simp), ih₂ hrest hend (by simp)⟩
  | someElse _ ih => exact ih hcode hend hexit
  | someOtherwise h ih =>
    obtain ⟨hbody, hjump, -⟩ := Along.append_iff.1 hcode
    rw [List.length_append, ← Nat.add_assoc] at hend
    exact Along.append_iff.2 ⟨ih hbody (hend.of_succ hjump rfl) (by simp),
      laid_of_jump rfl rfl (hexit _ rfl), trivial⟩

end Statements

def Program.WellLaid (program : Program) : Prop :=
  ∀ index instruction, program.code[index]? = some instruction → Laid program index instruction

theorem Program.clear_size (program : Program) : program.Clear program.size := by
  intro call argc restart hcall hle
  rw [callAt?, Array.getElem?_eq_none hle] at hcall
  cases hcall

theorem Program.wellLaid_of_along {code : List Instruction} {procedures : Table Nat}
    (h : Along (Laid ⟨code.toArray, procedures⟩) 0 code) : WellLaid ⟨code.toArray, procedures⟩ := by
  intro index instruction hat
  simpa using h.get (List.getElem?_toArray ▸ hat)

theorem Program.wellLaid {tree : Node} {before : List Node} {program : Program}
    (h : tree.compile before = .ok program ∨ tree.compileExpression before = .ok program) :
    program.WellLaid := by
  obtain h | h := h
  · obtain ⟨code, entries, hlowers, rfl⟩ := Lowers.of_compile h
    refine wellLaid_of_along (hlowers.laid (holds_toArray _ _) ?_ (by simp))
    simpa [size] using clear_size ⟨code.toArray, Table.ofPairs entries⟩
  · obtain ⟨code, entries, value, hlowers, hvalue, rfl⟩ := Lowers.of_compileExpression h
    have hend := clear_size ⟨(code ++ value).toArray, Table.ofPairs entries⟩
    rw [size, List.size_toArray, List.length_append] at hend
    obtain ⟨hcode, hrest⟩ := Along.append_iff.1 (holds_toArray (code ++ value) (Table.ofPairs entries))
    rw [Nat.zero_add] at hrest
    have hmid := hend.of_holds value hrest hvalue.callsFrom
    refine wellLaid_of_along (Along.append_iff.2 ⟨hlowers.laid hcode ?_ (by simp), ?_⟩)
    · rwa [Nat.zero_add]
    · rw [Nat.zero_add]
      exact hvalue.laid hrest

section Heights

variable {shape : Nat → Shape} {size start base : Nat} {code : List Instruction}

def Above (shape : Nat → Shape) (base start : Nat) (code : List Instruction) : Prop :=
  Along (fun i instruction => base + instruction.op.needs ≤ (shape i).operands) start code

theorem Above.mono (h : Above shape base start code) {lower : Nat} (hle : lower ≤ base) :
    Above shape lower start code :=
  Along.mono h fun _ _ hneeds => (Nat.add_le_add_right hle _).trans hneeds

theorem above_properties {pos : Option SourcePos} {names : List String}
    (hfit : AllFit shape size start (emit pos (names.map .pushProperty)))
    (hstart : (shape start).operands = base + 1) :
    Above shape base start (emit pos (names.map .pushProperty)) ∧
      (shape (start + names.length)).operands = base + 1 := by
  induction names generalizing start with
  | nil => exact ⟨trivial, hstart⟩
  | cons name rest ih =>
    obtain ⟨⟨hnext, -⟩, hfit⟩ := hfit
    obtain ⟨habove, hend⟩ := ih hfit (hnext ▸ hstart)
    refine ⟨⟨Nat.le_of_eq hstart.symm, habove⟩, ?_⟩
    rwa [List.length_cons, Nat.add_comm rest.length, ← Nat.add_assoc]

theorem Op.Fits.operands_succ {index : Nat} {op : Op} (h : op.Fits shape size index)
    (hop : op.computes = true) : (shape (index + 1)).operands + op.needs =
      (shape index).operands + if op.call?.isSome then 0 else 1 := by
  cases op with
  | pushValue | pushVariable | pushResult => exact congrArg Shape.operands h
  | operate | callBuiltin =>
    obtain ⟨lower, hhere, hnext⟩ := h
    rw [hhere, hnext]
    exact Nat.add_right_comm ..
  | call | callMethod => exact (congrArg Shape.operands h.1).symm
  | pushProperty | invert => exact congrArg (·.operands + 1) h.1
  | _ => cases hop

theorem LowersValue.above {phrase : Phrase} (h : LowersValue phrase start code)
    (hfit : AllFit shape size start code) (hstart : (shape start).operands = base) :
    Above shape base start code ∧ (shape (start + code.length)).operands = base + phrase.count := by
  induction h generalizing base with
  | literal | ident =>
    exact ⟨⟨Nat.le_of_eq hstart.symm, trivial⟩, hstart ▸ hfit.1.operands_succ rfl⟩
  | @signal start =>
    obtain ⟨hpush, hcall, -⟩ := hfit
    have hpush : (shape (start + 1)).operands = base + 1 := hstart ▸ hpush.operands_succ rfl
    have hcall : (shape (start + 2)).operands + 1 = base + 1 + 1 := hpush ▸ hcall.operands_succ rfl
    exact ⟨⟨Nat.le_of_eq hstart.symm, Nat.le_of_eq hpush.symm, trivial⟩, Nat.succ.inj hcall⟩
  | @binary start _ _ _ _ first second h h₁ h₂ ih₁ ih₂ =>
    simp only [AllFit, Along.append_iff, List.length_append, ← Nat.add_assoc] at hfit
    obtain ⟨⟨hfirst, hsecond⟩, hop, -⟩ := hfit
    obtain ⟨habove₁, hmid⟩ := ih₁ hfirst hstart
    obtain ⟨habove₂, htop⟩ := ih₂ hsecond hmid
    have hend : (shape (start + first.length + second.length + 1)).operands + 2 = base + 1 + 1 + 1 :=
      htop ▸ hop.operands_succ rfl
    refine ⟨Along.append_iff.2 ⟨Along.append_iff.2 ⟨habove₁, habove₂.mono (Nat.le_succ base)⟩, ?_⟩, ?_⟩
    · rw [List.length_append, ← Nat.add_assoc]
      exact ⟨Nat.le_of_eq htop.symm, trivial⟩
    · rw [List.length_append, List.length_append, ← Nat.add_assoc, ← Nat.add_assoc]
      exact Nat.add_right_cancel hend
  | @call start _ args _ pushed h ih | @methodCall start _ _ args _ pushed h ih =>
    obtain ⟨hpushed, hcall, hresult, -⟩ := Along.append_iff.1 hfit
    obtain ⟨habove, htop⟩ := ih hpushed hstart
    have hback : (shape (start + pushed.length + 1)).operands + args.length = base + args.length :=
      htop ▸ hcall.operands_succ rfl
    have hback := Nat.add_right_cancel hback
    have hend : (shape (start + pushed.length + 1 + 1)).operands = base + 1 :=
      hback ▸ hresult.operands_succ rfl
    refine ⟨Along.append_iff.2 ⟨habove, Nat.le_of_eq htop.symm, Nat.le_of_eq hback.symm, trivial⟩, ?_⟩
    rw [List.length_append, ← Nat.add_assoc]
    exact hend
  | group _ ih => exact ih hfit hstart
  | @negate start _ _ code h ih =>
    obtain ⟨hcode, hinvert, -⟩ := Along.append_iff.1 hfit
    obtain ⟨habove, htop⟩ := ih hcode hstart
    have hend : (shape (start + code.length + 1)).operands + 1 = base + 1 + 1 :=
      htop ▸ hinvert.operands_succ rfl
    refine ⟨Along.append_iff.2 ⟨habove, Nat.le_of_eq htop.symm, trivial⟩, ?_⟩
    rw [List.length_append, ← Nat.add_assoc]
    exact Nat.add_right_cancel hend
  | @path start names properties object pos h =>
    have hnext : (shape (start + 1)).operands = base + 1 := hstart ▸ hfit.1.operands_succ rfl
    obtain ⟨habove, hend⟩ := above_properties hfit.2 hnext
    refine ⟨⟨Nat.le_of_eq hstart.symm, habove⟩, ?_⟩
    rw [length_emit, List.length_cons, List.length_map, Nat.add_comm properties.length,
      ← Nat.add_assoc]
    exact hend
  | nil => exact ⟨trivial, hstart⟩
  | @cons start arg rest later code h₁ h₂ ih₁ ih₂ =>
    obtain ⟨hlater, hcode⟩ := Along.append_iff.1 hfit
    obtain ⟨habove₁, hmid⟩ := ih₁ hlater hstart
    obtain ⟨habove₂, hend⟩ := ih₂ hcode hmid
    refine ⟨Along.append_iff.2 ⟨habove₁, habove₂.mono (Nat.le_add_right ..)⟩, ?_⟩
    rw [List.length_append, ← Nat.add_assoc]
    exact hend

end Heights

section Calls

variable {program : Program} {shape : Nat → Shape} {table : Table Procedure}
  {call argc restart index : Nat}

theorem Program.exists_callAt? (h : program.callAt? call = some (argc, restart)) :
    ∃ instruction, program.code[call]? = some instruction ∧
      instruction.op.call? = some (argc, restart) :=
  Option.bind_eq_some_iff.1 h

theorem Compiled.fits_at (hc : Compiled program shape table) {instruction : Instruction}
    (h : program.code[index]? = some instruction) :
    instruction.op.Fits shape program.size index := by
  simpa using hc.fits.get (Array.getElem?_toList.trans h)

theorem Compiled.operands_callAt? (hc : Compiled program shape table)
    (h : program.callAt? call = some (argc, restart)) :
    (shape call).operands = (shape restart).operands + argc := by
  obtain ⟨instruction, hat, hcall⟩ := Program.exists_callAt? h
  have hfit := hc.fits_at hat
  obtain ⟨op, pos⟩ := instruction
  cases op with
  | call | callMethod =>
    cases hcall
    rw [hfit.1, hfit.2.1]
    rfl
  | _ => cases hcall

theorem Program.WellLaid.argued (hl : program.WellLaid)
    (h : program.callAt? call = some (argc, restart)) : program.Argued argc restart call := by
  obtain ⟨instruction, hat, hcall⟩ := exists_callAt? h
  exact (hl call instruction hat).argued argc restart hcall

structure Argument (program : Program) (shape : Nat → Shape) (restart index : Nat)
    (instruction : Instruction) : Prop where
  at_index : program.code[index]? = some instruction
  computes : instruction.op.computes = true
  above : (shape restart).operands + instruction.op.needs ≤ (shape index).operands
  calls : ∀ argc other, instruction.op.call? = some (argc, other) → restart ≤ other

theorem Program.WellLaid.exists_argument (hl : program.WellLaid) (hc : Compiled program shape table)
    (h : program.callAt? call = some (argc, restart)) (hle : restart ≤ index) (hlt : index < call) :
    ∃ instruction, Argument program shape restart index instruction := by
  obtain ⟨args, pushed, -, hvalue, hholds, rfl⟩ := hl.argued h
  have hfit : AllFit shape program.size restart pushed :=
    Along.of_get fun i instruction hget => hc.fits_at (hholds.get hget)
  have hi : index - restart < pushed.length := by omega
  have hget := List.getElem?_eq_getElem hi
  have hat := hholds.get hget
  have habove := (hvalue.above hfit rfl).1.get hget
  rw [Nat.add_sub_cancel' hle] at hat habove
  have hmem := List.getElem_mem hi
  exact ⟨_, hat, hvalue.computes _ hmem, habove, hvalue.callsFrom _ hmem⟩

theorem Program.WellLaid.restart_le (hl : program.WellLaid)
    (h : program.callAt? call = some (argc, restart)) : restart ≤ call := by
  obtain ⟨_, _, -, -, -, rfl⟩ := hl.argued h
  exact Nat.le_add_right ..

end Calls

end DurableScript
