import DurableScript.Proofs.Rewinding

/-!
The bodies of procedures in compiled code. Main statement: `procedure_bodies_are_closed`.
-/

namespace DurableScript

open Node

structure Region where
  first : Nat
  last : Nat

namespace Region

variable {region : Region}

def Contains (region : Region) (index : Nat) : Prop := region.first ≤ index ∧ index ≤ region.last

instance (region : Region) (index : Nat) : Decidable (region.Contains index) :=
  inferInstanceAs (Decidable (_ ∧ _))

def Between (region : Region) (low high : Nat) : Prop := low < region.first ∧ region.last < high

theorem Between.mono {low high low' high' : Nat} (h : region.Between low high) (hlow : low' ≤ low)
    (hhigh : high ≤ high') : region.Between low' high' :=
  ⟨Nat.lt_of_le_of_lt hlow h.1, Nat.lt_of_lt_of_le h.2 hhigh⟩

/-- The instruction leads neither into the region nor out of it. -/
def Respected (region : Region) (index : Nat) (instruction : Instruction) : Prop :=
  ∀ target ∈ instruction.op.targets, (region.Contains target ↔ region.Contains index)

end Region

def Leads (P : Nat → Prop) (code : List Instruction) : Prop :=
  ∀ instruction ∈ code, ∀ target ∈ instruction.op.targets, P target

namespace Leads

variable {P Q : Nat → Prop} {code later : List Instruction}

@[simp] theorem nil : Leads P [] := List.forall_mem_nil _

@[simp] theorem cons_iff {instruction : Instruction} : Leads P (instruction :: code) ↔
    (∀ target ∈ instruction.op.targets, P target) ∧ Leads P code := List.forall_mem_cons

@[simp] theorem append_iff : Leads P (code ++ later) ↔ Leads P code ∧ Leads P later :=
  List.forall_mem_append

theorem append (h : Leads P code) (h' : Leads P later) : Leads P (code ++ later) :=
  append_iff.2 ⟨h, h'⟩

theorem mono (h : Leads P code) (hPQ : ∀ target, P target → Q target) : Leads Q code :=
  fun instruction hmem target htarget => hPQ target (h instruction hmem target htarget)

theorem within {low high : Nat}
    (h : Leads (fun target => (low ≤ target ∧ target ≤ high) ∨ none = some target) code) :
    Leads (fun target => low ≤ target ∧ target ≤ high) code :=
  h.mono fun _ h => h.resolve_right nofun

theorem widen {low high : Nat} (h : Leads (fun target => low ≤ target ∧ target ≤ high) code)
    {low' high' : Nat} (hlow : low' ≤ low) (hhigh : high ≤ high') :
    Leads (fun target => (low' ≤ target ∧ target ≤ high') ∨ P target) code :=
  h.mono fun _ h => .inl ⟨hlow.trans h.1, h.2.trans hhigh⟩

@[simp] theorem params (pos : Option SourcePos) (names : List String) :
    Leads P (emit pos (names.map .setVariable)) := by
  simp [Leads, emit, Op.targets]

end Leads

theorem Op.exists_call?_of_computes {op : Op} (h : op.computes = true) {target : Nat}
    (htarget : target ∈ op.targets) : ∃ argc, op.call? = some (argc, target) := by
  cases op with
  | call | callMethod => exact ⟨_, by rw [List.mem_singleton.1 htarget, call?]⟩
  | jump | jumpUnless => cases h
  | _ => cases htarget

theorem Op.mem_targets_of_call? {op : Op} {argc restart : Nat}
    (h : op.call? = some (argc, restart)) : restart ∈ op.targets := by
  cases op <;> cases h <;> exact List.mem_singleton_self _

section Leads

variable {start : Nat} {code : List Instruction} {entries : List (String × Nat)}

theorem LowersValue.leads {phrase : Phrase} (h : LowersValue phrase start code) :
    Leads (fun target => start ≤ target ∧ target ≤ start + code.length) code := by
  intro instruction hmem target htarget
  obtain ⟨argc, hcall⟩ := Op.exists_call?_of_computes (h.computes instruction hmem) htarget
  exact ⟨h.callsFrom instruction hmem argc target hcall, h.countsWithin (Nat.le_refl _) instruction
    hmem target (instruction.op.targets_subset_counts htarget)⟩

theorem Lowers.leads {clause : Clause} (h : Lowers clause start code entries) :
    Leads (fun target => (start ≤ target ∧ target ≤ start + code.length) ∨ clause.exit? = some target)
      code := by
  induction h with
  | @branch exit? _ _ pos start _ _ test taken next last exit failed _ _ _ hexit hfailed hc h₁ h₂ h₃
      ih₁ ih₂ ih₃ =>
    have h := Lowers.branch hexit hfailed hc h₁ h₂ h₃
    have hleave := h.exit_of_branch (P := fun target =>
      (start ≤ target ∧ target ≤ start + _) ∨ exit? = some target) hexit
      (.inl ⟨Nat.le_add_right .., Nat.le_refl _⟩) fun _ => .inr
    simp only [List.length_append, length_emit, List.length_cons, List.length_nil] at hleave ⊢
    refine (hc.leads.widen (by omega) (by omega)).append ?failed
      |>.append (ih₁.within.widen (by omega) (by omega)) |>.append ?exit
      |>.append (ih₂.mono ?next) |>.append (ih₃.mono ?last)
    case failed =>
      simp [Op.targets]
      omega
    case exit => simpa [Op.targets] using hleave
    case next | last =>
      rintro target (h | h)
      · exact .inl (by omega)
      · cases h
        exact hleave
  | assign hv | retValue hv | call hv | methodCall hv =>
    refine .append (hv.leads.widen (Nat.le_refl _) (by simp)) ?_
    simp [Op.targets]
  | stop | nothing | wait | ret => simp [Op.targets]
  | countLoop _ _ htop hafter hs hf hl _ ih =>
    simp only [List.length_append, length_emit, List.length_cons, List.length_nil]
    refine (hs.leads.widen (by omega) (by omega)).append ?_
      |>.append (hf.leads.widen (by omega) (by omega)) |>.append ?_
      |>.append (hl.leads.widen (by omega) (by omega)) |>.append ?_
      |>.append (ih.within.widen (by omega) (by omega)) |>.append ?_
    all_goals simp [Op.targets] <;> omega
  | eachLoop _ _ _ htop hafter hv _ ih | whileLoop hafter hv _ ih =>
    simp only [List.length_append, length_emit, List.length_cons, List.length_nil]
    refine (hv.leads.widen (by omega) (by omega)).append ?_
      |>.append (ih.within.widen (by omega) (by omega)) |>.append ?_
    all_goals simp [Op.targets] <;> omega
  | procedure hafter _ ih =>
    simp only [List.length_append, length_emit, List.length_cons, List.length_nil, List.length_map,
      List.length_reverse]
    refine .append (.append ?_ (ih.within.widen (by omega) (by omega))) ?_
    all_goals simp [Op.targets, -List.map_reverse] <;> omega
  | nil | noElse | noOtherwise => exact .nil
  | cons _ _ ih₁ ih₂ =>
    rw [List.length_append]
    exact .append (ih₁.within.widen (by omega) (by omega)) (ih₂.within.widen (by omega) (by omega))
  | someElse _ ih => exact ih
  | someOtherwise _ ih =>
    refine .append (ih.within.widen (Nat.le_refl _) (by simp)) ?_
    simp [Op.targets]

end Leads

def Procedure.region (procedure : Procedure) (entry : Nat) : Region :=
  ⟨entry, entry + procedure.params.length + 1 + statementsSize procedure.body⟩

structure Procedure.LaidAt (program : Program) (procedure : Procedure) (entry : Nat) : Prop where
  skipped : ∃ start, entry = start + 1 ∧ program.code[start]? =
    some ⟨.jump ((procedure.region entry).last + 1), procedure.pos⟩
  opened : program.code[entry]? = some ⟨.expectStack procedure.params.length, procedure.pos⟩
  closed : program.code[(procedure.region entry).last]? = some ⟨.ret false, procedure.pos⟩

structure DeclaredIn (program : Program) (start : Nat) (code : List Instruction)
    (declared : String × Procedure) (entry : String × Nat) : Prop where
  name : declared.1 = entry.1
  laid : declared.2.LaidAt program entry.2
  between : (declared.2.region entry.2).Between start (start + code.length)
  respected : Along (declared.2.region entry.2).Respected start code

section Bodies

variable {program : Program} {start : Nat} {code : List Instruction} {entries : List (String × Nat)}
  {declared : String × Procedure} {entry : String × Nat}

theorem Region.respected_of_leads {region : Region} {low high : Nat}
    (hbetween : region.Between low high)
    (h : Leads (fun target => target ≤ low ∨ high ≤ target) code)
    (haway : start + code.length ≤ low ∨ high ≤ start) : Along region.Respected start code := by
  refine Along.of_get fun i instruction hi target htarget => ?_
  have hlt : i < code.length := (List.getElem?_eq_some_iff.1 hi).1
  have htarget := h instruction (List.mem_of_getElem? hi) target htarget
  simp only [Contains, Between] at hbetween ⊢
  omega

theorem Region.respected_of_contains {region : Region} (h : Leads region.Contains code)
    (hfirst : region.first ≤ start) (hlast : start + code.length ≤ region.last + 1) :
    Along region.Respected start code := by
  refine Along.of_get fun i instruction hi target htarget => ?_
  have hlt : i < code.length := (List.getElem?_eq_some_iff.1 hi).1
  exact iff_of_true (h instruction (List.mem_of_getElem? hi) target htarget)
    ⟨by omega, by omega⟩

theorem DeclaredIn.around {mid : Nat} {before inner after : List Instruction}
    (h : DeclaredIn program mid inner declared entry) (hmid : mid = start + before.length)
    (hbefore : Leads (fun target => target ≤ mid ∨ mid + inner.length ≤ target) before)
    (hafter : Leads (fun target => target ≤ mid ∨ mid + inner.length ≤ target) after) :
    DeclaredIn program start (before ++ inner ++ after) declared entry := by
  refine ⟨h.name, h.laid, h.between.mono (by omega) (by simp; omega), ?_⟩
  rw [Along.append_iff, Along.append_iff, ← hmid]
  refine ⟨⟨?_, h.respected⟩, ?_⟩
  · exact Region.respected_of_leads h.between hbefore (.inl (Nat.le_of_eq hmid.symm))
  · exact Region.respected_of_leads h.between hafter (.inr (by simp; omega))

theorem DeclaredIn.followed (h : DeclaredIn program start code declared entry)
    {after : List Instruction}
    (hafter : Leads (fun target => target ≤ start ∨ start + code.length ≤ target) after) :
    DeclaredIn program start (code ++ after) declared entry :=
  h.around (show start = start + ([] : List Instruction).length from rfl) .nil hafter

theorem DeclaredIn.preceded {mid : Nat} (h : DeclaredIn program mid code declared entry)
    {before : List Instruction} (hmid : mid = start + before.length)
    (hbefore : Leads (fun target => target ≤ mid ∨ mid + code.length ≤ target) before) :
    DeclaredIn program start (before ++ code) declared entry := by
  rw [← List.append_nil (before ++ code)]
  exact h.around hmid hbefore .nil

theorem Lowers.declaredIn {clause : Clause} (h : Lowers clause start code entries)
    (hcode : program.Holds start code) (hexit : ∀ exit ∈ clause.exit?, start + code.length ≤ exit) :
    List.Forall₂ (DeclaredIn program start code) clause.procedures entries := by
  induction h with
  | @branch exit? _ _ pos start _ _ test taken next last exit failed _ _ _ he hf hc h₁ h₂ h₃
      ih₁ ih₂ ih₃ =>
    have hend : failed + next.length + last.length ≤ exit := by
      rw [← length_branch hf]
      exact (Lowers.branch he hf hc h₁ h₂ h₃).exit_of_branch he (Nat.le_refl _) hexit
    simp [Program.Holds, ← hf] at hcode
    have htaken := ih₁ hcode.2.2.1 (by simp)
    have hnext := ih₂ hcode.2.2.2.2.1 (by simp; omega)
    have hlast := ih₃ hcode.2.2.2.2.2 (by simp; omega)
    have hexit₂ := h₂.leads
    have hexit₃ := h₃.leads
    simp only [Clause.exit?, Option.some.injEq] at hexit₂ hexit₃
    simp only [Clause.procedures, procedures]
    refine List.rel_append (List.rel_append (htaken.imp fun _ _ h => ?_) (hnext.imp fun _ _ h => ?_))
      (hlast.imp fun _ _ h => ?_)
    · rw [List.append_assoc _ next, List.append_assoc _ (emit _ _)]
      refine h.around (by simp; omega) (.append (hc.leads.mono fun _ h => by omega) ?_)
        (.append ?_ (.append (hexit₂.mono fun _ h => by omega) (hexit₃.mono fun _ h => by omega)))
      all_goals
        simp [Op.targets]
        omega
    · refine h.around (by simp; omega) ?_ (hexit₃.mono fun _ h => by omega)
      refine (hc.leads.mono fun _ h => by omega).append ?_
        |>.append (h₁.leads.within.mono fun _ h => by omega) |>.append ?_
      all_goals simp [Op.targets] <;> omega
    · refine h.preceded (by simp; omega) ?_
      refine (hc.leads.mono fun _ h => by omega).append ?_
        |>.append (h₁.leads.within.mono fun _ h => by omega) |>.append ?_
        |>.append (hexit₂.mono fun _ h => by omega)
      all_goals simp [Op.targets] <;> omega
  | assign | call | methodCall | stop | nothing | wait | ret | retValue => simp [procedures]
  | @countLoop start _ _ _ _ _ pos stepped initial limit inner _ _ _ top after _ _ ht ha hv₁ hv₂ hv₃
      h ih =>
    have hinner : program.Holds (top + limit.length + 3) inner := hcode.middle (by simp; omega)
    simp only [Clause.procedures, procedures]
    refine (ih hinner (by simp)).imp fun _ _ h => h.around (by simp; omega) ?_ ?_
    · refine (hv₁.leads.mono fun _ h => by omega).append ?_
        |>.append (hv₂.leads.mono fun _ h => by omega) |>.append ?_
        |>.append (hv₃.leads.mono fun _ h => by omega) |>.append ?_
      all_goals simp [Op.targets] <;> omega
    · simp [Op.targets]
      omega
  | @eachLoop start items _ _ pos source inside _ _ _ _ top after _ _ _ ht ha hv h ih =>
    have hinner : program.Holds (top + 8) inside := hcode.middle (by simp; omega)
    simp only [Clause.procedures, procedures]
    refine (ih hinner (by simp)).imp fun _ _ h => h.around (by simp; omega) ?_ ?_
    · refine .append (hv.leads.mono fun _ h => by omega) ?_
      simp [Op.targets]
      omega
    · simp [Op.targets]
  | @whileLoop start _ _ pos test inside _ after ha hv h ih =>
    have hinner : program.Holds (start + test.length + 1) inside := hcode.middle (by simp; omega)
    simp only [Clause.procedures, procedures]
    refine (ih hinner (by simp)).imp fun _ _ h => h.around (by simp; omega) ?_ ?_
    · refine .append (hv.leads.mono fun _ h => by omega) ?_
      simp [Op.targets]
      omega
    · simp [Op.targets]
      omega
  | @procedure start name params body pos inside nested after ha h ih =>
    have hbody : start + 1 + 1 + params.length = start + params.length + 2 := by omega
    simp [Program.Holds, hbody] at hcode
    simp only [Clause.procedures, procedures]
    have hsize : inside.length = statementsSize body := h.length_eq
    have hlast : start + 1 + params.length + 1 + statementsSize body =
        start + params.length + 2 + inside.length := by omega
    obtain ⟨hjump, hexpect, -, hcode, hreturn⟩ := hcode
    refine .cons ⟨rfl, ⟨⟨start, rfl, ?_⟩, hexpect, ?_⟩, ?_, ?_⟩
      ((ih hcode (by simp)).imp fun _ _ h => h.around (by simp; omega) ?_ ?_)
    · simp only [Procedure.region, hlast]
      rw [hjump, ha]
    · simp only [Procedure.region, hlast]
      exact hreturn
    · simp [Region.Between, Procedure.region]
      omega
    · simp only [emit_cons, List.cons_append]
      refine Along.cons_iff.2 ⟨?_, Region.respected_of_contains ?_ (Nat.le_refl _) ?_⟩
      · simp [Region.Respected, Region.Contains, Procedure.region, Op.targets]
        omega
      · simp [Op.targets, -List.map_reverse]
        refine h.leads.within.mono fun _ h => ?_
        simp only [Region.Contains, Procedure.region]
        omega
      · simp [Procedure.region]
        omega
    · simp [Op.targets, -List.map_reverse]
      omega
    · simp [Op.targets]
  | nil => simp [proceduresIn]
  | cons h₁ h₂ ih₁ ih₂ =>
    have hcode := Along.append_iff.1 hcode
    simp only [Clause.procedures, proceduresIn]
    refine List.rel_append ((ih₁ hcode.1 (by simp)).imp fun _ _ h => ?_)
      ((ih₂ hcode.2 (by simp)).imp fun _ _ h => ?_)
    · exact h.followed (h₂.leads.within.mono fun _ h => by omega)
    · exact h.preceded rfl (h₁.leads.within.mono fun _ h => by omega)
  | noElse | noOtherwise => simp [orElseProcedures, otherwiseProcedures]
  | someElse _ ih =>
    simp only [Clause.procedures, orElseProcedures]
    exact ih hcode hexit
  | someOtherwise h ih =>
    simp only [Clause.procedures, otherwiseProcedures]
    refine (ih (Along.append_iff.1 hcode).1 (by simp)).imp fun _ _ h => ?_
    refine h.followed ?_
    have hle := hexit _ rfl
    simp at hle
    simp [Op.targets]
    omega

end Bodies

/-- A procedure at its entry: no jump leads into its code or out of it. -/
structure Procedure.Enclosed (program : Program) (procedure : Procedure) (entry : Nat) : Prop
    extends Procedure.LaidAt program procedure entry where
  respected : ∀ index instruction, program.code[index]? = some instruction →
    (procedure.region entry).Respected index instruction

def Node.lastDeclared? (nodes : List Node) (name : String) : Option Procedure :=
  ((proceduresIn nodes).reverse.find? fun declared => declared.1 = name).map Prod.snd

theorem Lowers.enclosed {nodes : List Node} {code : List Instruction}
    {entries : List (String × Nat)} (h : Lowers (.many nodes) 0 code entries) :
    List.Forall₂ (fun declared entry => declared.1 = entry.1 ∧
      declared.2.Enclosed ⟨code.toArray, Table.ofPairs entries⟩ entry.2) (proceduresIn nodes)
      entries := by
  have hcode := Program.holds_toArray code (Table.ofPairs entries)
  refine (h.declaredIn hcode nofun).imp fun declared entry h => ?_
  refine ⟨h.name, h.laid, fun index instruction hi => ?_⟩
  have hrespected := h.respected.get (by simpa using hi)
  rwa [Nat.zero_add] at hrespected

def Execution.inside (region : Region) (execution : Execution) : List Bool :=
  execution.levels.map fun level => region.Contains level.index

/-- A frame stays in the region or out of it. A call opens another one at the entry of a procedure, a
return leaves one, and a return of the script itself goes to the end. -/
inductive StaysApart (region : Region) (op : Op) (execution next : Execution) : Prop where
  | stay : next.inside region = execution.inside region → StaysApart region op execution next
  | call {name : String} {argc restart : Nat} : op = .call name argc restart →
      execution.program.entry? name = some next.pc →
      next.inside region = decide (region.Contains next.pc) :: execution.inside region →
      StaysApart region op execution next
  | ret {hasValue : Bool} : op = .ret hasValue →
      next.inside region = (execution.inside region).tail → StaysApart region op execution next
  | finish {hasValue : Bool} : op = .ret hasValue → next.pc = execution.program.size →
      next.inside region = [false] → StaysApart region op execution next

namespace Procedure.Enclosed

variable {program : Program} {procedure : Procedure} {entry : Nat} {instruction : Instruction}

theorem last_lt (h : procedure.Enclosed program entry) :
    (procedure.region entry).last < program.size :=
  (Array.getElem?_eq_some_iff.1 h.closed).1

theorem contains_succ (h : procedure.Enclosed program entry) {index : Nat}
    (hi : program.code[index]? = some instruction) (hop : instruction.op.goesOn = true) :
    (procedure.region entry).Contains (index + 1) ↔ (procedure.region entry).Contains index := by
  obtain ⟨start, hstart, hjump⟩ := h.skipped
  have hfirst : index ≠ start := by
    rintro rfl
    cases hi.symm.trans hjump
    cases hop
  have hlast : index ≠ (procedure.region entry).last := by
    rintro rfl
    cases hi.symm.trans h.closed
    cases hop
  have hentry : (procedure.region entry).first = entry := rfl
  simp only [Region.Contains]
  omega

theorem staysApart (h : procedure.Enclosed program entry) {execution next : Execution}
    (hprogram : execution.program = program) (hi : execution.instruction? = some instruction)
    (hmoves : Moves program instruction.op execution.levels next.levels) :
    StaysApart (procedure.region entry) instruction.op execution next := by
  have hat {level : Level} {lower : List Level} (hlevels : execution.levels = level :: lower) :
      program.code[level.index]? = some instruction := by
    rw [execution.levels_eq_cons] at hlevels
    cases hlevels
    rw [← hi, Execution.instruction?, hprogram]
  have hpc {level : Level} {lower : List Level} (hlevels : next.levels = level :: lower) :
      next.pc = level.index := by
    rw [next.levels_eq_cons] at hlevels
    cases hlevels
    rfl
  generalize hbefore : execution.levels = before at hmoves
  generalize hafter : next.levels = after at hmoves
  cases hmoves with
  | stay => exact .stay (by rw [Execution.inside, Execution.inside, hbefore, hafter])
  | on _ hop =>
    refine .stay ?_
    simp only [Execution.inside, hbefore, hafter, List.map_cons, h.contains_succ (hat hbefore) hop]
  | jump hjump =>
    refine .stay ?_
    have htarget := h.respected _ _ (hat hbefore) _ (Op.mem_targets_of_jump? hjump)
    simp only [Execution.inside, hbefore, hafter, List.map_cons, htarget]
  | again hcall =>
    refine .stay ?_
    have htarget := h.respected _ _ (hat hbefore) _ (Op.mem_targets_of_call? hcall)
    simp only [Execution.inside, hbefore, hafter, List.map_cons, htarget]
  | enter hop hentry =>
    have hgoes : instruction.op.goesOn = true := by rw [hop]; rfl
    refine .call hop (by rw [hprogram, hentry, hpc hafter]) ?_
    simp only [Execution.inside, hbefore, hafter, List.map_cons,
      h.contains_succ (hat hbefore) hgoes, hpc hafter]
  | leave hop => exact .ret hop (by simp only [Execution.inside, hbefore, hafter, List.map_cons,
      List.tail_cons])
  | finish hop =>
    have hout : ¬(procedure.region entry).Contains program.size :=
      fun hcontains => Nat.not_le.2 h.last_lt hcontains.2
    refine .finish hop (by rw [hpc hafter, hprogram]) ?_
    simp only [Execution.inside, hafter, List.map_cons, List.map_nil, decide_eq_false hout]

end Procedure.Enclosed

/-- In compiled code jumps lead to instructions or to the end, and a call is made again from its own
arguments on. The code of each procedure is a region that no jump leads into or out of; for procedures of
one name the last one is entered. So one gets into it only by a call. -/
theorem procedure_bodies_are_closed {tree : Node} {before : List Node} {program : Program}
    (h : tree.compile before = .ok program) :
    program.firstInvalid? = none ∧
    (∀ index argc restart, program.callAt? index = some (argc, restart) → restart ≤ index) ∧
    (∀ name, Option.Rel (Procedure.Enclosed program) (lastDeclared? (before ++ tree.topLevel) name)
      (program.entry? name)) ∧
    (∃ entries, List.Forall₂ (fun declared entry => declared.2.Enclosed program entry)
      (proceduresIn (before ++ tree.topLevel)) entries) ∧
    ∀ procedure entry, Procedure.Enclosed program procedure entry →
      ∀ {H : Type} (setting : Setting H) (machine next : Machine H) (instruction : Instruction),
        machine.execution.program = program → machine.next? = some instruction →
        machine.step setting instruction = .ok next →
          StaysApart (procedure.region entry) instruction.op machine.execution next.execution := by
  have hinvalid := program.firstInvalid?_eq_none_iff.2 (Program.tidy_of_compile h).contained
  have hrestart (index argc restart : Nat) (hcall : program.callAt? index = some (argc, restart)) :
      restart ≤ index := (Program.wellLaid (.inl h)).restart_le hcall
  obtain ⟨code, entries, hlowers, rfl⟩ := Lowers.of_compile h
  refine ⟨hinvalid, hrestart, fun name => ?_, ⟨entries.map Prod.snd, ?_⟩, ?_⟩
  · rw [lastDeclared?, ← Table.find?_ofPairs]
    exact Table.Related.ofPairs hlowers.enclosed name
  · exact List.forall₂_map_right_iff.2 (hlowers.enclosed.imp fun _ _ h => h.2)
  · intro procedure entry henclosed H setting machine next instruction hprogram hn hs
    refine henclosed.staysApart hprogram (Machine.instruction?_of_next? hn) ?_
    rw [← hprogram]
    exact Machine.moves_step hs

def redeclaring : Node :=
  .root [.procedure "f" ["a"] [.whileLoop (.bool true none)
    [.procedure "f" ["a", "b"] [.ret none none] none] none] none,
    .call "f" [.int 1 none, .int 2 none] none] none

def redeclaringProgram : Program := (redeclaring.compile []).toOption.getD .empty

theorem procedure_bodies_are_closed_redeclaring : redeclaring.compile [] = .ok redeclaringProgram ∧
      redeclaringProgram.firstInvalid? = none ∧ redeclaringProgram.entry? "f" = some 6 ∧
      Procedure.Enclosed redeclaringProgram ⟨["a", "b"], [.ret none none], none⟩ 6 ∧
      ∃ outer inner, List.Forall₂ (fun declared entry => declared.2.Enclosed redeclaringProgram entry)
        (proceduresIn redeclaring.topLevel) [outer, inner] := by
  have hcompile : redeclaring.compile [] = .ok redeclaringProgram := rfl
  obtain ⟨hinvalid, -, htable, ⟨entries, hentries⟩, -⟩ := procedure_bodies_are_closed hcompile
  have hentry : redeclaringProgram.entry? "f" = some 6 := rfl
  have hinner := htable "f"
  have hlast : lastDeclared? ([] ++ redeclaring.topLevel) "f" =
      some ⟨["a", "b"], [.ret none none], none⟩ := rfl
  rw [hentry, hlast] at hinner
  have hlength : entries.length = 2 := hentries.length_eq.symm
  obtain ⟨outer, inner, rfl⟩ := List.length_eq_two.1 hlength
  cases hinner with
  | some hinner => exact ⟨hcompile, hinvalid, hentry, hinner, outer, inner, hentries⟩

end DurableScript
